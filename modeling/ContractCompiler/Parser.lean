import ContractCompiler.Token

/-!
# Parser — token parsers that remember how far they got

A parser takes tokens off the front of a list or gives up. Beside its result it carries the furthest
place at which any alternative gave up, those included that were abandoned for a better one: that
place is where an unreadable source is reported. Places are compared by the number of tokens left,
so a result never depends on the record of failures.
-/

namespace ContractCompiler

set_option autoImplicit false

/-- A place where an alternative gave up. -/
structure Failure where
  /-- How many tokens were left. -/
  left : Nat
  /-- The token there was a number that can not be the size of an array. -/
  badSize : Bool := false
  deriving DecidableEq, Repr

namespace Failure

/-- The failure with fewer tokens left; at one place, a bad size prevails. -/
def further (a b : Failure) : Failure :=
  if a.left < b.left then a
  else if b.left < a.left then b
  else ⟨a.left, a.badSize || b.badSize⟩

/-- `further` where there may be no failure. -/
def join : Option Failure → Option Failure → Option Failure
  | none, b => b
  | a, none => a
  | some a, some b => some (a.further b)

/-- The token that a failure stands at; none at the end, and none for a bad size. -/
def found? (f : Failure) (tokens : List Token) : Option Token :=
  if f.badSize then none else (tokens.drop (tokens.length - f.left)).head?

end Failure

/-- What a parser gives: the value and the tokens after it, if it succeeds, and the furthest failure
met on the way. -/
structure Parsed (α : Type) where
  value : Option (α × List Token)
  furthest : Option Failure := none

/-- A parser of a value at the front of a token list. -/
def Parser (α : Type) := List Token → Parsed α

namespace Parser

variable {α β : Type}

def pure (a : α) : Parser α := fun ts => ⟨some (a, ts), none⟩

/-- Parses a value and goes on with what it selects. -/
def bind (p : Parser α) (f : α → Parser β) : Parser β := fun ts =>
  match p ts with
  | ⟨none, e⟩ => ⟨none, e⟩
  | ⟨some (a, rest), e⟩ =>
    let r := f a rest
    ⟨r.value, Failure.join e r.furthest⟩

instance : Monad Parser where
  pure := Parser.pure
  bind := Parser.bind

def fail : Parser α := fun ts => ⟨none, some ⟨ts.length, false⟩⟩

/-- Gives up because the number here can not be the size of an array. -/
def failSize : Parser α := fun ts => ⟨none, some ⟨ts.length, true⟩⟩

/-- Tries the first parser, and the second where the first gives up. -/
def orElse (p : Parser α) (q : Parser α) : Parser α := fun ts =>
  match p ts with
  | ⟨some r, e⟩ => ⟨some r, e⟩
  | ⟨none, e⟩ =>
    let r := q ts
    ⟨r.value, Failure.join e r.furthest⟩

def choice : List (Parser α) → Parser α
  | [] => fun _ => ⟨none, none⟩
  | [p] => p
  | p :: q :: rest => orElse p (choice (q :: rest))

/-- Takes the value if it is there. -/
def option (p : Parser α) : Parser (Option α) :=
  orElse (bind p fun a => pure (some a)) (pure none)

/-- Takes one token on which `f` is defined. -/
def tokenMap (f : Token → Option α) : Parser α
  | [] => fail []
  | t :: rest =>
    match f t with
    | some a => ⟨some (a, rest), none⟩
    | none => fail (t :: rest)

/-- Takes one token that satisfies `p`. -/
def satisfy (p : Token → Bool) : Parser Token :=
  tokenMap fun t => if p t then some t else none

def punct (symbol : String) : Parser Token := satisfy (·.isPunct symbol)

def keyword (word : String) : Parser Token := satisfy (·.isKeyword word)

def identifier : Parser Token := satisfy Token.isIdentifier

/-- Succeeds at the end of the tokens only. -/
def endOfInput : Parser Unit
  | [] => ⟨some ((), []), none⟩
  | t :: rest => fail (t :: rest)

/-- Applies `step` to the value as often as it succeeds, at most as often as the first argument
says. -/
def iterateAux (step : α → Parser α) : Nat → α → Parser α
  | 0, a => pure a
  | fuel + 1, a => fun ts =>
    match step a ts with
    | ⟨none, e⟩ => ⟨some (a, ts), e⟩
    | ⟨some (a', rest), e⟩ =>
      let r := iterateAux step fuel a' rest
      ⟨r.value, Failure.join e r.furthest⟩

/-- Applies `step` to the value as often as it succeeds. A step takes at least one token, so that
there are at most as many as tokens, and one that gives up. -/
def iterate (step : α → Parser α) (a : α) : Parser α := fun ts =>
  iterateAux step (ts.length + 1) a ts

/-- As many values as there are, read one after the other. -/
def many (p : Parser α) : Parser (List α) :=
  bind (iterate (fun read => bind p fun a => pure (a :: read)) [])
    fun read => pure read.reverse

/-- One or more values with a separator between any two. -/
def sepBy1 (p : Parser α) (separator : Parser Token) : Parser (List α) :=
  bind p fun first =>
  bind (many (bind separator fun _ => p)) fun rest => pure (first :: rest)

/-- Any number of values with a separator between any two. -/
def sepBy (p : Parser α) (separator : Parser Token) : Parser (List α) :=
  orElse (sepBy1 p separator) (pure [])

/-- A value between an opening and a closing mark. -/
def between (opening closing : String) (p : Parser α) : Parser α :=
  bind (punct opening) fun _ => bind p fun a => bind (punct closing) fun _ => pure a

/-- Parses all the tokens, or gives the furthest failure. -/
def run (p : Parser α) (tokens : List Token) : Except Failure α :=
  match (bind p fun a => bind endOfInput fun _ => pure a) tokens with
  | ⟨some (a, _), _⟩ => .ok a
  | ⟨none, e⟩ => .error (e.getD ⟨tokens.length, false⟩)

end Parser

end ContractCompiler
