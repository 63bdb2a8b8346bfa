import ContractCompiler.Error
import ContractCompiler.Expr
import ContractCompiler.Parser

/-!
# Expr.Parser — from tokens to operator trees

Operators are read by binding power. An expression of power `p` is an operand, extended to the right
as long as an operator follows whose left power is at least `p`; the right operand of an operator is
an expression of that operator's right power. An operator of level `n` that groups to the left has
the powers `2n` and `2n + 1`, one that groups to the right has `2n + 1` and `2n`. The conditional
operator has level 3 and groups to the right. What follows an operand directly (`++`, `--`, an index,
a member) binds before everything else, and prefix operators come next.

Each level of `Expr.parser` takes a token before it descends, so that fuel above the number of tokens
never runs out.
-/

namespace ContractCompiler

set_option autoImplicit false

namespace InfixOp

def table : List (String × InfixOp) := all.map fun op => (op.symbol, op)

def ofToken? (t : Token) : Option InfixOp :=
  if t.kind = .punct then table.lookup t.text else none

def leftPower (op : InfixOp) : Nat :=
  if op.groupsRight then 2 * op.level + 1 else 2 * op.level

def rightPower (op : InfixOp) : Nat :=
  if op.groupsRight then 2 * op.level else 2 * op.level + 1

end InfixOp

namespace PrefixOp

def table : List (String × PrefixOp) := all.map fun op => (op.symbol, op)

def ofToken? (t : Token) : Option PrefixOp :=
  if t.kind = .punct then table.lookup t.text else none

/-- The power of a prefix operator's operand: only what follows an operand directly binds more. -/
def power : Nat := 30

end PrefixOp

def Step.ofToken? (t : Token) : Option Step :=
  if t.isPunct "++" then some .up else if t.isPunct "--" then some .down else none

def Control.ofToken? (t : Token) : Option Control :=
  if t.kind = .keyword then Control.ofWord? t.text else none

namespace Expr

/-- The left power of the conditional operator. -/
def ternaryLeftPower : Nat := 7

/-- The power of what follows the colon of the conditional operator. -/
def ternaryRightPower : Nat := 6

section Parts

variable (inner : Nat → Parser Expr)

def prefixedParser : Parser Expr := do
  let (op, line) ← Parser.tokenMap fun t => (PrefixOp.ofToken? t).map (·, t.line)
  let operand ← inner PrefixOp.power
  return prefixed op line operand

def callParser : Parser Expr := do
  let function ← Parser.identifier
  let args ← Parser.between "(" ")" (Parser.sepBy (inner 0) (Parser.punct ","))
  return call function.text function.line args

/-- An operand without operators: a call, a name, a number, or anything in parentheses. -/
def atomParser : Parser Expr :=
  Parser.choice
    [callParser inner,
      Parser.tokenMap fun t => if t.isIdentifier then some (name t.text t.line) else none,
      Parser.tokenMap fun t => if t.isNumber then some (number t.text t.line) else none,
      Parser.between "(" ")" (inner 0)]

/-- An operand extended by what may follow it directly. -/
def suffixParser (operand : Expr) : Parser Expr :=
  Parser.choice
    [do
      let (step, line) ← Parser.tokenMap fun t => (Step.ofToken? t).map (·, t.line)
      return stepped step line operand,
    do
      let bracket ← Parser.punct "["
      let position ← inner 0
      let _ ← Parser.punct "]"
      return index bracket.line operand position,
    do
      let mark ← Parser.satisfy fun t => t.isPunct "." || t.isPunct "->"
      let field ← Parser.identifier
      return member field.line (mark.text == "->") operand field.text]

/-- A left operand extended by an operator of at least the given power and its right operand. -/
def infixedParser (power : Nat) (left : Expr) : Parser Expr := do
  let (op, line) ← Parser.tokenMap fun t =>
    ((InfixOp.ofToken? t).filter (power ≤ ·.leftPower)).map (·, t.line)
  let right ← inner op.rightPower
  return infixed op line left right

/-- A condition extended by the two branches of the conditional operator. -/
def ternaryParser (power : Nat) (condition : Expr) : Parser Expr :=
  if power ≤ ternaryLeftPower then do
    let question ← Parser.punct "?"
    let yes ← inner 0
    let _ ← Parser.punct ":"
    let no ← inner ternaryRightPower
    return ternary question.line condition yes no
  else Parser.fail

/-- An operand extended by one operator. -/
def extensionParser (power : Nat) (left : Expr) : Parser Expr :=
  Parser.choice
    [suffixParser inner left, infixedParser inner power left, ternaryParser inner power left]

end Parts

/-- An expression of at least the given power, nested no deeper than the first argument says. -/
def parser : Nat → Nat → Parser Expr
  | 0, _ => Parser.fail
  | fuel + 1, power => do
    let operand ← Parser.orElse (prefixedParser (parser fuel)) (atomParser (parser fuel))
    Parser.iterate (extensionParser (parser fuel) power) operand

end Expr

/-- A phrase: an expression, or a keyword of control with at most one expression after it. -/
def Phrase.parser (fuel : Nat) : Parser Phrase :=
  Parser.orElse
    (do
      let (word, line) ← Parser.tokenMap fun t => (Control.ofToken? t).map (·, t.line)
      let value ← Parser.option (Expr.parser fuel 0)
      return .control word line value)
    (do return .value (← Expr.parser fuel 0))

/-- The report of tokens that are no expression: the token that does not fit, or the last token when
more were needed. -/
def Expr.unreadable (tokens : List Token) (line : Nat) (f : Failure) : CompileError :=
  match f.found? tokens, tokens.getLast? with
  | some t, _ => .malformed t.line (.unexpected t.text)
  | none, some last => .malformed last.line (.incompleteAfter last.text)
  | none, none => .malformed line .emptyCondition

/-- Reads a phrase; no tokens are an empty phrase. -/
def Phrase.ofTokens (tokens : List Token) (line : Nat) : Outcome (Option Phrase) :=
  if tokens.isEmpty then .ok none
  else
    match (Phrase.parser (tokens.length + 1)).run tokens with
    | .ok phrase => .ok (some phrase)
    | .error f => .error (Expr.unreadable tokens line f)

/-- Reads the condition of a sentence at `line`. -/
def Expr.ofCondition (tokens : List Token) (line : Nat) : Outcome Expr :=
  if tokens.isEmpty then .error (.malformed line .emptyCondition)
  else
    match (Expr.parser (tokens.length + 1) 0).run tokens with
    | .ok expr => .ok expr
    | .error f => .error (Expr.unreadable tokens line f)

end ContractCompiler
