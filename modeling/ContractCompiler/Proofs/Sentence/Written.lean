import ContractCompiler.Proofs.Parser.Reads
import ContractCompiler.Sentence.Parser

/-!
# Proofs.Sentence.Written — how contracts are written

For each part of a contract, `Written` relates it to the tokens that write it. Bodies stand in braces, and the
lines of marks and words are free where the part does not keep them. The lines that it does keep are those of the
tokens: a name's, a type's, that of the word a sentence begins with, and for a phrase that of its first token.

Not every part can be written so. `wellFormed` says which can be: the runs of tokens in it are balanced, a phrase
does not begin like another sentence, a declaration declares something, and a parameter is not void. All of these
can be written (`Item.exists_written`).
-/

namespace ContractCompiler

set_option autoImplicit false

open Token (mark word named Separated)

/-! ## Parts that can be written -/

namespace Token

/-- The parentheses are balanced, if some are open before. There are no semicolons and no braces, and outside of
the parentheses no tokens of `stop`. -/
def isBalanced (stop : Token → Bool) : Nat → List Token → Bool
  | depth, [] => depth == 0
  | depth, t :: ts =>
    if t.isPunct "(" then isBalanced stop (depth + 1) ts
    else if t.isPunct ")" then decide (0 < depth) && isBalanced stop (depth - 1) ts
    else !t.isOneOf [";", "\x7b", "\x7d"] && (decide (0 < depth) || !stop t) && isBalanced stop depth ts

/-- A phrase, a condition or a part of the head of a loop. -/
def isRun (ts : List Token) : Bool := isBalanced (fun _ => false) 0 ts

/-- An initial value. A comma ends it. -/
def isInitial (ts : List Token) : Bool := isBalanced (·.isPunct ",") 0 ts

/-- The first token is one of the words. -/
def beginsWith (words : List String) (ts : List Token) : Bool :=
  ts.head?.any fun t => t.kind == .keyword && words.contains t.text

/-- The words that begin a type. -/
def typeWords : List String := ["long", "void", "struct"]

/-- The words that begin or continue a sentence which is no phrase. -/
def sentenceWords : List String := typeWords ++ ["const", "if", "else", "while", "do", "for"]

end Token

def Declarator.wellFormed (d : Declarator) : Bool :=
  d.array.all (fun size => decide (size < Word.count)) && d.init.all Token.isInitial

def Declaration.wellFormed (d : Declaration) : Bool :=
  !d.declarators.isEmpty && d.declarators.all Declarator.wellFormed

namespace Sentence

mutual

def wellFormed : Sentence → Bool
  | phrase line isConst code => Token.isRun code &&
    if isConst then !Token.beginsWith Token.typeWords code
    else !Token.beginsWith Token.sentenceWords code && code.head?.all (·.line == line)
  | ifThen _ test yes => Token.isRun test && allWellFormed yes
  | ifElse _ test yes no => Token.isRun test && allWellFormed yes && allWellFormed no
  | whileLoop _ test body => Token.isRun test && allWellFormed body
  | doLoop _ test body => Token.isRun test && allWellFormed body
  | forLoop _ init test step body =>
    Token.isRun init && Token.isRun test && Token.isRun step && allWellFormed body
  | block body => allWellFormed body
  | declaration d => d.wellFormed

def allWellFormed : List Sentence → Bool
  | [] => true
  | s :: rest => wellFormed s && allWellFormed rest

end

theorem allWellFormed_eq (body : List Sentence) : allWellFormed body = body.all wellFormed := by
  induction body with
  | nil => rfl
  | cons s rest ih => rw [allWellFormed, ih, List.all_cons]

end Sentence

def StructDef.wellFormed (s : StructDef) : Bool := s.members.all Declarator.wellFormed

def FunctionDef.wellFormed (f : FunctionDef) : Bool :=
  f.params.all (·.type != .void) && Sentence.allWellFormed f.body

def Item.wellFormed : Item → Bool
  | struct s => s.wellFormed
  | function f => f.wellFormed
  | sentence s => s.wellFormed

def Program.wellFormed (p : Program) : Bool :=
  p.structs.all StructDef.wellFormed && Sentence.allWellFormed p.globals && p.functions.all FunctionDef.wellFormed

/-! ## Ways to write them -/

namespace Token

/-- A token that may be missing. -/
def onlyIf (present : Bool) (t : Token) : List Token := if present then [t] else []

@[simp] theorem onlyIf_false (t : Token) : onlyIf false t = [] := rfl

def inParentheses (l l' : Nat) (ts : List Token) : List Token := mark "(" l :: (ts ++ [mark ")" l'])

def inBraces (l l' : Nat) (ts : List Token) : List Token := mark "\x7b" l :: (ts ++ [mark "\x7d" l'])

end Token

open Token (onlyIf inParentheses inBraces)

/-- A type whose first word is on the given line. -/
def TypeName.tokens (line l : Nat) : TypeName → List Token
  | long => [word "long" line]
  | void => [word "void" line]
  | struct tag => [word "struct" line, named tag l]

/-- A declarator. The lines of the tokens other than the name are `lines`. -/
def Declarator.tokens (lines : Nat → Nat) (d : Declarator) : List Token :=
  onlyIf d.pointer (mark "*" (lines 0)) ++ named d.name d.line ::
    ((d.array.elim [] fun size => [mark "[" (lines 1), ⟨.number, toString size, lines 2⟩, mark "]" (lines 3)]) ++
      d.init.elim [] fun init => mark "=" (lines 4) :: init)

/-- Declarators with commas between them, and a semicolon. -/
inductive Declarator.Listed : List Declarator → List Token → Prop
  | intro {items : List (Declarator × List Token)} {us : List Token} (l : Nat)
    (each : ∀ item ∈ items, ∃ lines, item.2 = item.1.tokens lines) (separated : Separated (items.map (·.2)) us) :
    Listed (items.map (·.1)) (us ++ [mark ";" l])

inductive Declaration.Written : Declaration → List Token → Prop
  | intro {declarators : List Declarator} {us : List Token} (type : TypeName) (isConst : Bool) (line l l' : Nat)
    (listed : Declarator.Listed declarators us) :
    Written ⟨type, isConst, declarators, line⟩ (onlyIf isConst (word "const" l) ++ (type.tokens line l' ++ us))

inductive Sentence.Written : Sentence → List Token → Prop
  | phrase {line : Nat} (code : List Token) (l : Nat) (isLine : (code.head?.getD (mark ";" l)).line = line) :
    Written (.phrase line false code) (code ++ [mark ";" l])
  | constPhrase (line : Nat) (code : List Token) (l : Nat) :
    Written (.phrase line true code) (word "const" line :: (code ++ [mark ";" l]))
  | ifThen {yes : List (Sentence × List Token)} (line : Nat) (test : List Token) (lines : Nat → Nat)
    (each : ∀ s ∈ yes, Written s.1 s.2) :
    Written (.ifThen line test (yes.map (·.1))) (word "if" line ::
      (inParentheses (lines 0) (lines 1) test ++ inBraces (lines 2) (lines 3) (yes.flatMap (·.2))))
  | ifElse {yes no : List (Sentence × List Token)} (line : Nat) (test : List Token) (lines : Nat → Nat)
    (each : ∀ s ∈ yes, Written s.1 s.2) (each' : ∀ s ∈ no, Written s.1 s.2) :
    Written (.ifElse line test (yes.map (·.1)) (no.map (·.1))) (word "if" line ::
      (inParentheses (lines 0) (lines 1) test ++ (inBraces (lines 2) (lines 3) (yes.flatMap (·.2)) ++
        word "else" (lines 4) :: inBraces (lines 5) (lines 6) (no.flatMap (·.2)))))
  | whileLoop {body : List (Sentence × List Token)} (line : Nat) (test : List Token) (lines : Nat → Nat)
    (each : ∀ s ∈ body, Written s.1 s.2) :
    Written (.whileLoop line test (body.map (·.1))) (word "while" line ::
      (inParentheses (lines 0) (lines 1) test ++ inBraces (lines 2) (lines 3) (body.flatMap (·.2))))
  | doLoop {body : List (Sentence × List Token)} (line : Nat) (test : List Token) (lines : Nat → Nat)
    (each : ∀ s ∈ body, Written s.1 s.2) :
    Written (.doLoop line test (body.map (·.1))) (word "do" (lines 0) ::
      (inBraces (lines 1) (lines 2) (body.flatMap (·.2)) ++
        word "while" line :: (inParentheses (lines 3) (lines 4) test ++ [mark ";" (lines 5)])))
  | forLoop {body : List (Sentence × List Token)} (line : Nat) (init test step : List Token) (lines : Nat → Nat)
    (each : ∀ s ∈ body, Written s.1 s.2) :
    Written (.forLoop line init test step (body.map (·.1))) (word "for" line :: mark "(" (lines 0) ::
      (init ++ mark ";" (lines 1) :: (test ++ mark ";" (lines 2) :: (step ++ mark ")" (lines 3) ::
        inBraces (lines 4) (lines 5) (body.flatMap (·.2))))))
  | block {body : List (Sentence × List Token)} (l l' : Nat) (each : ∀ s ∈ body, Written s.1 s.2) :
    Written (.block (body.map (·.1))) (inBraces l l' (body.flatMap (·.2)))
  | declaration {d : Declaration} {ts : List Token} (written : d.Written ts) : Written (.declaration d) ts

/-- The members of a struct stand in any number of rows, each of which lists some of them. -/
inductive StructDef.Written : StructDef → List Token → Prop
  | intro {rows : List (List Declarator × List Token)} (tag : String) (line : Nat) (lines : Nat → Nat)
    (each : ∀ row ∈ rows, ∃ l us, row.2 = word "long" l :: us ∧ Declarator.Listed row.1 us) :
    Written ⟨tag, (rows.map (·.1)).flatten, line⟩ (word "struct" (lines 0) :: named tag line ::
      (inBraces (lines 1) (lines 2) (rows.flatMap (·.2)) ++ [mark ";" (lines 3)]))

def Param.tokens (lines : Nat → Nat) (p : Param) : List Token :=
  p.type.tokens (lines 0) (lines 1) ++ (onlyIf p.pointer (mark "*" (lines 2)) ++ [named p.name p.line])

/-- Parameters with commas between them. If there are none, there may be the word `void`. -/
inductive Param.Listed : List Param → List Token → Prop
  | none : Listed [] []
  | void (l : Nat) : Listed [] [word "void" l]
  | some {items : List (Param × List Token)} {us : List Token}
    (each : ∀ item ∈ items, ∃ lines, item.2 = item.1.tokens lines) (separated : Separated (items.map (·.2)) us) :
    Listed (items.map (·.1)) us

inductive FunctionDef.Written : FunctionDef → List Token → Prop
  | intro {params : List Param} {us : List Token} {body : List (Sentence × List Token)} (name : String)
    (returns : TypeName) (returnsPointer : Bool) (line : Nat) (lines : Nat → Nat) (listed : Param.Listed params us)
    (each : ∀ s ∈ body, Sentence.Written s.1 s.2) :
    Written ⟨name, returns, returnsPointer, params, body.map (·.1), line⟩ (returns.tokens line (lines 0) ++
      (onlyIf returnsPointer (mark "*" (lines 1)) ++ named name (lines 2) ::
        (inParentheses (lines 3) (lines 4) us ++ inBraces (lines 5) (lines 6) (body.flatMap (·.2)))))

def Item.Written : Item → List Token → Prop
  | struct s => s.Written
  | function f => f.Written
  | sentence s => s.Written

/-- A declaration begins with `const` or with a type. -/
theorem Declaration.Written.head {d : Declaration} {ts : List Token} (written : d.Written ts) :
    ∃ text ∈ "const" :: Token.typeWords, ∃ line us, ts = word text line :: us := by
  obtain @⟨declarators, us, type, isConst, line, l, l', -⟩ := written
  cases isConst with
  | true => exact ⟨"const", by decide, l, _, rfl⟩
  | false => cases type with
    | long => exact ⟨"long", by decide, line, _, rfl⟩
    | void => exact ⟨"void", by decide, line, _, rfl⟩
    | struct tag => exact ⟨"struct", by decide, line, _, rfl⟩

/-! ## What can be written -/

/-- Values that can all be written, each with its tokens. -/
theorem exists_pieces {α : Type} (Written : α → List Token → Prop) (as : List α)
    (each : ∀ a ∈ as, ∃ ts, Written a ts) :
    ∃ items : List (α × List Token), items.map (·.1) = as ∧ ∀ item ∈ items, Written item.1 item.2 := by
  induction as with
  | nil => exact ⟨[], rfl, by simp⟩
  | cons a as ih =>
    obtain ⟨⟨ts, written⟩, others⟩ := List.forall_mem_cons.1 each
    obtain ⟨items, rfl, all⟩ := ih others
    exact ⟨(a, ts) :: items, rfl, List.forall_mem_cons.2 ⟨written, all⟩⟩

theorem Token.exists_separated {pieces : List (List Token)} (nonempty : pieces ≠ []) :
    ∃ us, Separated pieces us := by
  induction pieces with
  | nil => exact absurd rfl nonempty
  | cons ts pieces ih =>
    cases pieces with
    | nil => exact ⟨ts, .one ts⟩
    | cons ts' pieces =>
      obtain ⟨us, separated⟩ := ih (by simp)
      exact ⟨_, .more ts 0 separated⟩

theorem Declarator.exists_listed {ds : List Declarator} (nonempty : ds ≠ []) : ∃ ts, Listed ds ts := by
  obtain ⟨items, rfl, each⟩ := exists_pieces (fun (d : Declarator) ts => ∃ lines, ts = d.tokens lines) ds
    fun d _ => ⟨_, fun _ => 0, rfl⟩
  have pieces : items.map (·.2) ≠ [] := by simpa using nonempty
  obtain ⟨us, separated⟩ := Token.exists_separated pieces
  exact ⟨_, .intro 0 each separated⟩

theorem Declaration.exists_written {d : Declaration} (wellFormed : d.wellFormed = true) : ∃ ts, d.Written ts := by
  obtain ⟨type, isConst, declarators, line⟩ := d
  have nonempty : declarators ≠ [] := by
    rintro rfl
    cases wellFormed
  obtain ⟨us, listed⟩ := Declarator.exists_listed nonempty
  exact ⟨_, .intro type isConst line 0 0 listed⟩

namespace Sentence

mutual

theorem exists_written : (s : Sentence) → s.wellFormed = true → ∃ ts, s.Written ts
  | phrase line true code, _ => ⟨_, .constPhrase line code 0⟩
  | phrase line false code, wellFormed => by
    refine ⟨_, .phrase code line ?_⟩
    cases code with
    | nil => rfl
    | cons t code =>
      have isLine : t.line = line := by simp_all [Sentence.wellFormed]
      exact isLine
  | ifThen line test yes, wellFormed => by
    rw [Sentence.wellFormed, Bool.and_eq_true] at wellFormed
    obtain ⟨yes, rfl, each⟩ := exists_body yes wellFormed.2
    exact ⟨_, .ifThen line test (fun _ => 0) each⟩
  | ifElse line test yes no, wellFormed => by
    rw [Sentence.wellFormed, Bool.and_eq_true, Bool.and_eq_true] at wellFormed
    obtain ⟨yes, rfl, each⟩ := exists_body yes wellFormed.1.2
    obtain ⟨no, rfl, each'⟩ := exists_body no wellFormed.2
    exact ⟨_, .ifElse line test (fun _ => 0) each each'⟩
  | whileLoop line test body, wellFormed => by
    rw [Sentence.wellFormed, Bool.and_eq_true] at wellFormed
    obtain ⟨body, rfl, each⟩ := exists_body body wellFormed.2
    exact ⟨_, .whileLoop line test (fun _ => 0) each⟩
  | doLoop line test body, wellFormed => by
    rw [Sentence.wellFormed, Bool.and_eq_true] at wellFormed
    obtain ⟨body, rfl, each⟩ := exists_body body wellFormed.2
    exact ⟨_, .doLoop line test (fun _ => 0) each⟩
  | forLoop line init test step body, wellFormed => by
    rw [Sentence.wellFormed, Bool.and_eq_true] at wellFormed
    obtain ⟨body, rfl, each⟩ := exists_body body wellFormed.2
    exact ⟨_, .forLoop line init test step (fun _ => 0) each⟩
  | block body, wellFormed => by
    obtain ⟨body, rfl, each⟩ := exists_body body wellFormed
    exact ⟨_, .block 0 0 each⟩
  | declaration d, wellFormed => by
    obtain ⟨ts, written⟩ := d.exists_written wellFormed
    exact ⟨ts, .declaration written⟩

theorem exists_body : (body : List Sentence) → allWellFormed body = true →
    ∃ items : List (Sentence × List Token), items.map (·.1) = body ∧ ∀ s ∈ items, s.1.Written s.2
  | [], _ => ⟨[], rfl, by simp⟩
  | s :: rest, wellFormed => by
    rw [allWellFormed, Bool.and_eq_true] at wellFormed
    obtain ⟨ts, written⟩ := exists_written s wellFormed.1
    obtain ⟨items, rfl, each⟩ := exists_body rest wellFormed.2
    exact ⟨(s, ts) :: items, rfl, List.forall_mem_cons.2 ⟨written, each⟩⟩

end

end Sentence

theorem StructDef.exists_written (s : StructDef) : ∃ ts, s.Written ts := by
  obtain ⟨tag, members, line⟩ := s
  -- Every member has a row of its own.
  obtain ⟨rows, isRows, each⟩ := exists_pieces
    (fun row ts => ∃ l us, ts = word "long" l :: us ∧ Declarator.Listed row us) (members.map ([·])) fun row mem => by
      obtain ⟨d, -, rfl⟩ := List.mem_map.1 mem
      obtain ⟨us, listed⟩ := Declarator.exists_listed (List.cons_ne_nil d [])
      exact ⟨_, 0, us, rfl, listed⟩
  have written := StructDef.Written.intro tag line (fun _ => 0) each
  rw [isRows, ← List.flatMap_def, List.flatMap_singleton'] at written
  exact ⟨_, written⟩

theorem Param.exists_listed (params : List Param) : ∃ ts, Listed params ts := by
  cases params with
  | nil => exact ⟨[], .none⟩
  | cons p rest =>
    obtain ⟨items, isItems, each⟩ := exists_pieces (fun (p : Param) ts => ∃ lines, ts = p.tokens lines)
      (p :: rest) fun p _ => ⟨_, fun _ => 0, rfl⟩
    have pieces : items.map (·.2) ≠ [] := by
      intro none
      rw [List.map_eq_nil_iff.1 none] at isItems
      cases isItems
    obtain ⟨us, separated⟩ := Token.exists_separated pieces
    rw [← isItems]
    exact ⟨us, .some each separated⟩

theorem FunctionDef.exists_written {f : FunctionDef} (wellFormed : f.wellFormed = true) : ∃ ts, f.Written ts := by
  obtain ⟨name, returns, returnsPointer, params, body, line⟩ := f
  obtain ⟨us, listed⟩ := Param.exists_listed params
  rw [FunctionDef.wellFormed, Bool.and_eq_true] at wellFormed
  obtain ⟨body, rfl, each⟩ := Sentence.exists_body body wellFormed.2
  exact ⟨_, .intro name returns returnsPointer line (fun _ => 0) listed each⟩

theorem Item.exists_written : {i : Item} → i.wellFormed = true → ∃ ts, i.Written ts
  | struct s, _ => s.exists_written
  | function _, wellFormed => FunctionDef.exists_written wellFormed
  | sentence s, wellFormed => s.exists_written wellFormed

end ContractCompiler
