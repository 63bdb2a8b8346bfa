import ContractCompiler.Error

/-!
# Settings — what a contract may choose about its compilation

The setters accept a value only inside its limits and leave the settings alone otherwise.
-/

namespace ContractCompiler

set_option autoImplicit false

/-- The choices that shape the code and the facts that lead it. -/
structure Settings where
  /-- How many registers there are for intermediate values. -/
  maxAuxVars : Nat := 3
  /-- How many constants may be kept in memory. -/
  maxConstVars : Nat := 0
  /-- Compute an assigned value in the assigned variable where that is safe. -/
  reuseAssignedVar : Bool := true
  /-- Labels carry the source line. -/
  enableLineLabels : Bool := false
  /-- Labels carry random letters in place of numbers. -/
  enableRandom : Bool := false
  /-- The code is commented with source lines. -/
  outputSourceLineNumber : Bool := false
  codeStackPages : Nat := 0
  userStackPages : Nat := 0
  name : Option String := none
  description : Option String := none
  activationAmount : Option String := none
  deriving DecidableEq, Repr

namespace Settings

def auxVarsLimit : Nat := 21

def constVarsLimit : Nat := 21

/-- What the two stacks may take together. -/
def stackPagesBudget : Nat := 10

def setMaxAuxVars (value line : Nat) (s : Settings) : Outcome Settings :=
  if 1 ≤ value ∧ value ≤ auxVarsLimit then .ok { s with maxAuxVars := value }
  else .error (.misuse line (.outOfRange 1 auxVarsLimit))

def setMaxConstVars (value line : Nat) (s : Settings) : Outcome Settings :=
  if value ≤ constVarsLimit then .ok { s with maxConstVars := value }
  else .error (.misuse line (.outOfRange 0 constVarsLimit))

/-- What the pages of the two stacks come to. They are added only if neither is over the budget alone. -/
def stackPagesSum? (code user : Nat) : Option Nat :=
  if code ≤ stackPagesBudget ∧ user ≤ stackPagesBudget then some (code + user) else none

/-- Sets the pages of either stack or of both; the budget holds for the two together. -/
def setStackPages (code user : Option Nat) (line : Nat) (s : Settings) : Outcome Settings :=
  let code := code.getD s.codeStackPages
  let user := user.getD s.userStackPages
  if (stackPagesSum? code user).any (· ≤ stackPagesBudget) then
    .ok { s with codeStackPages := code, userStackPages := user }
  else .error (.misuse line (.stackPagesOutOfRange stackPagesBudget))

/-- A name is 1 to 30 letters and digits of ASCII. -/
def isProgramName (text : String) : Bool :=
  let cs := text.toList
  !cs.isEmpty && cs.length ≤ 30 && cs.all Char.isAlphanum

def setName (text : String) (line : Nat) (s : Settings) : Outcome Settings :=
  if isProgramName text then .ok { s with name := some text }
  else .error (.misuse line .badProgramName)

def setDescription (text : String) (line : Nat) (s : Settings) : Outcome Settings :=
  if text.length ≤ 1000 then .ok { s with description := some text }
  else .error (.misuse line .longDescription)

/-- A decimal amount without its separators and without superfluous leading zeros. -/
def normalAmount? (text : String) : Option String :=
  let digits := text.toList.filter (· != '_')
  if !digits.isEmpty && digits.all Char.isDigit then
    match digits.dropWhile (· == '0') with
    | [] => some "0"
    | rest => some (String.ofList rest)
  else none

def setActivationAmount (text : String) (line : Nat) (s : Settings) : Outcome Settings :=
  match normalAmount? text with
  | some amount => .ok { s with activationAmount := some amount }
  | none => .error (.misuse line .badActivationAmount)

end Settings

end ContractCompiler
