import ContractCompiler.Settings
import ContractCompiler.Text.Blank
import ContractCompiler.Token
import ContractCompiler.Word

/-!
# Directive — settings written in the source

A directive is a command, a key and a value. `Directive.applyAll` applies every directive among the
tokens in turn, stops at the first that is refused, and gives the settings as they are then.
-/

namespace ContractCompiler

set_option autoImplicit false

structure Directive where
  command : String
  key : String
  value : String
  line : Nat
  deriving DecidableEq, Repr

namespace Directive

/-- The version of the language that a contract may demand. -/
def languageVersion : String := "0.1.0"

def ofToken (t : Token) : Directive :=
  let (command, rest) := Text.firstWord (Text.trim t.text.toList)
  let (key, value) := Text.firstWord rest
  ⟨String.ofList command, String.ofList key, String.ofList value, t.line⟩

/-- The bound of numbers of stack pages as they are read, 2^32. -/
def pagesBound : Nat := 4294967296

/-- The value as a decimal number below `bound`. -/
def number (d : Directive) (bound : Nat) : Outcome Nat :=
  match Numeral.read? 10 bound d.value.toList with
  | some n => .ok n
  | none => .error (.misuse d.line (.notDecimal d.value))

/-- The value as a switch. -/
def switch (d : Directive) : Outcome Bool :=
  match d.value with
  | "true" => .ok true
  | "1" => .ok true
  | "false" => .ok false
  | "0" => .ok false
  | _ => .error (.misuse d.line (.notBoolean d.value))

def applyPragma (d : Directive) (s : Settings) : Outcome Settings := do
  match d.key with
  | "maxAuxVars" => s.setMaxAuxVars (← d.number Word.count) d.line
  | "maxConstVars" => s.setMaxConstVars (← d.number Word.count) d.line
  | "reuseAssignedVar" => return { s with reuseAssignedVar := ← d.switch }
  | "enableRandom" => return { s with enableRandom := ← d.switch }
  | "enableLineLabels" => return { s with enableLineLabels := ← d.switch }
  | "outputSourceLineNumber" =>
    if d.value.isEmpty then return { s with outputSourceLineNumber := true }
    else return { s with outputSourceLineNumber := ← d.switch }
  | "version" =>
    if d.value = languageVersion then return s
    else .error (.misuse d.line (.otherVersion languageVersion d.value))
  | key => .error (.misuse d.line (.unknownPragma key))

def applyProgram (d : Directive) (s : Settings) : Outcome Settings := do
  match d.key with
  | "name" => s.setName d.value d.line
  | "description" => s.setDescription d.value d.line
  | "activationAmount" => s.setActivationAmount d.value d.line
  | "codeStackPages" => s.setStackPages (some (← d.number pagesBound)) none d.line
  | "userStackPages" => s.setStackPages none (some (← d.number pagesBound)) d.line
  | key => .error (.misuse d.line (.unknownProgramOption key))

/-- The host calls are always at hand, so that the one known inclusion changes nothing. -/
def applyInclude (d : Directive) (s : Settings) : Outcome Settings :=
  if d.key = "APIFunctions" ∧ d.value = "" then .ok s
  else .error (.misuse d.line (.unknownInclude d.key))

def apply (d : Directive) (s : Settings) : Outcome Settings :=
  match d.command with
  | "pragma" => d.applyPragma s
  | "program" => d.applyProgram s
  | "include" => d.applyInclude s
  | command => .error (.misuse d.line (.unknownDirective command))

/-- Applies the directives among the tokens in turn. Gives the settings after the last directive
that was accepted, and the refusal of the next one if there is one. -/
def applyAll : List Token → Settings → Settings × Option CompileError
  | [], s => (s, none)
  | t :: rest, s =>
    if t.kind = .directive then
      match (ofToken t).apply s with
      | .ok s' => applyAll rest s'
      | .error e => (s, some e)
    else applyAll rest s

/-- The settings after all directives, and the tokens that are none. -/
def split (tokens : List Token) (s : Settings) : Outcome (Settings × List Token) :=
  match applyAll tokens s with
  | (s', none) => .ok (s', tokens.filter (·.kind != .directive))
  | (_, some e) => .error e

end Directive

end ContractCompiler
