import ContractCompiler.Codegen.Select

/-!
# Codegen.Deferred — registers for values, and steps that were put off

A value is brought into a register of its own before it is overwritten, or before a step that was put
off could change it.
-/

namespace ContractCompiler.Codegen

set_option autoImplicit false

/-- Loads a value that is no cell into a register. -/
def direct (o : Operand) (line : Nat) : Codegen Operand := do
  let found ← resolve o.slot line
  if found.holds.isEmpty then return ⟨found.slot, o.holds⟩
  else
    release o.holds
    return found

/-- Brings a value into a register of its own. -/
def toTemp (o : Operand) (line : Nat) : Codegen Operand := do
  let o ← direct o line
  if o.isTemp then return o
  else
    let r ← allocate line
    assign r o.slot line
    release o.holds
    return .ofRegister r

/-- Does steps one after the other. -/
def doSteps (eval : Node → Codegen Operand) (line : Nat) : List (Step × Node) → Codegen Unit
  | [] => pure ()
  | (step, target) :: rest => do
    let o ← eval target
    update (.step step) o.slot line
    release o.holds
    doSteps eval line rest

/-- Does the steps that were put off since there were `mark` of them. -/
def applyDeferred (eval : Node → Codegen Operand) (mark line : Nat) : Codegen Unit := do
  doSteps eval line (← takeDeferred mark)

/-- Copies a value that a step could change into a register. -/
def protect (o : Operand) (line : Nat) : Codegen Operand :=
  if o.isTemp || o.slot.kind == .constant then pure o else toTemp o line

end ContractCompiler.Codegen
