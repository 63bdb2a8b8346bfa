import ContractCompiler.Codegen.Jump

/-!
# Codegen.Value — the values of operators

Each action takes the actions of the operands and leaves the value of one operator, which holds the
registers that it stands in and no other.
-/

namespace ContractCompiler.Codegen

set_option autoImplicit false

/-- The value of a binary operation. It is computed in a register of one of the operands, in `dest`,
or in a new register. -/
def binaryValue (op : BinaryOp) (left right : Codegen Operand) (dest : Option Slot) (line : Nat) :
    Codegen Operand := do
  let l ← left
  let r ← right
  let (into, other) ←
    if l.isTemp then pure (l, r)
    else if op.isCommutative && r.isTemp then pure (r, l)
    else
      match dest with
      | some dest => do
        assign dest l.slot line
        release l.holds
        pure (⟨dest, []⟩, r)
      | none => do pure (← toTemp l line, r)
  operate op into.slot other.slot line
  release other.holds
  return into

/-- The value of a negation: zero less the operand. -/
def negateValue (operand : Codegen Operand) (line : Nat) : Codegen Operand := do
  let o ← direct (← operand) line
  let r ← allocate line
  emit (.clear r.asmName)
  operate .sub r o.slot line
  release o.holds
  return .ofRegister r

def complementValue (operand : Codegen Operand) (line : Nat) : Codegen Operand := do
  let o ← toTemp (← operand) line
  update .complement o.slot line
  return o

/-- The value of a step before the use. -/
def preStepValue (step : Step) (operand : Codegen Operand) (line : Nat) : Codegen Operand := do
  let o ← operand
  update (.step step) o.slot line
  return o

/-- The value of a step after the use, which is put off. -/
def postStepValue (step : Step) (target : Node) (operand : Codegen Operand) (line : Nat) :
    Codegen Operand := do
  if (← context).inCondition then fail (.misuse line .postStepInCondition)
  else
    defer step target
    operand

/-- The cell at a computed address. -/
def derefValue (base : Codegen Operand) (type : ValueType) (line : Nat) : Codegen Operand := do
  let b ← direct (← base) line
  return ⟨b.slot.withOffset (.fixed 0) type, b.holds⟩

/-- The cell at a computed address and index. -/
def lookupValue (base : Codegen Operand) (fixed : Option Word) (index : Codegen Operand)
    (type : ValueType) (line : Nat) : Codegen Operand := do
  let b ← direct (← base) line
  match fixed with
  | some distance => return ⟨b.slot.withOffset (.fixed distance) type, b.holds⟩
  | none =>
    let i ← direct (← index) line
    return ⟨b.slot.withOffset (.dynamic i.slot.address) type, b.holds ++ i.holds⟩

/-- Writing `target` early does not change what `right` reads. -/
def canComputeIn (target : Slot) (right : Node) : Codegen Bool := do
  return (← context).settings.reuseAssignedVar && target.isDirect &&
    !(← state).pool.isRegister target.address &&
    (target.kind == .long || target.kind == .structRef) && !right.mentions target.address

/-- The value of an assignment is its target. -/
def assignValue (target : Codegen Operand) (value : Option Slot → Codegen Operand)
    (right : Option Node) (hasCall : Bool) (line : Nat) : Codegen Operand := do
  let t ← target
  let early ← match right with
    | some right => do pure ((← canComputeIn t.slot right) && !hasCall)
    | none => pure false
  let v ← value (if early then some t.slot else none)
  assign t.slot v.slot line
  release v.holds
  return t

/-- The value of an assignment that applies an operator is its target. -/
def operateValue (op : BinaryOp) (target value : Codegen Operand) (line : Nat) :
    Codegen Operand := do
  let t ← target
  let v ← value
  operate op t.slot v.slot line
  release v.holds
  return t

/-- One branch of the conditional operator, with the steps put off in it. -/
def ternaryArm (eval : Node → Codegen Operand) (value : Codegen Operand) (result : Slot)
    (line : Nat) : Codegen Unit := do
  let mark ← deferredCount
  let v ← value
  assign result v.slot line
  release v.holds
  applyDeferred eval mark line

def ternaryValue (eval : Node → Codegen Operand) (condition : String → Bool → Codegen Unit)
    (yes no : Codegen Operand) (line : Nat) : Codegen Operand := do
  let id ← labelId line
  let otherwise := "__TER" ++ id ++ "_else"
  let done := "__TER" ++ id ++ "_end"
  condition otherwise false
  let r ← allocate line
  ternaryArm eval yes r line
  emit (.jump done)
  emit (.label otherwise)
  ternaryArm eval no r line
  emit (.label done)
  return .ofRegister r

end ContractCompiler.Codegen
