import ContractCompiler.Codegen.Deferred

/-!
# Codegen.Jump — jumps on the truth of values

A jump goes to its target if the truth of a value is the one asked for, and else falls through. The
steps put off in what it tests are done before it, so that they happen on both paths.
-/

namespace ContractCompiler.Codegen

set_option autoImplicit false

/-- Jumps on whether a value is zero, after the steps put off in it. -/
def jumpOnValue (eval : Node → Codegen Operand) (value : Codegen Operand) (line : Nat)
    (target : String) (when : Bool) : Codegen Unit := do
  let mark ← deferredCount
  let o ← value
  let o ←
    if (← deferredCount) = mark then pure o
    else do
      let o ← protect o line
      applyDeferred eval mark line
      pure o
  compare (if when then .ne else .eq) o.slot none target line
  release o.holds

/-- Jumps on a relation between two values, after the steps put off in them. -/
def jumpOnRelation (eval : Node → Codegen Operand) (relation : Relation)
    (left right : Codegen Operand) (line : Nat) (target : String) (when : Bool) : Codegen Unit := do
  let mark ← deferredCount
  let l ← left
  let r ← right
  let (l, r) ←
    if (← deferredCount) = mark then pure (l, r)
    else do
      let l ← protect l line
      let r ← protect r line
      applyDeferred eval mark line
      pure (l, r)
  compare (if when then relation else relation.negate) l.slot (some r.slot) target line
  release (l.holds ++ r.holds)

/-- Jumps if both hold, or if not both hold. The second is not looked at if the first decides. -/
def jumpOnBoth (left right : String → Bool → Codegen Unit) (line : Nat) (target : String)
    (when : Bool) : Codegen Unit := do
  if when then
    let next := "__AND" ++ (← labelId line) ++ "_next"
    left next false
    right target true
    emit (.label next)
  else
    left target false
    right target false

/-- Jumps if one of two holds, or if none does. The second is not looked at if the first decides. -/
def jumpOnEither (left right : String → Bool → Codegen Unit) (line : Nat) (target : String)
    (when : Bool) : Codegen Unit := do
  if when then
    left target true
    right target true
  else
    let next := "__OR" ++ (← labelId line) ++ "_next"
    left next true
    right target false
    emit (.label next)

/-- A truth value as zero or one in a register. -/
def truth (jump : String → Bool → Codegen Unit) (line : Nat) : Codegen Operand := do
  let id ← labelId line
  let isFalse := "__CMP" ++ id ++ "_sF"
  let done := "__CMP" ++ id ++ "_end"
  jump isFalse false
  let r ← allocate line
  assign r (.literal 1) line
  emit (.jump done)
  emit (.label isFalse)
  emit (.clear r.asmName)
  emit (.label done)
  return .ofRegister r

end ContractCompiler.Codegen
