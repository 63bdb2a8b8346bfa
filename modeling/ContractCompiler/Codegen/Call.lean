import ContractCompiler.Codegen.Deferred

/-!
# Codegen.Call — calls of functions and of the host

The arguments of a function go over the stack of the contract, the last one first, and so does its
value. The arguments of the host are named in the instruction.
-/

namespace ContractCompiler.Codegen

set_option autoImplicit false

def functionLabel (function : String) : String := "__fn_" ++ function

/-- Pushes arguments, the last one first. -/
def pushArgs (line : Nat) : List (Codegen Operand) → Codegen Unit
  | [] => pure ()
  | arg :: rest => do
    pushArgs line rest
    let o ← arg
    push o.slot line
    release o.holds

/-- Calls a function. The held registers are saved around the call. -/
def callFunction (function : String) (args : List (Codegen Operand)) (returns : ValueType)
    (line : Nat) : Codegen (Option Operand) := do
  let saved := (← state).pool.live
  emitAll (saved.map .push)
  pushArgs line args
  emit (.call (functionLabel function))
  let result ←
    if returns = .void then pure none
    else do
      let r ← allocate line
      emit (.pop r.asmName)
      pure (some ⟨{ r with type := returns }, [r]⟩)
  emitAll (saved.reverse.map .pop)
  return result

def callValue (function : String) (args : List (Codegen Operand)) (returns : ValueType)
    (line : Nat) : Codegen Operand := do
  match ← callFunction function args returns line with
  | some o => return o
  | none => fail (.misuse line (.callWithoutValue function))

/-- A call whose value is not used. -/
def callEffect (function : String) (args : List (Codegen Operand)) (returns : ValueType)
    (line : Nat) : Codegen Unit := do
  match ← callFunction function args returns line with
  | some o => release o.holds
  | none => pure ()

/-- Brings arguments into cells, the first one first. -/
def directAll (line : Nat) : List (Codegen Operand) → Codegen (List Operand)
  | [] => pure []
  | arg :: rest => do
    let o ← direct (← arg) line
    return o :: (← directAll line rest)

/-- Brings the arguments of a host call into cells and gives their names. -/
def hostArgs (args : List (Codegen Operand)) (line : Nat) : Codegen (List String) := do
  let operands ← directAll line args
  release (operands.flatMap (·.holds))
  return operands.map (·.slot.asmName)

def hostValue (call : HostCall) (args : List (Codegen Operand)) (line : Nat) :
    Codegen Operand := do
  let names ← hostArgs args line
  if call.returnsValue then
    let r ← allocate line
    emit (.host (some r.asmName) call.asmName names)
    return .ofRegister r
  else fail (.misuse line (.callWithoutValue call.name))

/-- A host call whose value is not used. -/
def hostEffect (call : HostCall) (args : List (Codegen Operand)) (line : Nat) : Codegen Unit := do
  emit (.host none call.asmName (← hostArgs args line))

end ContractCompiler.Codegen
