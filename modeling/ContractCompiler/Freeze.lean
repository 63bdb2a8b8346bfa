import ContractCompiler.Error
import ContractCompiler.Instr
import ContractCompiler.SlotTable

/-!
# Freeze — contents that are set before the contract runs

A phrase marked `const` is not executed. Its code may only load literals into variables; each load
becomes a directive that fixes what the variable holds at the start, and a variable can be fixed once.
-/

namespace ContractCompiler

set_option autoImplicit false

namespace SlotTable

/-- The variable and the contents that an instruction loads, if it loads a constant. -/
def constantLoad (t : SlotTable) (line : Nat) : Instr → Outcome (String × String)
  | .setLiteral dest hex => .ok (dest, hex)
  | .clear dest => .ok (dest, Word.toHex 0)
  | .set dest src =>
    match t.find? src with
    | some source =>
      if source.kind = .constant then
        match source.contents with
        | some hex => .ok (dest, hex)
        | none => .error (.defect line (.constantWithoutValue src))
      else .error (.misuse line .notConstant)
    | none => .error (.misuse line .notConstant)
  | _ => .error (.misuse line .notConstant)

/-- Fixes the variable that an instruction loads. -/
def freezeOne (t : SlotTable) (line : Nat) (i : Instr) : Outcome (SlotTable × Instr) := do
  let (dest, hex) ← t.constantLoad line i
  match t.find? dest with
  | none => throw (.defect line (.slotUnknown dest))
  | some s =>
    if s.kind = .register then throw (.misuse line .notConstant)
    if s.isFrozen then throw (.misuse line .alreadyFrozen)
    return (t.setContents dest (some hex), .constSet dest hex)

/-- Fixes the variables that some instructions load, in turn. What was fixed before a refusal stays
fixed. -/
def freeze (t : SlotTable) (line : Nat) : List Instr → SlotTable × Outcome (List Instr)
  | [] => (t, .ok [])
  | i :: rest =>
    match t.freezeOne line i with
    | .error e => (t, .error e)
    | .ok (t', directive) =>
      let (t'', result) := t'.freeze line rest
      (t'', result.map (directive :: ·))

end SlotTable

end ContractCompiler
