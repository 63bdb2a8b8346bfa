import ContractCompiler.Error
import ContractCompiler.SlotTable

/-!
# Pool — the registers and which of them are held

The lowest free register is always taken first, so that a register that was given back is the next to
be used again.
-/

namespace ContractCompiler

set_option autoImplicit false

/-- A register and whether it holds a live value. -/
structure Register where
  slot : Slot
  held : Bool
  deriving DecidableEq, Repr

structure Pool where
  registers : List Register
  deriving DecidableEq, Repr

namespace Pool

/-- The registers of a table, all of them free. -/
def ofTable (t : SlotTable) : Pool :=
  ⟨(t.slots.filter (·.kind == .register)).map (⟨·, false⟩)⟩

def takeFirst : List Register → Option (Slot × List Register)
  | [] => none
  | r :: rest =>
    if r.held then (takeFirst rest).map fun (s, rest') => (s, r :: rest')
    else some (r.slot, { r with held := true } :: rest)

/-- Takes the lowest free register. -/
def allocate (p : Pool) (line : Nat) : Outcome (Slot × Pool) :=
  match takeFirst p.registers with
  | some (s, registers) => .ok (s, ⟨registers⟩)
  | none => .error (.shortage line (.registers p.registers.length))

/-- Marks the register at an address as free, held or not. -/
def free (p : Pool) (address : Int) : Pool :=
  ⟨p.registers.map fun r => if r.slot.address = address then { r with held := false } else r⟩

/-- Gives the register at an address back. -/
def release (p : Pool) (address : Int) (line : Nat) : Outcome Pool :=
  match p.registers.find? (·.slot.address == address) with
  | none => .error (.defect line (.registerUnknown address))
  | some r =>
    if r.held then .ok (p.free address)
    else .error (.defect line (.registerNotHeld r.slot.asmName))

/-- The names in the code of the held registers, the lowest first. -/
def live (p : Pool) : List String :=
  (p.registers.filter (·.held)).map (·.slot.asmName)

def isRegister (p : Pool) (address : Int) : Bool :=
  p.registers.any (·.slot.address == address)

end Pool

end ContractCompiler
