import ContractCompiler.Codegen

/-!
# Codegen.Operand — slots that instructions can name

An instruction names a cell. A literal has none, and a view has one whose address is known only at run
time. `Codegen.resolve` brings any slot into a cell, in a register where that is needed.
-/

namespace ContractCompiler

set_option autoImplicit false

/-- A slot and the registers that keep it alive. -/
structure Operand where
  slot : Slot
  holds : List Slot := []
  deriving DecidableEq, Repr

namespace Operand

/-- A register with all that it holds. -/
def ofRegister (r : Slot) : Operand := ⟨r, [r]⟩

/-- The value stands in a register of its own, which may be overwritten. -/
def isTemp (o : Operand) : Bool :=
  o.slot.isDirect && o.holds.any (·.address == o.slot.address)

end Operand

/-- Where a slot is read and written: in its own cell, or through an address. -/
inductive Place where
  | direct (slot : Slot)
  | indirect (base : String) (offset : Option String) (holds : List Slot)
  deriving DecidableEq, Repr

namespace Codegen

/-- A literal as an operand: a constant kept in memory, or a register that is set. -/
def literal (value : Word) (line : Nat) : Codegen Operand := do
  match ← intern value with
  | some s => return ⟨s, []⟩
  | none =>
    let r ← allocate line
    if value = 0 then emit (.clear r.asmName)
    else emit (.setLiteral r.asmName value.toHex)
    return .ofRegister r

/-- The slot of an array's element at a fixed index. -/
def element (array : Slot) (index : Word) (line : Nat) : Codegen Slot := do
  match array.contents.bind Word.ofHex? with
  | none => fail (.defect line (.arrayWithoutBase array.asmName))
  | some first =>
    match (← table).get? (Word.toSigned (first + index)) with
    | some s =>
      if s.kind = .long ∧ s.scope = array.scope then return s
      else fail (.defect line (.elementMissing index.toNat array.asmName))
    | none => fail (.defect line (.elementMissing index.toNat array.asmName))

/-- The name in the code of the slot at an address. -/
def nameAt (address : Int) (line : Nat) : Codegen String := do
  match (← table).get? address with
  | some s => return s.asmName
  | none => fail (.defect line (.noSlotAt address))

/-- Where a view is read and written, given the slot that holds its address. -/
def placeThrough (base : String) (offset : Offset) (line : Nat) : Codegen Place := do
  match offset with
  | .dynamic address => return .indirect base (some (← nameAt address line)) []
  | .fixed distance =>
    if distance = 0 then return .indirect base none []
    else
      let o ← literal distance line
      return .indirect base (some o.slot.asmName) o.holds

def place (s : Slot) (line : Nat) : Codegen Place := do
  match s.offset, s.kind with
  | none, _ => return .direct s
  | some (.fixed index), .array => return .direct (← element s index line)
  | some _, .struct => fail (.defect line (.notBaseAddress s.asmName))
  | some _, .constant => fail (.defect line (.notBaseAddress s.asmName))
  | some offset, _ => placeThrough s.asmName offset line

/-- Brings a slot into a cell that an instruction can name. -/
def resolve (s : Slot) (line : Nat) : Codegen Operand := do
  if s.kind = .constant ∧ s.address = Slot.nowhere then
    match s.constant? with
    | some value => literal value line
    | none => fail (.defect line .literalWithoutValue)
  else
    match ← place s line with
    | .direct s => return ⟨s, []⟩
    | .indirect base offset holds =>
      let r ← holding holds (allocate line)
      emit (.load r.asmName base offset)
      giveBack holds line
      return .ofRegister r

end Codegen

end ContractCompiler
