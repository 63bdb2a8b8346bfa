import ContractCompiler.Word

/-!
# Slot — a named cell of memory and the views of it

A slot is one cell, or a view: the cell at a distance from the address that a slot holds. Literals
and struct variables are slots as well, but have no cell of their own.
-/

namespace ContractCompiler

set_option autoImplicit false

inductive SlotKind where
  | register
  | long
  | constant
  /-- Holds the address of the first element of an array. -/
  | array
  /-- Holds the address of a struct. -/
  | structRef
  /-- A struct variable, of which only the members have cells. -/
  | struct
  deriving DecidableEq, Repr

/-- The type of what a slot holds or a function returns. -/
inductive ValueType where
  | long
  | longPtr
  | struct (tag : String)
  | structPtr (tag : String)
  | void
  deriving DecidableEq, Repr

/-- The distance of a viewed cell from the address that a slot holds. -/
inductive Offset where
  /-- The distance is held in the slot at this address. -/
  | dynamic (address : Int)
  | fixed (distance : Word)
  deriving DecidableEq, Repr

structure Slot where
  address : Int
  name : String
  /-- The name in the code. -/
  asmName : String
  kind : SlotKind
  scope : String
  type : ValueType
  /-- The number of elements of an array. -/
  size : Nat := 1
  /-- What the cell holds before the contract runs, in hexadecimal digits. -/
  contents : Option String := none
  offset : Option Offset := none
  deriving DecidableEq, Repr

namespace Slot

/-- The address of what has no cell of its own. -/
def nowhere : Int := -1

/-- The scope of what is declared outside of functions. -/
def globalScope : String := "global"

/-- A slot that is not yet stored. -/
def fresh (name asmName : String) (kind : SlotKind) (scope : String) (type : ValueType) : Slot :=
  ⟨nowhere, name, asmName, kind, scope, type, 1, none, none⟩

/-- A number written in the source. -/
def literal (value : Word) : Slot :=
  { fresh "" "" .constant globalScope .long with contents := some value.toHex }

def constant? (s : Slot) : Option Word :=
  if s.kind = .constant then s.contents.bind Word.ofHex? else none

def literal? (s : Slot) : Option Word :=
  if s.address = nowhere then s.constant? else none

/-- The slot stands for its own cell. -/
def isDirect (s : Slot) : Bool := s.offset.isNone

/-- The contents are fixed before the contract runs. -/
def isFrozen (s : Slot) : Bool := s.contents.isSome

/-- The cell at a distance from the address that `s` holds. -/
def withOffset (s : Slot) (offset : Offset) (type : ValueType) : Slot :=
  { s with offset := some offset, type := type }

/-- Both slots stand for one and the same cell of their own. -/
def sameLocation (s t : Slot) : Bool :=
  s.address != nowhere && s.address == t.address && s.isDirect && t.isDirect

end Slot

end ContractCompiler
