import ContractCompiler.Slot

/-!
# SlotTable — the memory of a contract

The table lists the slots in the order in which they were stored and gives each one the next address,
struct variables apart. It also knows the members of every struct.
-/

namespace ContractCompiler

set_option autoImplicit false

structure Member where
  name : String
  type : ValueType
  deriving DecidableEq, Repr

/-- The position and the type of the member of that name. -/
def Member.find? (name : String) : List Member → Option (Nat × ValueType)
  | [] => none
  | m :: rest =>
    if m.name = name then some (0, m.type)
    else (Member.find? name rest).map fun (position, type) => (position + 1, type)

structure SlotTable where
  slots : List Slot := []
  /-- The next address to be given. -/
  next : Nat := 0
  structs : List (String × List Member) := []
  deriving DecidableEq, Repr

namespace SlotTable

/-- The slot as it is stored next. -/
def place (t : SlotTable) (s : Slot) : Slot :=
  if s.kind = .struct then s else { s with address := t.next }

def push (t : SlotTable) (s : Slot) : SlotTable :=
  { t with
    slots := t.slots ++ [t.place s]
    next := if s.kind = .struct then t.next else t.next + 1 }

def get? (t : SlotTable) (address : Int) : Option Slot :=
  if address = Slot.nowhere then none else t.slots.find? (·.address == address)

def find? (t : SlotTable) (asmName : String) : Option Slot :=
  t.slots.find? (·.asmName == asmName)

/-- The variable of that name in a scope. -/
def inScope? (t : SlotTable) (name scope : String) : Option Slot :=
  t.slots.find? fun s => s.name == name && s.kind != .register && s.scope == scope

/-- The variable that a name means in a function, or outside of functions. Local names hide global
ones. -/
def lookup? (t : SlotTable) (name : String) (function : Option String) : Option Slot :=
  (function.bind (t.inScope? name)).or (t.inScope? name Slot.globalScope)

/-- The name in the code of a constant kept in memory. -/
def constantName (value : Word) : String := "n" ++ toString value.toNat

def interned? (t : SlotTable) (value : Word) : Option Slot :=
  t.slots.find? fun s =>
    s.kind == .constant && s.asmName == constantName value && s.contents == some value.toHex

def internedCount (t : SlotTable) : Nat :=
  t.slots.countP (·.kind == .constant)

/-- The slot that keeps a constant, made if there are fewer than `ceiling` and its name is free. Zero
is never kept. -/
def intern (t : SlotTable) (value : Word) (ceiling : Nat) : SlotTable × Option Slot :=
  if value = 0 then (t, none)
  else
    match t.interned? value with
    | some s => (t, some s)
    | none =>
      if ceiling ≤ t.internedCount || (t.find? (constantName value)).isSome then (t, none)
      else
        let s := { Slot.literal value with asmName := constantName value }
        (t.push s, some (t.place s))

/-- Changes the first slot that satisfies `p`. -/
def modifyFirst (p : Slot → Bool) (f : Slot → Slot) : List Slot → List Slot
  | [] => []
  | s :: rest => if p s then f s :: rest else s :: modifyFirst p f rest

/-- Fixes the contents of the slot of that name in the code. -/
def setContents (t : SlotTable) (asmName : String) (contents : Option String) : SlotTable :=
  { t with slots := modifyFirst (·.asmName == asmName) ({ · with contents := contents }) t.slots }

def members? (t : SlotTable) (tag : String) : Option (List Member) := t.structs.lookup tag

/-- Defines a struct unless its tag is taken. -/
def defineStruct? (t : SlotTable) (tag : String) (members : List Member) : Option SlotTable :=
  match t.members? tag with
  | some _ => none
  | none => some { t with structs := t.structs ++ [(tag, members)] }

def registerName (number : Nat) : String := "r" ++ toString number

/-- A table that holds nothing but registers. -/
def ofRegisters (count : Nat) : SlotTable :=
  (List.range count).foldl
    (fun t number =>
      t.push (Slot.fresh (registerName number) (registerName number) .register Slot.globalScope .long))
    {}

end SlotTable

end ContractCompiler
