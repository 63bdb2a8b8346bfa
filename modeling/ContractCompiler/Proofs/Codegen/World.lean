import ContractCompiler.Proofs.Accessible

/-!
# Proofs.Codegen.World — what the code of an action is held to

A `World` says what an action may do: the lines that it may be refused at, the names that its lines may
have as operands, and whether a refusal has to be the fault of the contract. Names and cells are those of
the table that is there when the action is over, so that what is known of a slot stays true while tables
grow. `World.Cell` and `World.Reads` say of a slot that a line may name it and that it may be read,
`World.Fits` says of a node that it may be compiled.
-/

namespace ContractCompiler

set_option autoImplicit false

/-! ## Lines of nodes -/

namespace Node

variable (inside : Nat → Prop)

mutual

def Within : Node → Prop
  | slot _ line => inside line
  | deref base _ line => inside line ∧ base.Within
  | lookup base index _ line => inside line ∧ base.Within ∧ index.Within
  | assign _ target value line => inside line ∧ target.Within ∧ value.Within
  | binary _ left right line => inside line ∧ left.Within ∧ right.Within
  | unary _ operand line => inside line ∧ operand.Within
  | compare _ left right line => inside line ∧ left.Within ∧ right.Within
  | logic _ left right line => inside line ∧ left.Within ∧ right.Within
  | ternary condition yes no line => inside line ∧ condition.Within ∧ yes.Within ∧ no.Within
  | call _ args _ line => inside line ∧ AllWithin args
  | host _ args line => inside line ∧ AllWithin args

def AllWithin : List Node → Prop
  | [] => True
  | n :: rest => n.Within ∧ AllWithin rest

end

variable {inside}

theorem Within.line {n : Node} (within : n.Within inside) : inside n.line := by
  cases n with
  | slot _ _ => exact within
  | _ => exact within.1

theorem allWithin_iff {ns : List Node} : AllWithin inside ns ↔ ∀ n ∈ ns, n.Within inside := by
  induction ns with
  | nil => simp [AllWithin]
  | cons n rest ih => simp [AllWithin, ih]

theorem within_true (n : Node) : n.Within fun _ => True := by
  induction n with
  | slot _ _ => trivial
  | _ => simp_all [Within, allWithin_iff]

/-- The node may be compiled with a table: its names are those of cells, and it is sound if that counts. -/
structure Ready (strict : Prop) (t : SlotTable) (n : Node) : Prop where
  named : n.IsNamed t
  sound : strict → n.Sound t

theorem Ready.mono {strict : Prop} {t t' : SlotTable} {n : Node} (ready : n.Ready strict t)
    (derives : t.Derives t') : n.Ready strict t' :=
  ⟨ready.named.mono derives, fun isStrict => (ready.sound isStrict).mono derives.grows⟩

end Node

namespace Command

def Within (inside : Nat → Prop) : Command → Prop
  | value node => node.Within inside
  | control _ operand line => inside line ∧ ∀ n ∈ operand, n.Within inside

theorem within_true : (c : Command) → c.Within fun _ => True
  | value node => node.within_true
  | control _ _ _ => ⟨trivial, fun n _ => n.within_true⟩

theorem Within.line {inside : Nat → Prop} {c : Command} (within : c.Within inside) : inside c.line := by
  cases c with
  | value _ => exact Node.Within.line within
  | control _ _ _ => exact within.1

end Command

/-! ## Worlds -/

/-- What an action may do. -/
structure World where
  /-- The lines that it may be refused at. -/
  inside : Nat → Prop
  /-- The table at its end. -/
  table : SlotTable
  /-- The cells that its lines may name. -/
  names : String → Prop
  /-- It may not be refused for a defect. -/
  strict : Prop
  valid : table.Valid
  own : ∀ s ∈ table.slots, s.kind = .register ∨ s.kind = .constant → names s.asmName
  total : ¬ strict → ∀ s ∈ table.slots, s.kind ≠ .struct → names s.asmName

/-- The cells whose names are used where a slot is read or written. -/
def Slot.touches (s : Slot) : List Int :=
  s.address :: match s.offset with
    | none => []
    | some (.dynamic a) => [a]
    | some (.fixed index) =>
      if s.kind = .array then
        (s.contents.bind Word.ofHex?).toList.map fun first => Word.toSigned (first + index)
      else []

namespace World

variable {W : World} {u : SlotTable} {s e r : Slot} {a : Int} {d d' : Nat} {n : Node}

/-- Only the lines count. -/
def ofLines (inside : Nat → Prop) : World where
  inside := inside
  table := {}
  names _ := True
  strict := False
  valid := by decide
  own _ _ _ := trivial
  total _ _ _ _ := trivial

/-- All is allowed. -/
abbrev free : World := ofLines fun _ => True

/-- The names of all the cells of a table may be used. -/
def ofTable (t : SlotTable) (valid : t.Valid) (strict : Prop) : World where
  inside _ := True
  table := t
  names := t.HasName
  strict := strict
  valid := valid
  own s stored kind := ⟨s, stored, by rcases kind with kind | kind <;> simp [kind], rfl⟩
  total _ s stored hasCell := ⟨s, stored, hasCell, rfl⟩

/-- The cell at the address may be named. -/
def At (W : World) (a : Int) : Prop :=
  ∀ e ∈ W.table.slots, e.kind ≠ .struct → e.address = a → W.names e.asmName

theorem at_any (loose : ¬ W.strict) (a : Int) : W.At a :=
  fun e stored hasCell _ => W.total loose e stored hasCell

/-- A table on the way. -/
structure Known (W : World) (u : SlotTable) : Prop where
  valid : u.Valid
  derives : u.Derives W.table

/-- What the slot at an address is called. -/
theorem At.names (here : W.At a) (known : W.Known u) (found : u.get? a = some e) : W.names e.asmName := by
  obtain ⟨stored, address, somewhere⟩ := SlotTable.Valid.get?_eq_some found
  obtain ⟨e', stored', becomes⟩ := known.derives.grows.slots e stored
  have hasCell := known.valid.kind_ne_struct stored (address ▸ somewhere)
  have named := here e' stored' (becomes.kind ▸ hasCell) (becomes.address.trans address)
  rwa [becomes.asmName] at named

/-! ## Slots -/

/-- A cell that a line may name. -/
structure Cell (W : World) (s : Slot) : Prop where
  direct : s.offset = none
  named : W.names s.asmName
  here : W.At s.address
  rooted : W.strict → s.Rooted W.table

/-- A register that a line may name. -/
def Register (W : World) (r : Slot) : Prop := W.Cell r ∧ r.kind = .register

/-- The names that are used for the slot are allowed. -/
structure Named (W : World) (s : Slot) : Prop where
  named : s.literal?.isSome = true ∨ W.names s.asmName
  touched : ∀ a ∈ s.touches, W.At a

structure Reads (W : World) (s : Slot) : Prop extends Named W s where
  accessible : W.strict → s.Accessible W.table

structure Writes (W : World) (s : Slot) : Prop extends Reads W s where
  writable : W.strict → s.isUnwritable = false

/-- The cell that a slot is brought into. It can be written if the slot can. -/
structure Stands (W : World) (s e : Slot) : Prop extends Cell W e where
  writable : W.strict → s.isUnwritable = false → e.isUnwritable = false
  notConstant : W.strict → s.kind ≠ .constant → e.kind ≠ .constant

/-- The names that a place is read and written under. -/
def Placed (W : World) (s : Slot) : Place → Prop
  | .direct e => W.Stands s e
  | .indirect base offset _ => W.names base ∧ ∀ name ∈ offset.toList, W.names name

theorem Known.cell (known : W.Known u) (stored : s ∈ u.slots) (hasCell : s.kind ≠ .struct)
    (notArray : s.kind ≠ .array) (named : W.names s.asmName) : W.Cell s where
  direct := known.valid.direct s stored
  named := named
  here e storedE hasCellE same := by
    obtain ⟨s', stored', becomes⟩ := known.derives.grows.slots s stored
    obtain rfl := W.valid.eq_of_address storedE hasCellE stored' (becomes.kind ▸ hasCell)
      (same.trans becomes.address.symm)
    rwa [becomes.asmName]
  rooted _ := (Slot.Rooted.of_mem stored hasCell fun array => absurd array notArray).mono known.derives.grows

/-- Registers and constants may always be named. -/
theorem Known.own (known : W.Known u) (stored : s ∈ u.slots)
    (kind : s.kind = .register ∨ s.kind = .constant) : W.Cell s := by
  obtain ⟨s', stored', becomes⟩ := known.derives.grows.slots s stored
  have named : W.names s.asmName := becomes.asmName ▸ W.own s' stored' (becomes.kind ▸ kind)
  refine known.cell stored ?_ ?_ named <;> rcases kind with kind | kind <;> simp [kind]

theorem Cell.reads (cell : W.Cell s) : W.Reads s where
  named := .inr cell.named
  touched := by simpa [Slot.touches, cell.direct] using cell.here
  accessible isStrict := .of_direct (cell.rooted isStrict) cell.direct

theorem Register.writes (register : W.Register r) : W.Writes r :=
  ⟨register.1.reads, fun _ => by simp [Slot.isUnwritable, register.2]⟩

/-- A cell of its own, in place of any slot. -/
theorem Cell.stands (cell : W.Cell e) (kind : e.kind = .long ∨ e.kind = .register) : W.Stands s e := by
  refine ⟨cell, fun _ _ => ?_, fun _ _ => ?_⟩
  · rcases kind with kind | kind <;> simp [Slot.isUnwritable, kind]
  · rcases kind with kind | kind <;> simp [kind]

theorem Register.stands (register : W.Register r) : W.Stands s r := register.1.stands (.inr register.2)

namespace Reads

theorem literal (value : Word) : W.Reads (.literal value) where
  named := .inl (by simp [Slot.literal, Slot.literal?, Slot.constant?, Slot.fresh, Word.ofHex?_toHex])
  touched := by
    intro a touched e stored hasCell address
    have nowhere : a = Slot.nowhere := by simpa [Slot.touches, Slot.literal, Slot.fresh] using touched
    exact absurd (address.trans nowhere) (W.valid.address_ne_nowhere stored hasCell)
  accessible _ := .literal value

theorem name (reads : W.Reads s) (notLiteral : s.literal? = none) : W.names s.asmName :=
  reads.named.resolve_left (by simp [notLiteral])

theorem rooted (reads : W.Reads s) (notLiteral : s.literal? = none) (isStrict : W.strict) :
    s.Rooted W.table := (reads.accessible isStrict).rooted notLiteral

/-- What can be read at a distance is no constant, and the distance is there. -/
theorem view (reads : W.Reads s) (notLiteral : s.literal? = none) (isStrict : W.strict) {offset : Offset}
    (isView : s.offset = some offset) : s.kind ≠ .constant ∧ offset.Inside W.table s := by
  rcases reads.accessible isStrict with ⟨isLiteral, -⟩ | ⟨-, view⟩
  · simp [notLiteral] at isLiteral
  · exact view offset isView

theorem retype (reads : W.Reads s) (type : ValueType) : W.Reads { s with type := type } :=
  ⟨⟨reads.named, reads.touched⟩, fun isStrict => (reads.accessible isStrict).retype type⟩

/-- A register that is held with a slot is the slot, if they share their address. -/
theorem kind_of_held (reads : W.Reads s) (isStrict : W.strict) (register : W.Register r)
    (same : r.address = s.address) : s.kind = .register := by
  obtain ⟨x, storedX, hasCellX, addressX, -, kindX⟩ := (register.1.rooted isStrict).cell
  rcases reads.accessible isStrict with ⟨isLiteral, -⟩ | ⟨rooted, -⟩
  · have nowhere := (Slot.kind_of_literal? isLiteral).2
    exact absurd (addressX.trans (same.trans nowhere)) (W.valid.address_ne_nowhere storedX hasCellX)
  · obtain ⟨e, storedE, hasCellE, addressE, -, kindE⟩ := rooted.cell
    obtain rfl := W.valid.eq_of_address storedE hasCellE storedX hasCellX
      (addressE.trans (same.symm.trans addressX.symm))
    exact kindE.symm.trans (kindX.trans register.2)

end Reads

/-! ## Values -/

/-- What the code of a node gives. -/
structure Value (W : World) (n : Node) (o : Operand) : Prop extends Reads W o.slot where
  cell : W.strict → n.IsCell → o.slot.isUnwritable = false
  base : W.strict → n.IsBase → o.slot.kind ≠ .constant

theorem Writes.value {o : Operand} (writes : W.Writes o.slot) : W.Value n o :=
  ⟨writes.toReads, fun isStrict _ => writes.writable isStrict,
    fun isStrict _ => Slot.kind_ne_constant (writes.writable isStrict)⟩

/-- A value in a register of its own can be overwritten. -/
theorem Reads.writes_of_isTemp {o : Operand} (reads : W.Reads o.slot) (held : ∀ r ∈ o.holds, W.Register r)
    (isTemp : o.isTemp = true) : W.Writes o.slot := by
  refine ⟨reads, fun isStrict => ?_⟩
  simp only [Operand.isTemp, Bool.and_eq_true, List.any_eq_true, beq_iff_eq] at isTemp
  obtain ⟨-, r, mem, same⟩ := isTemp
  simp [Slot.isUnwritable, reads.kind_of_held isStrict (held r mem) same]

/-- A view of a cell that is brought in. -/
theorem Stands.view {offset : Offset} {type : ValueType} {holds : List Slot} (stands : W.Stands s e)
    (isBase : W.strict → s.kind ≠ .constant) (inside : W.strict → offset.Inside W.table e)
    (touched : ∀ a ∈ (e.withOffset offset type).touches, W.At a) :
    W.Value n ⟨e.withOffset offset type, holds⟩ := by
  refine Writes.value ⟨⟨⟨.inr stands.named, touched⟩, fun isStrict => ?_⟩, fun isStrict => ?_⟩
  · exact .view (stands.rooted isStrict) (stands.notConstant isStrict (isBase isStrict)) (inside isStrict) type
  · have notConstant := stands.notConstant isStrict (isBase isStrict)
    have notStruct := (stands.rooted isStrict).kind_ne_struct
    simp [Slot.isUnwritable, Slot.withOffset, Slot.isDirect, notConstant, notStruct]

/-- A view at a distance in a cell. -/
theorem Stands.dynamic {type : ValueType} {holds : List Slot} {i : Slot} (stands : W.Stands s e)
    (isBase : W.strict → s.kind ≠ .constant) (cell : W.Cell i) :
    W.Value n ⟨e.withOffset (.dynamic i.address) type, holds⟩ := by
  refine stands.view isBase (fun isStrict => (cell.rooted isStrict).hasCell) ?_
  simpa [Slot.touches, Slot.withOffset] using ⟨stands.here, cell.here⟩

/-- A view at a fixed distance from a cell that can be written to. -/
theorem Stands.fixed {type : ValueType} {holds : List Slot} (stands : W.Stands s e)
    (writable : W.strict → s.isUnwritable = false) (distance : Word) :
    W.Value n ⟨e.withOffset (.fixed distance) type, holds⟩ := by
  have notArray : W.strict → e.kind ≠ .array := by
    intro isStrict array
    have := stands.writable isStrict (writable isStrict)
    simp [Slot.isUnwritable, array, Slot.isDirect, stands.direct] at this
  refine stands.view (fun isStrict => Slot.kind_ne_constant (writable isStrict))
    (fun isStrict array => absurd array (notArray isStrict)) fun a touched => ?_
  by_cases isStrict : W.strict
  · obtain rfl : a = e.address := by
      simpa [Slot.touches, Slot.withOffset, notArray isStrict] using touched
    exact stands.here
  · exact at_any isStrict a

/-! ## Nodes -/

/-- The node may be compiled where steps after a use are nested no deeper than `d`. -/
structure Fits (W : World) (d : Nat) (n : Node) : Prop where
  within : n.Within W.inside
  named : ∀ s ∈ n.slots, W.Named s
  sound : W.strict → n.Sound W.table
  depth : W.strict → n.postDepth ≤ d

/-- The target of a step may be evaluated later, where such steps are nested less deep than `d`. -/
def Later (W : World) (d : Nat) (n : Node) : Prop := W.Fits n.postDepth n ∧ (W.strict → n.postDepth < d)

theorem Later.mono (later : W.Later d' n) (le : W.strict → d' ≤ d) : W.Later d n :=
  ⟨later.1, fun isStrict => Nat.lt_of_lt_of_le (later.2 isStrict) (le isStrict)⟩

section Lines

variable {inside : Nat → Prop}

theorem reads_ofLines (s : Slot) : (ofLines inside).Reads s :=
  ⟨⟨.inr trivial, fun a _ => at_any id a⟩, False.elim⟩

/-- Where only the lines count. -/
theorem fits_ofLines (d : Nat) (within : n.Within inside) : (ofLines inside).Fits d n :=
  ⟨within, fun s _ => (reads_ofLines s).toNamed, False.elim, False.elim⟩

theorem free_fits (d : Nat) (n : Node) : free.Fits d n := fits_ofLines d n.within_true

theorem free_later (d : Nat) (n : Node) : free.Later d n := ⟨free_fits _ n, False.elim⟩

end Lines

namespace Fits

theorem deeper (fits : W.Fits d n) (depth : W.strict → n.postDepth ≤ d') : W.Fits d' n :=
  { fits with depth := depth }

theorem line (fits : W.Fits d n) : W.inside n.line := fits.within.line

/-- The operands of a node with two of them. -/
theorem pair {left right : Node} (fits : W.Fits d n) (slots : n.slots = left.slots ++ right.slots)
    (depth : n.postDepth = max left.postDepth right.postDepth)
    (within : left.Within W.inside ∧ right.Within W.inside)
    (sound : W.strict → left.Sound W.table ∧ right.Sound W.table) : W.Fits d left ∧ W.Fits d right := by
  have named := fits.named
  rw [slots, List.forall_mem_append] at named
  have below := fun isStrict => Nat.max_le.1 (depth ▸ fits.depth isStrict)
  exact ⟨⟨within.1, named.1, fun isStrict => (sound isStrict).1, fun isStrict => (below isStrict).1⟩,
    ⟨within.2, named.2, fun isStrict => (sound isStrict).2, fun isStrict => (below isStrict).2⟩⟩

end Fits

/-- Where the table counts. -/
theorem fits_ofTable {t : SlotTable} {valid : t.Valid} {strict : Prop} :
    (ofTable t valid strict).Fits d n ↔ n.Ready strict t ∧ (strict → n.postDepth ≤ d) := by
  constructor
  · intro fits
    exact ⟨⟨fun s mem => (fits.named s mem).named, fits.sound⟩, fits.depth⟩
  · rintro ⟨ready, depth⟩
    refine ⟨?_, fun s mem => ⟨ready.named s mem, ?_⟩, ready.sound, depth⟩
    · exact n.within_true
    · exact fun a _ e stored hasCell _ => ⟨e, stored, hasCell, rfl⟩

/-! ## Bound phrases -/

/-- The bound phrase may be compiled. -/
def Admits (W : World) (d : Nat) : Command → Prop
  | .value node => W.Fits d node
  | .control word operand line => W.inside line ∧ (∀ n ∈ operand, W.Fits d n) ∧
      (W.strict → word = .sleep → operand.isSome = true)

theorem Admits.line {c : Command} (admits : W.Admits d c) : W.inside c.line := by
  cases c with
  | value _ => exact Fits.line admits
  | control _ _ _ => exact admits.1

theorem admits_ofLines {inside : Nat → Prop} {c : Command} (within : c.Within inside) :
    (ofLines inside).Admits d c := by
  cases c with
  | value _ => exact fits_ofLines d within
  | control _ _ _ => exact ⟨within.1, fun n mem => fits_ofLines d (within.2 n mem), False.elim⟩

theorem free_admits (d : Nat) (c : Command) : free.Admits d c := admits_ofLines c.within_true

end World

end ContractCompiler
