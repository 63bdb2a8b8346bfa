import ContractCompiler.Codegen.Node
import ContractCompiler.Proofs.Codegen.Select
import ContractCompiler.Proofs.Derives
import ContractCompiler.Proofs.Node

/-!
# Proofs.Accessible — slots that code can be made for

An operand of a line is the name of a cell that the table has (`SlotTable.HasName`). What the stages promise
each other about the table is `SlotTable.Complete`: constants have values, arrays have their elements, and
struct variables their members. A slot is accessible if
it is a literal, or has a cell in the table and, as a view, a place to start from and a distance that is
there. Later tables keep it accessible, whatever contents are fixed in them. A node is sound if its slots
are accessible, what it dereferences or indexes is an address, and what it changes can be written to.
-/

namespace ContractCompiler

set_option autoImplicit false

/-! ## Operands of lines -/

/-- The names of cells that a line reads or writes. -/
def Instr.operands : Instr → List String
  | constSet dest _ => [dest]
  | setLiteral dest _ => [dest]
  | set dest src => [dest, src]
  | clear dest => [dest]
  | increment dest => [dest]
  | decrement dest => [dest]
  | complement dest => [dest]
  | binary _ dest src => [dest, src]
  | load dest base offset => dest :: base :: offset.toList
  | store base offset src => base :: src :: offset.toList
  | branchZero src _ => [src]
  | branchNonzero src _ => [src]
  | branch _ left right _ => [left, right]
  | push src => [src]
  | pop dest => [dest]
  | sleep src => [src]
  | host result _ args => result.toList ++ args
  | program _ _ | declare _ | comment _ | label _ | jump _ | call _ | ret | finish | stop
  | resetStart => []

/-- The cell that a line declares. -/
def Instr.declared? : Instr → Option String
  | declare name => some name
  | _ => none

def Instr.declared (code : List Instr) : List String := code.filterMap declared?

theorem Instr.declared_append (code rest : List Instr) :
    declared (code ++ rest) = declared code ++ declared rest := List.filterMap_append

/-- The line is run: it declares nothing and fixes nothing. It is legible. -/
def Instr.isCode : Instr → Bool
  | program _ _ | declare _ | constSet _ _ => false
  | i => i.isLegible

theorem Instr.isLegible_of_isCode {i : Instr} (isCode : i.isCode = true) : i.isLegible = true := by
  cases i <;> first | rfl | exact isCode | cases isCode

theorem Instr.fixed?_of_isCode {i : Instr} (isCode : i.isCode = true) : i.fixed? = none := by
  cases i with
  | constSet _ _ => cases isCode
  | _ => rfl

theorem Instr.declared?_of_isCode {i : Instr} (isCode : i.isCode = true) : i.declared? = none := by
  cases i with
  | declare _ => cases isCode
  | _ => rfl

/-! ## Names of cells -/

/-- The table has a cell of that name. Struct variables have none. -/
def SlotTable.HasName (t : SlotTable) (name : String) : Prop :=
  ∃ s ∈ t.slots, s.kind ≠ .struct ∧ s.asmName = name

theorem SlotTable.HasName.mono {t t' : SlotTable} {name : String} (has : t.HasName name)
    (derives : t.Derives t') : t'.HasName name := by
  obtain ⟨s, stored, hasCell, same⟩ := has
  obtain ⟨s', stored', becomes⟩ := derives.grows.slots s stored
  exact ⟨s', stored', becomes.kind ▸ hasCell, becomes.asmName.trans same⟩

/-- The slot is a literal, or a cell of the table or a view that starts from one. -/
def Slot.IsNamed (t : SlotTable) (s : Slot) : Prop :=
  s.literal?.isSome = true ∨ t.HasName s.asmName

namespace Slot.IsNamed

variable {t t' : SlotTable} {s : Slot}

theorem mono (named : s.IsNamed t) (derives : t.Derives t') : s.IsNamed t' :=
  named.imp_right fun has => has.mono derives

theorem hasName (named : s.IsNamed t) (notLiteral : s.literal? = none) : t.HasName s.asmName := by
  rcases named with isLiteral | has
  · simp [notLiteral] at isLiteral
  · exact has

theorem literal (value : Word) : (Slot.literal value).IsNamed t :=
  .inl (by simp [Slot.literal, literal?, constant?, fresh, Word.ofHex?_toHex])

end Slot.IsNamed

namespace Node

mutual

def slots : Node → List Slot
  | slot s _ => [s]
  | deref base _ _ => base.slots
  | lookup base index _ _ => base.slots ++ index.slots
  | assign _ target value _ => target.slots ++ value.slots
  | binary _ left right _ => left.slots ++ right.slots
  | unary _ operand _ => operand.slots
  | compare _ left right _ => left.slots ++ right.slots
  | logic _ left right _ => left.slots ++ right.slots
  | ternary condition yes no _ => condition.slots ++ (yes.slots ++ no.slots)
  | call _ args _ _ => allSlots args
  | host _ args _ => allSlots args

def allSlots : List Node → List Slot
  | [] => []
  | n :: rest => n.slots ++ allSlots rest

end

/-- The slots of the node are literals, or have their names in the table. -/
def IsNamed (t : SlotTable) (n : Node) : Prop := ∀ s ∈ n.slots, s.IsNamed t

theorem IsNamed.mono {t t' : SlotTable} {n : Node} (named : n.IsNamed t) (derives : t.Derives t') :
    n.IsNamed t' := fun s mem => (named s mem).mono derives

end Node

/-! ## Complete tables -/

namespace SlotTable

variable {t t' : SlotTable} {s : Slot}

theorem find?_isSome {name : String} :
    (t.find? name).isSome = true ↔ ∃ s ∈ t.slots, s.asmName = name := by
  simp [find?]

theorem Grows.find?_isSome (grows : t.Grows t') {name : String}
    (found : (t.find? name).isSome = true) : (t'.find? name).isSome = true := by
  obtain ⟨s, stored, same⟩ := SlotTable.find?_isSome.1 found
  obtain ⟨s', stored', becomes⟩ := grows.slots s stored
  exact SlotTable.find?_isSome.2 ⟨s', stored', becomes.asmName.trans same⟩

/-- The slots of the elements of an array, which holds the address of the first. -/
def ElementsOf (t : SlotTable) (s : Slot) (first : Word) : Prop :=
  s.contents.bind Word.ofHex? = some first ∧ ∀ index : Word, index.toNat < s.size →
    ∃ e ∈ t.slots, e.kind = .long ∧ e.scope = s.scope ∧ e.address = Word.toSigned (first + index)

theorem ElementsOf.mono {first : Word} (elements : t.ElementsOf s first) (grows : t.Grows t') :
    t'.ElementsOf s first := by
  refine ⟨elements.1, fun index inside => ?_⟩
  obtain ⟨e, stored, long, scope, address⟩ := elements.2 index inside
  obtain ⟨e', stored', becomes⟩ := grows.slots e stored
  exact ⟨e', stored', becomes.kind.trans long, becomes.scope.trans scope,
    becomes.address.trans address⟩

theorem ElementsOf.becomes {first : Word} {s' : Slot} (elements : t.ElementsOf s first)
    (becomes : s.Becomes s') : t.ElementsOf s' first := by
  obtain ⟨hex, contents, isWord⟩ := Option.bind_eq_some_iff.1 elements.1
  refine ⟨by rw [becomes.kept hex contents]; exact isWord, fun index inside => ?_⟩
  rw [becomes.scope]
  exact elements.2 index (becomes.size ▸ inside)

/-- All that names are bound to is there. -/
structure Complete (t : SlotTable) : Prop where
  valid : t.Valid
  constants : ∀ s ∈ t.slots, s.kind = .constant → s.contents.isSome = true
  arrays : ∀ s ∈ t.slots, s.kind = .array → ∃ first, t.ElementsOf s first
  structVariables : ∀ s ∈ t.slots, s.kind = .struct → t.HasMembers s

/-- A table with fixed contents and more constants. -/
theorem Complete.derives (complete : t.Complete) (derives : t.Derives t') (valid : t'.Valid) :
    t'.Complete where
  valid := valid
  constants s stored constant := by
    rcases derives.origin s stored with ⟨s₀, stored₀, becomes⟩ | ⟨value, -, -, contents⟩
    · exact becomes.contents_isSome (complete.constants s₀ stored₀ (becomes.kind ▸ constant))
    · simp [contents]
  arrays s stored array := by
    rcases derives.origin s stored with ⟨s₀, stored₀, becomes⟩ | kept
    · obtain ⟨first, elements⟩ := complete.arrays s₀ stored₀ (becomes.kind ▸ array)
      exact ⟨first, (elements.becomes becomes).mono derives.grows⟩
    · simp [kept.kind] at array
  structVariables s stored isStruct := derives.hasMembers complete.structVariables stored isStruct

theorem Complete.setContents (complete : t.Complete) {name : String} (found : t.find? name = some s)
    (notRegister : s.kind ≠ .register) (unset : s.contents = none) (contents : Option String) :
    (t.setContents name contents).Complete :=
  complete.derives (.setContents complete.valid found notRegister unset contents)
    (complete.valid.setContents name contents)

end SlotTable

/-! ## Accessible slots -/

namespace SlotTable

variable {t t' : SlotTable} {a : Int}

/-- The table has a cell at the address. -/
def HasCell (t : SlotTable) (a : Int) : Prop := ∃ e ∈ t.slots, e.kind ≠ .struct ∧ e.address = a

theorem HasCell.mono (has : t.HasCell a) (grows : t.Grows t') : t'.HasCell a := by
  obtain ⟨e, stored, hasCell, address⟩ := has
  obtain ⟨e', stored', becomes⟩ := grows.slots e stored
  exact ⟨e', stored', becomes.kind ▸ hasCell, becomes.address.trans address⟩

theorem HasCell.get? (has : t.HasCell a) (valid : t.Valid) : ∃ e, t.get? a = some e := by
  obtain ⟨e, stored, hasCell, rfl⟩ := has
  exact ⟨e, valid.get?_address stored hasCell⟩

end SlotTable

namespace Slot

variable {t t' : SlotTable} {s e : Slot}

/-- The table has the cell of the slot, and the elements if it is an array. The contents that the slot
was seen with may be older than those in the table. -/
structure Rooted (t : SlotTable) (s : Slot) : Prop where
  cell : ∃ e ∈ t.slots, e.kind ≠ .struct ∧ e.address = s.address ∧ e.asmName = s.asmName ∧
    e.kind = s.kind
  elements : s.kind = .array → ∃ first, t.ElementsOf s first

namespace Rooted

theorem of_mem (stored : s ∈ t.slots) (hasCell : s.kind ≠ .struct)
    (elements : s.kind = .array → ∃ first, t.ElementsOf s first) : s.Rooted t :=
  ⟨⟨s, stored, hasCell, rfl, rfl, rfl⟩, elements⟩

theorem mono (rooted : s.Rooted t) (grows : t.Grows t') : s.Rooted t' where
  cell := by
    obtain ⟨e, stored, hasCell, address, asmName, kind⟩ := rooted.cell
    obtain ⟨e', stored', becomes⟩ := grows.slots e stored
    exact ⟨e', stored', becomes.kind ▸ hasCell, becomes.address.trans address,
      becomes.asmName.trans asmName, becomes.kind.trans kind⟩
  elements array := by
    obtain ⟨first, elements⟩ := rooted.elements array
    exact ⟨first, elements.mono grows⟩

theorem withOffset (rooted : s.Rooted t) (offset : Offset) (type : ValueType) :
    (s.withOffset offset type).Rooted t :=
  ⟨rooted.cell, rooted.elements⟩

theorem hasCell (rooted : s.Rooted t) : t.HasCell s.address := by
  obtain ⟨e, stored, hasCell, address, -⟩ := rooted.cell
  exact ⟨e, stored, hasCell, address⟩

theorem kind_ne_struct (rooted : s.Rooted t) : s.kind ≠ .struct := by
  obtain ⟨e, -, hasCell, -, -, kind⟩ := rooted.cell
  exact kind ▸ hasCell

theorem somewhere (rooted : s.Rooted t) (valid : t.Valid) : s.address ≠ nowhere := by
  obtain ⟨e, stored, hasCell, address, -⟩ := rooted.cell
  exact address ▸ valid.address_ne_nowhere stored hasCell

end Rooted

end Slot

/-- The distance of a view is there: in a cell, or inside the array. -/
def Offset.Inside (t : SlotTable) (s : Slot) : Offset → Prop
  | .dynamic a => t.HasCell a
  | .fixed index => s.kind = .array → index.toNat < s.size

namespace Slot

variable {t t' : SlotTable} {s e : Slot}

/-- A slot that code can always be made for. -/
def Accessible (t : SlotTable) (s : Slot) : Prop :=
  s.literal?.isSome = true ∧ s.offset = none ∨
    s.Rooted t ∧ ∀ offset, s.offset = some offset → s.kind ≠ .constant ∧ offset.Inside t s

namespace Accessible

theorem of_direct (rooted : s.Rooted t) (direct : s.offset = none) : s.Accessible t :=
  .inr ⟨rooted, by simp [direct]⟩

theorem view {offset : Offset} (rooted : s.Rooted t) (notConstant : s.kind ≠ .constant)
    (inside : offset.Inside t s) (type : ValueType) : (s.withOffset offset type).Accessible t := by
  refine .inr ⟨rooted.withOffset offset type, fun offset' same => ⟨notConstant, ?_⟩⟩
  obtain rfl : offset = offset' := Option.some.inj same
  cases offset <;> exact inside

theorem mono (accessible : s.Accessible t) (grows : t.Grows t') : s.Accessible t' := by
  refine accessible.imp_right fun ⟨rooted, view⟩ => ⟨rooted.mono grows, fun offset isView => ?_⟩
  obtain ⟨notConstant, inside⟩ := view offset isView
  refine ⟨notConstant, ?_⟩
  cases offset with
  | dynamic a => exact SlotTable.HasCell.mono inside grows
  | fixed index => exact inside

/-- What is no literal has a cell. -/
theorem rooted (accessible : s.Accessible t) (notLiteral : s.literal? = none) : s.Rooted t := by
  rcases accessible with ⟨isLiteral, -⟩ | ⟨rooted, -⟩
  · simp [notLiteral] at isLiteral
  · exact rooted

theorem isNamed (accessible : s.Accessible t) : s.IsNamed t := by
  rcases accessible with ⟨isLiteral, -⟩ | ⟨rooted, -⟩
  · exact .inl isLiteral
  · obtain ⟨e, stored, hasCell, -, asmName, -⟩ := rooted.cell
    exact .inr ⟨e, stored, hasCell, asmName⟩

theorem retype (accessible : s.Accessible t) (type : ValueType) : { s with type := type }.Accessible t :=
  accessible.imp_right fun ⟨rooted, view⟩ => ⟨⟨rooted.cell, rooted.elements⟩, view⟩

theorem literal (value : Word) : (Slot.literal value).Accessible t :=
  .inl ⟨by simp [Slot.literal, literal?, constant?, fresh, Word.ofHex?_toHex], rfl⟩

end Accessible

theorem kind_ne_constant (writable : s.isUnwritable = false) : s.kind ≠ .constant := by
  intro constant
  simp [isUnwritable, constant] at writable

end Slot

/-! ## Sound nodes -/

namespace Node

/-- The value can be written to. -/
def IsCell : Node → Prop
  | slot s _ => s.isUnwritable = false
  | _ => True

/-- The value can be the start of a view. -/
def IsBase : Node → Prop
  | slot s _ => s.kind ≠ .constant
  | _ => True

theorem IsCell.isBase {n : Node} (isCell : n.IsCell) : n.IsBase := by
  cases n with
  | slot s line => exact Slot.kind_ne_constant isCell
  | _ => trivial

mutual

/-- A node that code can always be made for. An array can be indexed, but not at a fixed distance: that
is a view of it, which is a slot. -/
def Sound (t : SlotTable) : Node → Prop
  | slot s _ => s.Accessible t
  | deref base _ _ => base.Sound t ∧ base.IsCell
  | lookup base index _ _ =>
    base.Sound t ∧ index.Sound t ∧ base.IsBase ∧ (index.literal?.isSome = true → base.IsCell)
  | assign _ target value _ => target.Sound t ∧ value.Sound t ∧ target.IsCell
  | binary _ left right _ => left.Sound t ∧ right.Sound t
  | unary op operand _ => operand.Sound t ∧
    match op with
    | .preStep _ => operand.IsCell
    | .postStep _ => operand.IsCell
    | _ => True
  | compare _ left right _ => left.Sound t ∧ right.Sound t
  | logic _ left right _ => left.Sound t ∧ right.Sound t
  | ternary condition yes no _ => condition.Sound t ∧ yes.Sound t ∧ no.Sound t
  | call _ args _ _ => AllSound t args
  | host _ args _ => AllSound t args

def AllSound (t : SlotTable) : List Node → Prop
  | [] => True
  | n :: rest => n.Sound t ∧ AllSound t rest

end

variable {t t' : SlotTable}

theorem allSound_iff {ns : List Node} : AllSound t ns ↔ ∀ n ∈ ns, n.Sound t := by
  induction ns with
  | nil => simp [AllSound]
  | cons n rest ih => simp [AllSound, ih]

theorem Sound.mono (grows : t.Grows t') {n : Node} (sound : n.Sound t) : n.Sound t' := by
  induction n with
  | slot s line => exact Slot.Accessible.mono sound grows
  | _ => simp_all [Sound, allSound_iff]

theorem mem_allSlots {s : Slot} {ns : List Node} : s ∈ allSlots ns ↔ ∃ n ∈ ns, s ∈ n.slots := by
  induction ns with
  | nil => simp [allSlots]
  | cons n rest ih => simp [allSlots, ih]

/-- The slots of a sound node are accessible. -/
theorem Sound.accessible {n : Node} (sound : n.Sound t) : ∀ s ∈ n.slots, s.Accessible t := by
  induction n with
  | slot s line => exact List.forall_mem_singleton.2 sound
  | call _ args _ _ ih | host _ args _ ih =>
    intro s mem
    obtain ⟨n, listed, mem⟩ := mem_allSlots.1 mem
    exact ih n listed (allSound_iff.1 sound n listed) s mem
  | _ => simp_all [Sound, slots, or_imp]

/-- What is accessible has a name. -/
theorem Sound.isNamed {n : Node} (sound : n.Sound t) : n.IsNamed t :=
  fun s mem => (sound.accessible s mem).isNamed

end Node

/-! ## Bound phrases -/

namespace Command

/-- A phrase that code can always be made for. Only `sleep` needs its value. -/
def Sound (t : SlotTable) : Command → Prop
  | control word operand _ =>
    (∀ n, operand = some n → n.Sound t) ∧ (word = .sleep → operand.isSome = true)
  | value node => node.Sound t

end Command

end ContractCompiler
