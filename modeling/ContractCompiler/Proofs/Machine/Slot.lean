import ContractCompiler.Codegen.Operand
import ContractCompiler.Proofs.Codegen
import ContractCompiler.Proofs.Machine.Leads

/-!
# Proofs.Machine.Slot — what a slot means in a memory

A slot stands for a cell of the machine (`Slot.cell`) and so for a word (`Slot.value`). The cell of a
view is found through other cells, and that of an array's element at a fixed index is known
beforehand.

Code for one operation may use the registers that are free, so that what it does is said up to those:
`State.Frame s m m'` says that `m'` differs from `m` in registers that are free in `s` only.
-/

namespace ContractCompiler

set_option autoImplicit false

open Codegen (State)

/-! ## Slots -/

namespace Slot

variable {s : Slot} {t t' : SlotTable} {st st' : State} {m m' : Memory}

/-- What the cell of a constant or of an array holds from the start. -/
def initial (s : Slot) : Word := (s.contents.bind Word.ofHex?).getD 0

/-- The slot stands for a cell whose address is found in memory. -/
def isView (s : Slot) : Bool :=
  match s.offset, s.kind with
  | none, _ => false
  | some (.fixed _), .array => false
  | some _, _ => true

def cell (m : Memory) (s : Slot) : Int :=
  match s.offset, s.kind with
  | none, _ => s.address
  | some (.fixed index), .array => Word.toSigned (s.initial + index)
  | some (.fixed distance), _ => Word.toSigned (m s.address + distance)
  | some (.dynamic a), _ => Word.toSigned (m s.address + m a)

def value (m : Memory) (s : Slot) : Word := s.literal?.getD (m (s.cell m))

theorem cell_direct (direct : s.offset = none) (m : Memory) : s.cell m = s.address := by
  simp [cell, direct]

theorem cell_element {index : Word} (offset : s.offset = some (.fixed index))
    (array : s.kind = .array) (m : Memory) : s.cell m = Word.toSigned (s.initial + index) := by
  simp [cell, offset, array]

theorem cell_fixed {distance : Word} (offset : s.offset = some (.fixed distance))
    (notArray : s.kind ≠ .array) (m : Memory) :
    s.cell m = Word.toSigned (m s.address + distance) := by
  unfold cell
  rw [offset]
  cases kind : s.kind <;> simp_all

theorem cell_dynamic {a : Int} (offset : s.offset = some (.dynamic a)) (m : Memory) :
    s.cell m = Word.toSigned (m s.address + m a) := by
  simp [cell, offset]

theorem kind_of_literal? (isLiteral : s.literal?.isSome = true) :
    s.kind = .constant ∧ s.address = nowhere := by
  unfold literal? constant? at isLiteral
  split at isLiteral
  · split at isLiteral
    · exact ⟨‹_›, ‹_›⟩
    · cases isLiteral
  · cases isLiteral

/-- The slot is one of a table's, or a view of one. -/
def StoredIn (t : SlotTable) (s : Slot) : Prop :=
  ∃ s₀ ∈ t.slots, s₀.kind ≠ .struct ∧ s = { s₀ with offset := s.offset, type := s.type }

instance (t : SlotTable) (s : Slot) : Decidable (s.StoredIn t) :=
  inferInstanceAs (Decidable (∃ s₀ ∈ t.slots, s₀.kind ≠ .struct ∧
    s = { s₀ with offset := s.offset, type := s.type }))

namespace StoredIn

theorem of_mem (stored : s ∈ t.slots) (hasCell : s.kind ≠ .struct) :
    s.StoredIn t :=
  ⟨s, stored, hasCell, rfl⟩

theorem mono (stored : s.StoredIn t) (interns : t.Interns t') : s.StoredIn t' := by
  obtain ⟨s₀, mem, hasCell, same⟩ := stored
  exact ⟨s₀, interns.mem mem, hasCell, same⟩

theorem withOffset (stored : s.StoredIn t) (offset : Offset) (type : ValueType) :
    (s.withOffset offset type).StoredIn t := by
  obtain ⟨s₀, mem, hasCell, same⟩ := stored
  refine ⟨s₀, mem, hasCell, ?_⟩
  rw [same]
  rfl

theorem kind_ne_struct (stored : s.StoredIn t) : s.kind ≠ .struct := by
  obtain ⟨s₀, mem, hasCell, same⟩ := stored
  rw [same]
  exact hasCell

theorem address_ne_nowhere (stored : s.StoredIn t) (valid : t.Valid) : s.address ≠ nowhere := by
  obtain ⟨s₀, mem, hasCell, same⟩ := stored
  rw [same]
  exact (valid.address_ne_nowhere mem hasCell :)

theorem literal?_eq_none (stored : s.StoredIn t) (valid : t.Valid) : s.literal? = none := by
  simp [literal?, stored.address_ne_nowhere valid]

end StoredIn

theorem isRegister_iff_kind (valid : st.Valid) (stored : s.StoredIn st.table) :
    st.pool.isRegister s.address = true ↔ s.kind = .register := by
  obtain ⟨s₀, mem, hasCell, same⟩ := stored
  rw [same]
  exact (valid.isRegister_iff mem hasCell :)

/-- A slot that code can be made for: a literal, or a slot whose registers are all held. -/
def Usable (st : State) (s : Slot) : Prop :=
  (s.literal?.isSome ∧ s.offset = none) ∨
    (s.StoredIn st.table ∧ ¬ st.pool.Free s.address ∧
      ∀ a, s.offset = some (.dynamic a) →
        (∃ s₁ ∈ st.table.slots, s₁.kind ≠ .struct ∧ s₁.address = a) ∧ ¬ st.pool.Free a)

theorem Usable.mono {holds : List Slot} {pending : List (Step × Node)} (usable : s.Usable st)
    (valid : st.Valid) (takes : st.Takes holds pending st') : s.Usable st' := by
  rcases usable with isLiteral | ⟨stored, kept, offset⟩
  · exact .inl isLiteral
  · refine .inr ⟨stored.mono takes.interns, fun free => kept (takes.free valid free), ?_⟩
    intro a dynamic
    obtain ⟨⟨s₁, mem, hasCell, same⟩, kept'⟩ := offset a dynamic
    exact ⟨⟨s₁, takes.interns.mem mem, hasCell, same⟩, fun free => kept' (takes.free valid free)⟩

/-- A stored slot that is no view. -/
theorem Usable.of_direct (stored : s.StoredIn st.table) (kept : ¬ st.pool.Free s.address)
    (direct : s.offset = none) : s.Usable st :=
  .inr ⟨stored, kept, by simp [direct]⟩

end Slot

/-! ## Memories that differ in free registers -/

namespace Codegen.State

variable {st st' : State} {m m' m'' : Memory}

/-- Only registers that are free differ. -/
def Frame (st : State) (m m' : Memory) : Prop := ∀ a, ¬ st.pool.Free a → m' a = m a

namespace Frame

theorem refl (st : State) (m : Memory) : st.Frame m m := fun _ _ => rfl

theorem trans (first : st.Frame m m') (second : st.Frame m' m'') : st.Frame m m'' :=
  fun a kept => (second a kept).trans (first a kept)

/-- What is done while more registers are held. -/
theorem weaken {holds : List Slot} {pending : List (Step × Node)} (frame : st'.Frame m m')
    (takes : st.Takes holds pending st') (valid : st.Valid) : st.Frame m m' :=
  fun a kept => frame a fun free => kept (takes.free valid free)

/-- A free register is written. -/
theorem set {a : Int} (free : st.pool.Free a) (m : Memory) (w : Word) : st.Frame m (m.set a w) :=
  fun b kept => Memory.set_of_ne (fun same : b = a => kept (same ▸ free)) m w

/-- The same write on both sides. -/
theorem set_set (frame : st.Frame m m') (a : Int) (w : Word) :
    st.Frame (m.set a w) (m'.set a w) := by
  intro b kept
  by_cases same : b = a
  · simp [same]
  · rw [Memory.set_of_ne same, Memory.set_of_ne same, frame b kept]

end Frame

end Codegen.State

namespace Slot

variable {s : Slot} {st : State} {m m' : Memory}

theorem Usable.cell_eq (usable : s.Usable st) (notLiteral : s.literal? = none)
    (frame : st.Frame m m') : s.cell m' = s.cell m := by
  rcases usable with ⟨isLiteral, -⟩ | ⟨stored, kept, offset⟩
  · simp [notLiteral] at isLiteral
  · unfold cell
    split
    · rfl
    · rfl
    · rw [frame _ kept]
    · rename_i a dynamic
      rw [frame _ kept, frame a (offset a dynamic).2]

end Slot

/-! ## Machines -/

namespace Machine

variable {M : Machine} {st st' : State} {s : Slot} {m m' : Memory}

variable (M) in
def IsRegister (a : Int) : Prop := ∃ s ∈ M.table.registers, s.address = a

variable (M) in
/-- The machine has a table that the table of the state grows to. -/
structure Hosts (st : State) : Prop where
  valid : M.table.Valid
  grows : st.table.Grows M.table

variable (M) in
/-- The constants and the arrays hold what they hold from the start. -/
def Fixed (m : Memory) : Prop :=
  ∀ s ∈ M.table.slots, s.kind = .constant ∨ s.kind = .array → m s.address = s.initial

instance (m : Memory) : Decidable (M.Fixed m) :=
  inferInstanceAs (Decidable (∀ s ∈ M.table.slots, s.kind = .constant ∨ s.kind = .array →
    m s.address = s.initial))

variable (M) in
/-- A slot with an offset does not stand for a register. -/
def Clear (m : Memory) (s : Slot) : Prop := s.offset ≠ none → ¬ M.IsRegister (s.cell m)

namespace Hosts

theorem of_interns (hosts : M.Hosts st') (interns : st.table.Interns st'.table) : M.Hosts st :=
  ⟨hosts.valid, interns.grows.trans hosts.grows⟩

theorem earlier {holds : List Slot} {pending : List (Step × Node)} (hosts : M.Hosts st')
    (takes : st.Takes holds pending st') : M.Hosts st := hosts.of_interns takes.interns

theorem of_release {rs : List Slot} (hosts : M.Hosts (st.release rs)) : M.Hosts st :=
  ⟨hosts.valid, hosts.grows⟩

theorem isRegister_iff (hosts : M.Hosts st) (valid : st.Valid) {a : Int} :
    M.IsRegister a ↔ st.pool.isRegister a = true := by
  rw [IsRegister, hosts.grows.registers, Pool.isRegister_iff, valid.pool]

/-- The slot of the machine's table that a stored slot has become. -/
theorem slot_of_stored (hosts : M.Hosts st) (stored : s.StoredIn st.table) :
    ∃ s' ∈ M.table.slots, s'.kind = s.kind ∧ s'.address = s.address ∧ s'.asmName = s.asmName ∧
      ∀ hex, s.contents = some hex → s'.contents = some hex := by
  obtain ⟨s₀, mem, -, same⟩ := stored
  obtain ⟨s', mem', becomes⟩ := hosts.grows.slots s₀ mem
  rw [same]
  exact ⟨s', mem', becomes.kind, becomes.address, becomes.asmName, becomes.kept⟩

/-- A name means the address of its slot. -/
theorem cell?_eq (hosts : M.Hosts st) (stored : s.StoredIn st.table) :
    M.cell? s.asmName = some s.address := by
  obtain ⟨s', mem', kind, address, asmName, -⟩ := hosts.slot_of_stored stored
  have somewhere := hosts.valid.address_ne_nowhere mem' (kind ▸ stored.kind_ne_struct)
  rw [← asmName, ← address]
  simp [cell?, hosts.valid.find?_eq mem', somewhere]

/-- A constant holds its value. -/
theorem constant_eq (hosts : M.Hosts st) (fixed : M.Fixed m) (mem : s ∈ st.table.slots)
    (constant : s.kind = .constant) {w : Word} (contents : s.contents = some w.toHex) :
    m s.address = w := by
  obtain ⟨s', mem', becomes⟩ := hosts.grows.slots s mem
  have holds := fixed s' mem' (.inl (becomes.kind ▸ constant))
  rw [becomes.address] at holds
  rw [holds, Slot.initial, becomes.kept _ contents]
  simp

end Hosts

theorem not_isRegister_of_kind (M : Machine) (valid : M.table.Valid) (mem : s ∈ M.table.slots)
    (kind : s.kind = .constant ∨ s.kind = .array) : ¬ M.IsRegister s.address := by
  rintro ⟨r, listed, same⟩
  obtain ⟨mem', register⟩ := SlotTable.mem_registers.1 listed
  obtain rfl := valid.eq_of_address mem' (by simp [register]) mem
    (by rcases kind with k | k <;> simp [k]) same
  rcases kind with k | k <;> simp [k] at register

/-- Code that uses free registers does not touch constants and arrays. -/
theorem Fixed.frame (fixed : M.Fixed m) (hosts : M.Hosts st) (valid : st.Valid)
    (frame : st.Frame m m') : M.Fixed m' := by
  intro s mem kind
  rw [frame]
  · exact fixed s mem kind
  · rintro ⟨isRegister, -⟩
    exact M.not_isRegister_of_kind hosts.valid mem kind ((hosts.isRegister_iff valid).2 isRegister)

end Machine

namespace Slot

variable {M : Machine} {s : Slot} {st : State} {m m' : Memory}

theorem value_of_literal {w : Word} (isLiteral : s.literal? = some w) (m : Memory) :
    s.value m = w := by
  simp [value, isLiteral]

theorem value_of_not_literal (notLiteral : s.literal? = none) (m : Memory) :
    s.value m = m (s.cell m) := by
  simp [value, notLiteral]

namespace Usable

variable (usable : s.Usable st) (valid : st.Valid) (hosts : M.Hosts st) (clear : M.Clear m s)
include usable

include valid hosts clear in
/-- What a slot stands for is no free register. -/
theorem not_free_cell (notLiteral : s.literal? = none) : ¬ st.pool.Free (s.cell m) := by
  obtain ⟨-, kept, -⟩ := usable.resolve_left (by simp [notLiteral])
  by_cases direct : s.offset = none
  · rw [cell_direct direct]
    exact kept
  · exact fun free => clear direct ((hosts.isRegister_iff valid).2 free.1)

include valid clear in
theorem clear_frame (frame : st.Frame m m') : M.Clear m' s := by
  intro notDirect
  cases isLiteral : s.literal? with
  | none =>
    rw [usable.cell_eq isLiteral frame]
    exact clear notDirect
  | some w =>
    rcases usable with ⟨-, direct⟩ | ⟨stored, -⟩
    · exact absurd direct notDirect
    · simp [stored.literal?_eq_none valid.table] at isLiteral

include valid hosts clear in
/-- Free registers do not change what a slot stands for. -/
theorem value_eq (frame : st.Frame m m') : s.value m' = s.value m := by
  cases isLiteral : s.literal? with
  | some w => rw [value_of_literal isLiteral, value_of_literal isLiteral]
  | none =>
    rw [value_of_not_literal isLiteral, value_of_not_literal isLiteral,
      usable.cell_eq isLiteral frame,
      frame _ (usable.not_free_cell valid hosts clear isLiteral)]

end Usable

end Slot

/-! ## Places -/

/-- The place is the cell `a`. What it is found through is no free register. -/
inductive Place.Points (M : Machine) (p : Pool) (m : Memory) : Place → Int → Prop
  | direct {s : Slot} (known : M.cell? s.asmName = some s.address) :
    Points M p m (.direct s) s.address
  | through {base : String} {holds : List Slot} {b : Int} (known : M.cell? base = some b)
    (kept : ¬ p.Free b) : Points M p m (.indirect base none holds) (Word.toSigned (m b))
  | away {base offset : String} {holds : List Slot} {b d : Int} (known : M.cell? base = some b)
    (kept : ¬ p.Free b) (known' : M.cell? offset = some d) (kept' : ¬ p.Free d) :
    Points M p m (.indirect base (some offset) holds) (Word.toSigned (m b + m d))

namespace Place.Points

variable {M : Machine} {st st' : State} {m m' : Memory} {place : Place} {a : Int}

theorem frame (points : Points M st.pool m place a) (frame : st.Frame m m') :
    Points M st.pool m' place a := by
  cases points with
  | direct known => exact .direct known
  | through known kept =>
    rw [← frame _ kept]
    exact .through known kept
  | away known kept known' kept' =>
    rw [← frame _ kept, ← frame _ kept']
    exact .away known kept known' kept'

theorem mono {holds : List Slot} {pending : List (Step × Node)}
    (points : Points M st.pool m place a) (valid : st.Valid) (takes : st.Takes holds pending st') :
    Points M st'.pool m place a := by
  cases points with
  | direct known => exact .direct known
  | through known kept => exact .through known fun free => kept (takes.free valid free)
  | away known kept known' kept' =>
    exact .away known (fun free => kept (takes.free valid free)) known'
      fun free => kept' (takes.free valid free)

theorem load {base : String} {offset : Option String} {holds : List Slot} {d : String} {dest : Int}
    (points : Points M st.pool m (.indirect base offset holds) a) (known : M.cell? d = some dest) :
    M.Leads [.load d base offset] none m (m.set dest (m a)) := by
  cases points with
  | through knownBase =>
    have away : M.distance? m none = some 0 := rfl
    simpa using Machine.Leads.load known knownBase away
  | away knownBase _ knownOffset =>
    exact Machine.Leads.load known knownBase (by simp [Machine.distance?, knownOffset])

theorem store {base : String} {offset : Option String} {holds : List Slot} {s : String} {src : Int}
    (points : Points M st.pool m (.indirect base offset holds) a) (source : M.cell? s = some src) :
    M.Leads [.store base offset s] none m (m.set a (m src)) := by
  cases points with
  | through knownBase =>
    have away : M.distance? m none = some 0 := rfl
    simpa using Machine.Leads.store source knownBase away
  | away knownBase _ knownOffset =>
    exact Machine.Leads.store source knownBase (by simp [Machine.distance?, knownOffset])

end Place.Points

end ContractCompiler
