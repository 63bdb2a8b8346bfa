import ContractCompiler.Codegen.Deferred
import ContractCompiler.Proofs.Codegen.Select
import ContractCompiler.Proofs.Meaning

/-!
# Proofs.Codegen.Reference — operands stand for references

An operand that code was made for stands for a reference (`Machine.ref`): a literal for itself, a
register for the word in it, a variable for its cell. What can be read and written through the
reference is what the machine reads and writes through the slot (`value_of_ref`, `write_of_ref`), and
while its registers are held, the operand goes on to stand for the same reference (`ref_eq`).
-/

namespace ContractCompiler

set_option autoImplicit false

open Codegen (State Context)

/-! ## Later states -/

/-- Constants may have been stored, and the registers are the same. -/
structure Codegen.State.Later (st st' : State) : Prop where
  interns : st.table.Interns st'.table
  slots : st'.pool.slots = st.pool.slots

namespace Codegen.State.Later

variable {st st' st'' : State}

theorem refl (st : State) : st.Later st := ⟨.refl _, rfl⟩

theorem trans (first : st.Later st') (second : st'.Later st'') : st.Later st'' :=
  ⟨first.interns.trans second.interns, second.slots.trans first.slots⟩

theorem release (st : State) (rs : List Slot) : st.Later (st.release rs) :=
  ⟨.refl _, release_slots st rs⟩

theorem isRegister (later : st.Later st') (a : Int) :
    st'.pool.isRegister a = st.pool.isRegister a := Pool.isRegister_of_slots later.slots

theorem hosts {M : Machine} (later : st.Later st') (hosts : M.Hosts st') : M.Hosts st :=
  hosts.of_interns later.interns

end Codegen.State.Later

theorem Codegen.State.Takes.later {st st' : State} {holds : List Slot}
    {pending : List (Step × Node)} (takes : st.Takes holds pending st') (valid : st.Valid) :
    st.Later st' := ⟨takes.interns, takes.slots valid⟩

/-- The registers that are held keep what they hold. -/
def Codegen.State.Keeps (st : State) (m m' : Memory) : Prop :=
  ∀ a, st.pool.Holds a → m' a = m a

namespace Codegen.State.Keeps

variable {st st' : State} {m m' m'' : Memory}

theorem refl (st : State) (m : Memory) : st.Keeps m m := fun _ _ => rfl

theorem trans (first : st.Keeps m m') (second : st.Keeps m' m'') : st.Keeps m m'' :=
  fun a held => (second a held).trans (first a held)

theorem of_frame (frame : st.Frame m m') : st.Keeps m m' :=
  fun a held => frame a fun free => free.2 held

theorem weaken {holds : List Slot} {pending : List (Step × Node)} (keeps : st'.Keeps m m')
    (takes : st.Takes holds pending st') : st.Keeps m m' :=
  fun a held => keeps a (takes.mono held)

end Codegen.State.Keeps

/-! ## The memory that expressions speak of -/

namespace Machine

variable (M : Machine)

/-- The cell is not one of the machine's own: no register, no constant, no address of an array. -/
def Open (a : Int) : Prop :=
  ∀ s ∈ M.table.slots, s.address = a →
    s.kind ≠ .register ∧ s.kind ≠ .constant ∧ s.kind ≠ .array

/-- The rules are those of the machine: nothing of its own is accessed through an address. -/
structure Obeys (rules : Rules) : Prop where
  arithmetic : rules.arithmetic = M.arithmetic
  canRead : ∀ a, rules.canRead a = true → ¬ M.IsRegister a
  canWrite : ∀ a, rules.canWrite a = true → M.Open a

/-- The machine's memory is the one that expressions speak of, but for the registers. -/
structure Ready (m mm : Memory) : Prop where
  fixed : M.Fixed m
  agrees : ∀ a, ¬ M.IsRegister a → mm a = m a

variable {M} {st : State} {m mm mm' : Memory} {a : Int}

theorem Open.not_isRegister (isOpen : M.Open a) : ¬ M.IsRegister a := by
  rintro ⟨s, listed, same⟩
  obtain ⟨stored, register⟩ := SlotTable.mem_registers.1 listed
  exact (isOpen s stored same).1 register

/-- The cell of a variable is not one of the machine's own. -/
theorem Hosts.open_of_kind (hosts : M.Hosts st) {s : Slot} (stored : s.StoredIn st.table)
    (kind : s.kind = .long ∨ s.kind = .structRef) : M.Open s.address := by
  obtain ⟨s', mem', sameKind, sameAddress, -⟩ := hosts.slot_of_stored stored
  intro s₁ mem₁ address
  have hasCell' : s'.kind ≠ .struct := sameKind ▸ stored.kind_ne_struct
  have somewhere : s₁.address ≠ Slot.nowhere := by
    rw [address, ← sameAddress]
    exact hosts.valid.address_ne_nowhere mem' hasCell'
  obtain rfl := hosts.valid.eq_of_address mem₁ (hosts.valid.kind_ne_struct mem₁ somewhere) mem'
    hasCell' (address.trans sameAddress.symm)
  rw [sameKind]
  rcases kind with k | k <;> simp [k]

namespace Ready

/-- The machine's memory has its constants and arrays as well. -/
theorem machine (ready : M.Ready m mm) (valid : M.table.Valid) : M.Fixed mm := by
  intro s mem kind
  rw [ready.agrees _ (M.not_isRegister_of_kind valid mem kind), ready.fixed s mem kind]

theorem frame (ready : M.Ready m mm) (hosts : M.Hosts st) (valid : st.Valid)
    (frame : st.Frame mm mm') : M.Ready m mm' :=
  ⟨ready.fixed, fun a notRegister => by
    rw [frame a fun free => notRegister ((hosts.isRegister_iff valid).2 free.1)]
    exact ready.agrees a notRegister⟩

/-- The same write on both sides. -/
theorem set (ready : M.Ready m mm) (isOpen : M.Open a) (w : Word) :
    M.Ready (m.set a w) (mm.set a w) where
  fixed s mem kind := by
    rw [Memory.set_of_ne]
    · exact ready.fixed s mem kind
    · intro same
      have := isOpen s mem same
      rcases kind with k | k <;> simp [k] at this
  agrees b notRegister := by
    by_cases same : b = a
    · simp [same]
    · rw [Memory.set_of_ne same, Memory.set_of_ne same, ready.agrees b notRegister]

/-- A write to a register. -/
theorem setRegister (ready : M.Ready m mm) (isRegister : M.IsRegister a) (w : Word) :
    M.Ready m (mm.set a w) :=
  ⟨ready.fixed, fun b notRegister => by
    rw [Memory.set_of_ne fun same : b = a => notRegister (same ▸ isRegister)]
    exact ready.agrees b notRegister⟩

end Ready

end Machine

/-! ## References of slots -/

/-- A slot that is no view, as a part of an address. -/
def Slot.source (m : Memory) (s : Slot) : Source :=
  match s.kind with
  | .register => .word (m s.address)
  | .constant => .word (m s.address)
  | .array => .array s.address s.initial
  | _ => .cell s.address

/-- A slot is no view, or an element at a fixed index, or its address is found in memory. -/
theorem Slot.shape (s : Slot) :
    s.offset = none ∨ (∃ index, s.offset = some (.fixed index) ∧ s.kind = .array) ∨
      s.isView = true := by
  unfold isView
  split
  · exact .inl ‹_›
  · exact .inr (.inl ⟨_, ‹_›, ‹_›⟩)
  · exact .inr (.inr rfl)

namespace Machine

variable (M : Machine)

/-- The address is that of a register or of a constant. -/
def isOwn (a : Int) : Bool :=
  M.table.slots.any fun s => (s.kind == .register || s.kind == .constant) && s.address == a

/-- The cell at an address, as a part of another. -/
def sourceAt (m : Memory) (a : Int) : Source := if M.isOwn a then .word (m a) else .cell a

def ref (m : Memory) (s : Slot) : Ref :=
  match s.literal? with
  | some w => .literal w
  | none =>
    match s.offset with
    | none =>
      match s.kind with
      | .register => .temp (m s.address)
      | .constant => .literal (m s.address)
      | .array => .array s.address s.initial
      | _ => .cell s.address
    | some (.fixed distance) => (s.source m).through distance
    | some (.dynamic a) => .view (s.source m) (M.sourceAt m a)

variable {M} {st : State} {s : Slot} {m m' mm mm' : Memory} {rules : Rules} {w : Word}

theorem ref_literal (isLiteral : s.literal? = some w) : M.ref mm s = .literal w := by
  simp [ref, isLiteral]

/-- A slot that is no view stands for the part of an address that it is. -/
theorem settle_ref_direct (notLiteral : s.literal? = none) (direct : s.offset = none) :
    (M.ref mm s).settle rules m = some (s.source mm, m) := by
  simp only [ref, notLiteral, direct, Slot.source]
  cases s.kind <;> rfl

theorem source_eq_of_ref_eq (notLiteral : s.literal? = none) (direct : s.offset = none)
    (same : M.ref mm' s = M.ref mm s) : s.source mm' = s.source mm := by
  simp only [ref, notLiteral, direct] at same
  unfold Slot.source
  cases kind : s.kind <;> simp_all

theorem ref_element {index : Word} (notLiteral : s.literal? = none)
    (offset : s.offset = some (.fixed index)) (array : s.kind = .array) :
    M.ref mm s = .element (s.cell mm) := by
  simp [ref, notLiteral, offset, Slot.source, array, Source.through, Slot.cell_element offset array]

section Hosted

variable (hosts : M.Hosts st) (valid : st.Valid) (ready : M.Ready m mm)
include hosts valid ready

/-- A cell that is no register is the same for expressions and for the machine. -/
theorem agrees_of_kind (stored : s.StoredIn st.table) (kind : s.kind ≠ .register) :
    mm s.address = m s.address :=
  ready.agrees _ fun isRegister =>
    kind ((Slot.isRegister_iff_kind valid stored).1 ((hosts.isRegister_iff valid).1 isRegister))

theorem read_source (stored : s.StoredIn st.table) : (s.source mm).read m = mm s.address := by
  have agrees := agrees_of_kind hosts valid ready stored
  unfold Slot.source
  cases kind : s.kind with
  | register => rfl
  | constant => rfl
  | _ => exact (agrees (by simp [kind])).symm

omit hosts valid in
theorem read_sourceAt (a : Int) : (M.sourceAt mm a).read m = mm a := by
  unfold sourceAt
  split
  · rfl
  · rename_i notOwn
    refine (ready.agrees a ?_).symm
    rintro ⟨s, listed, same⟩
    obtain ⟨stored, register⟩ := SlotTable.mem_registers.1 listed
    exact notOwn (List.any_eq_true.2 ⟨s, stored, by simp [register, same]⟩)

/-- A view stands for the view of the parts of its address. -/
theorem ref_view (stored : s.StoredIn st.table) (isView : s.isView = true) :
    ∃ base distance, M.ref mm s = .view base distance ∧
      Ref.address m base distance = s.cell mm := by
  have notLiteral := stored.literal?_eq_none valid.table
  have base := read_source hosts valid ready stored
  cases offset : s.offset with
  | none => simp [Slot.isView, offset] at isView
  | some o =>
    cases o with
    | dynamic a =>
      refine ⟨s.source mm, M.sourceAt mm a, by simp [ref, notLiteral, offset], ?_⟩
      rw [Ref.address, base, read_sourceAt ready, Slot.cell_dynamic offset]
    | fixed distance =>
      have notArray : s.kind ≠ .array := by
        intro array
        simp [Slot.isView, offset, array] at isView
      refine ⟨s.source mm, .word distance, ?_, ?_⟩
      · simp only [ref, notLiteral, offset]
        unfold Slot.source
        cases kind : s.kind <;> simp_all [Source.through]
      · rw [Ref.address, base, Slot.cell_fixed offset notArray]
        rfl

/-- What a reference stands for is what the slot stands for. -/
theorem value_of_ref (obeys : M.Obeys rules) (usable : s.Usable st)
    (read : (M.ref mm s).value? rules m = some w) : s.value mm = w ∧ M.Clear mm s := by
  cases isLiteral : s.literal? with
  | some v =>
    rw [ref_literal isLiteral] at read
    obtain rfl : v = w := by simpa [Ref.value?] using read
    rcases usable with ⟨-, direct⟩ | ⟨stored, -⟩
    · exact ⟨Slot.value_of_literal isLiteral mm, fun notDirect => absurd direct notDirect⟩
    · simp [stored.literal?_eq_none valid.table] at isLiteral
  | none =>
    obtain ⟨stored, -, -⟩ := usable.resolve_left (by simp [isLiteral])
    rw [Slot.value_of_not_literal isLiteral]
    rcases s.shape with direct | ⟨index, offset, array⟩ | isView
    · refine ⟨?_, fun notDirect => absurd direct notDirect⟩
      have agrees := agrees_of_kind hosts valid ready stored
      rw [Slot.cell_direct direct]
      simp only [ref, isLiteral, direct] at read
      cases kind : s.kind with
      | register => simpa [kind, Ref.value?] using read
      | constant => simpa [kind, Ref.value?] using read
      | _ =>
        rw [agrees (by simp [kind])]
        simpa [kind, Ref.value?] using read
    · rw [ref_element isLiteral offset array, Ref.value?] at read
      split at read
      · rename_i allowed
        have clear := obeys.canRead _ allowed
        exact ⟨(ready.agrees _ clear).trans (Option.some.inj read), fun _ => clear⟩
      · cases read
    · obtain ⟨base, distance, same, address⟩ := ref_view hosts valid ready stored isView
      rw [same, Ref.value?, address] at read
      split at read
      · rename_i allowed
        have clear := obeys.canRead _ allowed
        exact ⟨(ready.agrees _ clear).trans (Option.some.inj read), fun _ => clear⟩
      · cases read

/-- A write through a reference is a write to the cell of the slot, which is none of the machine's
own. -/
theorem write_of_ref (obeys : M.Obeys rules) (usable : s.Usable st)
    (written : (M.ref mm s).write? rules m w = some m') :
    M.Clear mm s ∧ M.Open (s.cell mm) ∧ m' = m.set (s.cell mm) w := by
  cases isLiteral : s.literal? with
  | some v => simp [ref_literal isLiteral, Ref.write?] at written
  | none =>
    obtain ⟨stored, -, -⟩ := usable.resolve_left (by simp [isLiteral])
    rcases s.shape with direct | ⟨index, offset, array⟩ | isView
    · rw [Slot.cell_direct direct]
      simp only [ref, isLiteral, direct] at written
      have kind : s.kind = .long ∨ s.kind = .structRef := by
        have hasCell := stored.kind_ne_struct
        cases kind : s.kind <;> simp_all [Ref.write?]
      refine ⟨fun notDirect => absurd direct notDirect, hosts.open_of_kind stored kind, ?_⟩
      rcases kind with k | k <;> simpa [k, Ref.write?] using written.symm
    · rw [ref_element isLiteral offset array, Ref.write?] at written
      split at written
      · rename_i allowed
        have isOpen := obeys.canWrite _ allowed
        exact ⟨fun _ => isOpen.not_isRegister, isOpen, (Option.some.inj written).symm⟩
      · cases written
    · obtain ⟨base, distance, same, address⟩ := ref_view hosts valid ready stored isView
      rw [same, Ref.write?, address] at written
      split at written
      · rename_i allowed
        have isOpen := obeys.canWrite _ allowed
        exact ⟨fun _ => isOpen.not_isRegister, isOpen, (Option.some.inj written).symm⟩
      · cases written

end Hosted

theorem Hosts.isOwn_of_kind (hosts : M.Hosts st) (stored : s.StoredIn st.table)
    (kind : s.kind = .register ∨ s.kind = .constant) : M.isOwn s.address = true := by
  obtain ⟨s', mem', sameKind, sameAddress, -⟩ := hosts.slot_of_stored stored
  refine List.any_eq_true.2 ⟨s', mem', ?_⟩
  rcases kind with k | k <;> simp [sameKind, k, sameAddress]

/-- What is found at the address of a slot that is no view. -/
theorem Hosts.sourceAt_eq (hosts : M.Hosts st) (stored : s.StoredIn st.table) (mm : Memory) :
    M.sourceAt mm s.address = (s.source mm).plain := by
  have isOwn := hosts.isOwn_of_kind stored
  have own : M.isOwn s.address = true → s.kind = .register ∨ s.kind = .constant := by
    intro isOwn
    obtain ⟨s₁, mem₁, found⟩ := List.any_eq_true.1 isOwn
    simp only [Bool.and_eq_true, Bool.or_eq_true, beq_iff_eq] at found
    obtain ⟨kind, address⟩ := found
    obtain ⟨s', mem', sameKind, sameAddress, -⟩ := hosts.slot_of_stored stored
    have hasCell₁ : s₁.kind ≠ .struct := by rcases kind with k | k <;> simp [k]
    obtain rfl := hosts.valid.eq_of_address mem₁ hasCell₁ mem' (sameKind ▸ stored.kind_ne_struct)
      (address.trans sameAddress.symm)
    rwa [sameKind] at kind
  unfold sourceAt Slot.source
  cases kind : s.kind with
  | register => simp [isOwn (.inl kind), Source.plain]
  | constant => simp [isOwn (.inr kind), Source.plain]
  | _ =>
    have notOwn : ¬ M.isOwn s.address = true := fun isOwn => by simpa [kind] using own isOwn
    rw [if_neg notOwn]
    rfl

/-- What the machine has of its own stays the same while its registers are kept. -/
theorem Ready.own_eq {a : Int} (ready : M.Ready m mm) (ready' : M.Ready m' mm')
    (valid : M.table.Valid) (isOwn : M.isOwn a = true) (kept : M.IsRegister a → mm' a = mm a) :
    mm' a = mm a := by
  obtain ⟨s, mem, found⟩ := List.any_eq_true.1 isOwn
  simp only [Bool.and_eq_true, Bool.or_eq_true, beq_iff_eq] at found
  obtain ⟨register | constant, rfl⟩ := found
  · exact kept ⟨s, SlotTable.mem_registers.2 ⟨mem, register⟩, rfl⟩
  · rw [ready.machine valid s mem (.inl constant), ready'.machine valid s mem (.inl constant)]

end Machine

/-! ## Operands -/

/-- The slot names the cell: it is its own cell, or the one that holds its offset. -/
def Slot.Uses (s : Slot) (a : Int) : Prop := a = s.address ∨ s.offset = some (.dynamic a)

/-- An operand is a literal or a stored slot, and holds the registers that its slot names. -/
structure Operand.Fits (st : State) (o : Operand) : Prop where
  slot : (o.slot.literal?.isSome ∧ o.slot.offset = none) ∨ (o.slot.StoredIn st.table ∧
    ∀ a, o.slot.offset = some (.dynamic a) →
      ∃ s₁ ∈ st.table.slots, s₁.kind ≠ .struct ∧ s₁.address = a)
  owned : ∀ a, o.slot.Uses a → st.pool.isRegister a = true → a ∈ o.holds.map (·.address)

/-- The registers of an operand are held. -/
def Operand.Held (st : State) (o : Operand) : Prop := ∀ r ∈ o.holds, st.pool.Holds r.address

namespace Operand

variable {st st' : State} {o : Operand} {M : Machine} {m m' mm mm' : Memory}

theorem Held.keeps (held : o.Held st) (keeps : st.Keeps mm mm') :
    ∀ r ∈ o.holds, mm' r.address = mm r.address :=
  fun r mem => keeps _ (held r mem)

theorem Fits.later (fits : o.Fits st) (later : st.Later st') : o.Fits st' where
  slot := by
    rcases fits.slot with isLiteral | ⟨stored, away⟩
    · exact .inl isLiteral
    · refine .inr ⟨stored.mono later.interns, fun a offset => ?_⟩
      obtain ⟨s₁, mem, hasCell, same⟩ := away a offset
      exact ⟨s₁, later.interns.mem mem, hasCell, same⟩
  owned a uses isRegister := fits.owned a uses (later.isRegister a ▸ isRegister)

theorem Fits.usable (fits : o.Fits st) (held : o.Held st) : o.slot.Usable st := by
  have kept : ∀ a, o.slot.Uses a → ¬ st.pool.Free a := by
    intro a uses free
    obtain ⟨r, mem, rfl⟩ := List.mem_map.1 (fits.owned a uses free.1)
    exact free.2 (held r mem)
  rcases fits.slot with isLiteral | ⟨stored, away⟩
  · exact .inl isLiteral
  · exact .inr ⟨stored, kept _ (.inl rfl), fun a offset => ⟨away a offset, kept a (.inr offset)⟩⟩

/-- An operand whose registers keep what they hold stands for the same reference, whatever else
happens. -/
theorem Fits.ref_eq (fits : o.Fits st) (valid : st.Valid) (hosts : M.Hosts st)
    (ready : M.Ready m mm) (ready' : M.Ready m' mm')
    (keeps : ∀ r ∈ o.holds, mm' r.address = mm r.address) :
    M.ref mm' o.slot = M.ref mm o.slot := by
  have kept : ∀ a, o.slot.Uses a → M.isOwn a = true → mm' a = mm a := by
    intro a uses isOwn
    refine ready.own_eq ready' hosts.valid isOwn fun isRegister => ?_
    obtain ⟨r, mem, rfl⟩ :=
      List.mem_map.1 (fits.owned a uses ((hosts.isRegister_iff valid).1 isRegister))
    exact keeps r mem
  rcases fits.slot with ⟨isLiteral, -⟩ | ⟨stored, -⟩
  · obtain ⟨w, isLiteral⟩ := Option.isSome_iff_exists.1 isLiteral
    rw [Machine.ref_literal isLiteral, Machine.ref_literal isLiteral]
  · have notLiteral := stored.literal?_eq_none valid.table
    have own := fun kind => kept _ (.inl rfl) (hosts.isOwn_of_kind stored kind)
    have source : o.slot.source mm' = o.slot.source mm := by
      unfold Slot.source
      cases kind : o.slot.kind with
      | register => simp [own (.inl kind)]
      | constant => simp [own (.inr kind)]
      | _ => rfl
    simp only [Machine.ref, notLiteral]
    cases offset : o.slot.offset with
    | none =>
      cases kind : o.slot.kind with
      | register => simp [own (.inl kind)]
      | constant => simp [own (.inr kind)]
      | _ => rfl
    | some distance =>
      cases distance with
      | fixed distance => simp [source]
      | dynamic a =>
        simp only [source, Machine.sourceAt]
        split
        · rename_i isOwn
          rw [kept a (.inr offset) isOwn]
        · rfl

end Operand

end ContractCompiler
