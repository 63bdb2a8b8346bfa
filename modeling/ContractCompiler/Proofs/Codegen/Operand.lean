import ContractCompiler.Proofs.Machine.Slot

/-!
# Proofs.Codegen.Operand — the code that brings a slot into a cell

`resolve` gives a cell that an instruction can name and that holds what the slot stands for
(`resolve_ends`). Where the slot is a cell already, nothing is emitted (`resolve_ends_direct`).
-/

namespace ContractCompiler

set_option autoImplicit false

open Codegen (State Context)

/-- An operand that an instruction can name: a stored slot that is no view and no free register. A
register that it holds is the slot itself. -/
structure Operand.Settled (st : State) (o : Operand) : Prop where
  stored : o.slot.StoredIn st.table
  direct : o.slot.offset = none
  kept : ¬ st.pool.Free o.slot.address
  holds : o.holds = [] ∨ o.holds = [o.slot] ∧ o.slot.kind = .register

/-- A register that is held. -/
structure Slot.InHand (st : State) (r : Slot) : Prop where
  stored : r.StoredIn st.table
  direct : r.offset = none
  kind : r.kind = .register
  held : st.pool.Holds r.address

namespace Slot.InHand

variable {st st' : State} {r : Slot} {M : Machine}

/-- A register that was taken. -/
theorem of_takes {holds : List Slot} {pending : List (Step × Node)}
    (takes : st.Takes holds pending st') (mem : r ∈ holds) : r.InHand st' := by
  have listed := takes.listed r mem
  rw [takes.valid.pool] at listed
  obtain ⟨stored, register⟩ := SlotTable.mem_registers.1 listed
  exact ⟨.of_mem stored (by simp [register]), takes.valid.table.direct r stored, register,
    takes.holds_mem mem⟩

theorem not_free (inHand : r.InHand st) : ¬ st.pool.Free r.address := fun free => free.2 inHand.held

theorem usable (inHand : r.InHand st) : r.Usable st :=
  .of_direct inHand.stored inHand.not_free inHand.direct

theorem settled (inHand : r.InHand st) : (Operand.ofRegister r).Settled st :=
  ⟨inHand.stored, inHand.direct, inHand.not_free, .inr ⟨rfl, inHand.kind⟩⟩

theorem isRegister (inHand : r.InHand st) (valid : st.Valid) (hosts : M.Hosts st) :
    M.IsRegister r.address := (hosts.isRegister_iff valid).2 inHand.held.isRegister

theorem clear (inHand : r.InHand st) (m : Memory) : M.Clear m r :=
  fun notDirect => absurd inHand.direct notDirect

end Slot.InHand

namespace Codegen

variable {ctx : Context} {st st' : State} {code : List Instr} {line : Nat} {s : Slot}

/-- A stored slot that is no register is no free register. -/
theorem not_free_of_kind (valid : st.Valid) (stored : s.StoredIn st.table)
    (kind : s.kind ≠ .register) : ¬ st.pool.Free s.address :=
  fun free => kind ((Slot.isRegister_iff_kind valid stored).1 free.1)

/-- A register that is taken was free. -/
theorem free_of_takes {pending : List (Step × Node)} {holds : List Slot} {r : Slot}
    (valid : st.Valid) (takes : st.Takes holds pending st') (mem : r ∈ holds) :
    st.pool.Free r.address :=
  ⟨takes.isRegister valid _ ▸ Pool.isRegister_iff.2 ⟨r, takes.listed r mem, rfl⟩,
    takes.fresh r mem⟩

/-! ## Literals -/

/-- A literal is brought into a cell that holds its value. -/
theorem literal_ends (valid : st.Valid) (value : Word) (line : Nat) :
    (literal value line).Ends ctx st fun o code st' =>
      st.Takes o.holds [] st' ∧ o.Settled st' ∧
        (o.slot.kind = .constant ∧ o.holds = [] ∨ o.slot.kind = .register ∧ o.holds = [o.slot]) ∧
        ∀ {M : Machine} {m : Memory}, M.Hosts st' → M.Fixed m →
          ∃ m', M.Leads code none m m' ∧ st.Frame m m' ∧ m' o.slot.address = value := by
  refine .bind ((intern_ends valid value).mono ?_)
  rintro kept _ s₁ ⟨takes, rfl, found⟩
  cases kept with
  | some s =>
    obtain ⟨stored, constant, -, contents⟩ := SlotTable.intern_some found
    have storedIn : s.StoredIn s₁.table := .of_mem stored (by simp [constant])
    have kept := not_free_of_kind takes.valid storedIn (by simp [constant])
    refine .pure ⟨takes, ⟨storedIn, takes.valid.table.direct s stored, kept, .inl rfl⟩,
      .inl ⟨constant, rfl⟩,
      fun {M m} hosts fixed => ?_⟩
    exact ⟨m, .nil m, .refl st m, hosts.constant_eq fixed stored constant contents⟩
  | none =>
    refine .bind ((allocate_ends takes.valid).mono ?_)
    rintro r _ s₂ ⟨takesR, rfl, -⟩
    have takesAll := takes.trans takesR
    have inHand : r.InHand s₂ := .of_takes takesAll List.mem_cons_self
    have free := free_of_takes valid takesAll List.mem_cons_self
    dsimp only
    split
    · rename_i zero
      refine .bind (.emit (.pure ⟨takesAll, inHand.settled, .inr ⟨inHand.kind, rfl⟩, fun {M m} hosts _ => ?_⟩))
      exact ⟨m.set r.address 0, .clear (hosts.cell?_eq inHand.stored), .set free m 0,
        by simp [Operand.ofRegister, zero]⟩
    · refine .bind (.emit (.pure ⟨takesAll, inHand.settled, .inr ⟨inHand.kind, rfl⟩, fun {M m} hosts _ => ?_⟩))
      exact ⟨m.set r.address value,
        .setLiteral (hosts.cell?_eq inHand.stored) (Word.ofHex?_toHex value), .set free m value,
        by simp [Operand.ofRegister]⟩

/-! ## Places -/

theorem element_ends (array : Slot) (index : Word) (line : Nat) :
    (element array index line).Ends ctx st fun e code st' =>
      code = [] ∧ st' = st ∧ e ∈ st.table.slots ∧ e.kind = .long ∧
        e.address = Word.toSigned (array.initial + index) := by
  unfold element
  split
  · exact .fail _
  · rename_i first contents
    refine .bind (.of rfl ?_)
    split
    · rename_i s found
      split
      · rename_i isElement
        obtain ⟨stored, address, -⟩ := SlotTable.Valid.get?_eq_some found
        exact .pure ⟨rfl, rfl, stored, isElement.1, by rw [address, Slot.initial, contents]; rfl⟩
      · exact .fail _
    · exact .fail _

theorem nameAt_ends (a : Int) (line : Nat) :
    (nameAt a line).Ends ctx st fun name code st' =>
      code = [] ∧ st' = st ∧ ∃ s ∈ st.table.slots, s.address = a ∧ a ≠ Slot.nowhere ∧
        s.asmName = name := by
  refine .bind (.of rfl ?_)
  split
  · rename_i s found
    obtain ⟨stored, address, somewhere⟩ := SlotTable.Valid.get?_eq_some found
    exact .pure ⟨rfl, rfl, s, stored, address, somewhere, rfl⟩
  · exact .fail _

/-- What a view needs to be read or written through. -/
theorem placeThrough_ends {offset : Offset} (valid : st.Valid) (stored : s.StoredIn st.table)
    (kept : ¬ st.pool.Free s.address) (away : ∀ a, offset = .dynamic a → ¬ st.pool.Free a) :
    (placeThrough s.asmName offset line).Ends ctx st fun p code st' =>
      ∃ base name holds, p = .indirect base name holds ∧ st.Takes holds [] st' ∧
        ∀ {M : Machine} {m : Memory}, M.Hosts st' → M.Fixed m →
          ∃ m', M.Leads code none m m' ∧ st.Frame m m' ∧
            p.Points M st'.pool m' (Word.toSigned (m s.address + match offset with
              | .dynamic a => m a
              | .fixed distance => distance)) := by
  cases offset with
  | dynamic a =>
    refine .bind ((nameAt_ends a line).mono ?_)
    rintro _ _ st ⟨rfl, rfl, s₁, mem, rfl, somewhere, rfl⟩
    refine .pure ⟨_, _, _, rfl, .refl valid, fun {M m} hosts _ => ?_⟩
    have storedIn : s₁.StoredIn st.table :=
      .of_mem mem (valid.table.kind_ne_struct mem somewhere)
    exact ⟨m, .nil m, .refl st m,
      .away (hosts.cell?_eq stored) kept (hosts.cell?_eq storedIn) (away _ rfl)⟩
  | fixed distance =>
    unfold placeThrough
    dsimp only
    split
    · rename_i zero
      refine .pure ⟨_, _, _, rfl, .refl valid, fun {M m} hosts _ => ?_⟩
      refine ⟨m, .nil m, .refl st m, ?_⟩
      simpa [zero] using Place.Points.through (hosts.cell?_eq stored) kept
    · refine .bind ((literal_ends valid distance line).mono ?_)
      rintro o code st' ⟨takes, settled, -, run⟩
      refine .pure ⟨_, _, _, rfl, takes, fun {M m} hosts fixed => ?_⟩
      obtain ⟨m', leads, frame, holds⟩ := run hosts fixed
      refine ⟨m', by simpa using leads, frame, ?_⟩
      have base := (hosts.earlier takes).cell?_eq stored
      have points : Place.Points M st'.pool m' (.indirect s.asmName (some o.slot.asmName) o.holds)
          (Word.toSigned (m' s.address + m' o.slot.address)) :=
        .away base (fun free => kept (takes.free valid free)) (hosts.cell?_eq settled.stored)
          settled.kept
      rw [frame _ kept, holds] at points
      exact points

/-- The place of a slot that is no view is a cell, and nothing is emitted for it. -/
theorem place_ends_direct (valid : st.Valid) (usable : s.Usable st) (notLiteral : s.literal? = none)
    (notView : s.isView = false) :
    (place s line).Ends ctx st fun p code st' =>
      code = [] ∧ st' = st ∧ ∃ s₁ : Slot, p = .direct s₁ ∧ s₁.StoredIn st.table ∧ s₁.offset = none ∧
        ¬ st.pool.Free s₁.address ∧ (∀ m, s.cell m = s₁.address) ∧
        (s₁ = s ∨ s.offset ≠ none ∧ s₁.kind = .long) := by
  obtain ⟨stored, kept, -⟩ := usable.resolve_left (by simp [notLiteral])
  unfold place
  split
  · rename_i direct
    exact .pure ⟨rfl, rfl, s, rfl, stored, direct, kept, Slot.cell_direct direct, .inl rfl⟩
  · rename_i index offset kind
    refine .bind ((element_ends s index line).mono ?_)
    rintro e _ st ⟨rfl, rfl, mem, long, address⟩
    have storedIn : e.StoredIn st.table := .of_mem mem (by simp [long])
    exact .pure ⟨rfl, rfl, e, rfl, storedIn, valid.table.direct e mem,
      not_free_of_kind valid storedIn (by simp [long]),
      fun m => (Slot.cell_element offset kind m).trans address.symm, .inr ⟨by simp [offset], long⟩⟩
  · exact .fail _
  · exact .fail _
  · rename_i offset _ _ found _ _
    simp_all [Slot.isView]

/-- The place of a view is found through the cells that hold its address. -/
theorem place_ends_view (valid : st.Valid) (usable : s.Usable st) (isView : s.isView = true) :
    (place s line).Ends ctx st fun p code st' =>
      ∃ base name holds, p = .indirect base name holds ∧ st.Takes holds [] st' ∧
        ∀ {M : Machine} {m : Memory}, M.Hosts st' → M.Fixed m →
          ∃ m', M.Leads code none m m' ∧ st.Frame m m' ∧ p.Points M st'.pool m' (s.cell m) := by
  unfold place
  split
  · simp_all [Slot.isView]
  · simp_all [Slot.isView]
  · exact .fail _
  · exact .fail _
  · rename_i offset found notElement _ notConstant
    obtain ⟨stored, kept, away⟩ :=
      usable.resolve_left fun isLiteral => notConstant (Slot.kind_of_literal? isLiteral.1).1
    refine (placeThrough_ends valid stored kept ?_).mono ?_
    · rintro a rfl
      exact (away a found).2
    · rintro p code st' ⟨base, name, holds, rfl, takes, run⟩
      refine ⟨base, name, holds, rfl, takes, fun {M m} hosts fixed => ?_⟩
      obtain ⟨m', leads, frame, points⟩ := run hosts fixed
      refine ⟨m', leads, frame, ?_⟩
      cases offset with
      | dynamic a => simpa [Slot.cell_dynamic found] using points
      | fixed distance =>
        have notArray : s.kind ≠ .array := fun array => notElement distance array rfl
        simpa [Slot.cell_fixed found notArray] using points

/-! ## Cells -/

/-- A slot that is a cell already is named as it is. -/
theorem resolve_ends_direct (valid : st.Valid) (usable : s.Usable st)
    (notLiteral : s.literal? = none) (notView : s.isView = false) :
    (resolve s line).Ends ctx st fun o code st' =>
      code = [] ∧ st' = st ∧ o.holds = [] ∧ o.Settled st ∧ (∀ m, s.cell m = o.slot.address) ∧
        (o.slot = s ∨ s.offset ≠ none ∧ o.slot.kind = .long) := by
  obtain ⟨stored, -, -⟩ := usable.resolve_left (by simp [notLiteral])
  unfold resolve
  rw [if_neg fun found => stored.address_ne_nowhere valid.table found.2]
  refine .bind ((place_ends_direct valid usable notLiteral notView).mono ?_)
  rintro _ _ st ⟨rfl, rfl, s₁, rfl, stored₁, direct, kept, cell, same⟩
  exact .pure ⟨rfl, rfl, rfl, ⟨stored₁, direct, kept, .inl rfl⟩, cell, same⟩

/-- A view is loaded into a register. -/
theorem resolve_ends_view (valid : st.Valid) (usable : s.Usable st) (notLiteral : s.literal? = none)
    (isView : s.isView = true) :
    (resolve s line).Ends ctx st fun o code st' =>
      o.holds = [o.slot] ∧ o.Settled st' ∧ st.Takes o.holds [] st' ∧
        ∀ {M : Machine} {m : Memory}, M.Hosts st' → M.Fixed m → M.Clear m s →
          ∃ m', M.Leads code none m m' ∧ st.Frame m m' ∧ m' o.slot.address = m (s.cell m) := by
  obtain ⟨stored, -, -⟩ := usable.resolve_left (by simp [notLiteral])
  unfold resolve
  rw [if_neg fun found => stored.address_ne_nowhere valid.table found.2]
  refine .bind ((place_ends_view valid usable isView).mono ?_)
  rintro _ c₁ s₁ ⟨base, name, holds, rfl, takes, run⟩
  refine .bind (.holding ((allocate_ends takes.valid).mono ?_))
  rintro r _ s₂ ⟨takesR, rfl, -⟩
  have takesAll := (takes.trans takesR).release List.perm_append_comm
  have inHand : r.InHand (s₂.release holds) := .of_takes takesAll List.mem_cons_self
  refine .bind (.emit (.bind (.giveBack (.pure ⟨rfl, inHand.settled, takesAll, ?_⟩))))
  intro M m hosts fixed clear
  have hosts₂ : M.Hosts s₂ := ⟨hosts.valid, hosts.grows⟩
  obtain ⟨m₁, leads, frame, points⟩ := run (hosts₂.earlier takesR) fixed
  have same : m₁ (s.cell m) = m (s.cell m) :=
    frame _ (usable.not_free_cell valid (hosts₂.earlier (takes.trans takesR)) clear notLiteral)
  refine ⟨m₁.set r.address (m₁ (s.cell m)), ?_, ?_, by simp [Operand.ofRegister, same]⟩
  · simpa using leads.append (points.load (hosts.cell?_eq inHand.stored))
  · exact frame.trans (.set (free_of_takes valid takesAll List.mem_cons_self) _ _)

/-- A literal is brought into a constant or a register. -/
theorem resolve_ends_literal {w : Word} (valid : st.Valid) (isLiteral : s.literal? = some w) :
    (resolve s line).Ends ctx st fun o code st' =>
      st.Takes o.holds [] st' ∧ o.Settled st' ∧
        (o.slot.kind = .constant ∧ o.holds = [] ∨ o.slot.kind = .register ∧ o.holds = [o.slot]) ∧
        ∀ {M : Machine} {m : Memory}, M.Hosts st' → M.Fixed m →
          ∃ m', M.Leads code none m m' ∧ st.Frame m m' ∧ m' o.slot.address = w := by
  obtain ⟨constant, nowhere⟩ := Slot.kind_of_literal? (s := s) (by simp [isLiteral])
  have hasValue : s.constant? = some w := by simpa [Slot.literal?, nowhere] using isLiteral
  unfold resolve
  rw [if_pos ⟨constant, nowhere⟩, hasValue]
  exact literal_ends valid w line

/-- A slot is brought into a cell that holds what the slot stands for. -/
theorem resolve_ends (valid : st.Valid) (usable : s.Usable st) :
    (resolve s line).Ends ctx st fun o code st' =>
      st.Takes o.holds [] st' ∧ o.Settled st' ∧
        ∀ {M : Machine} {m : Memory}, M.Hosts st' → M.Fixed m → M.Clear m s →
          ∃ m', M.Leads code none m m' ∧ st.Frame m m' ∧ m' o.slot.address = s.value m := by
  cases isLiteral : s.literal? with
  | some value =>
    refine (resolve_ends_literal valid isLiteral).mono ?_
    rintro o code st' ⟨takes, settled, -, run⟩
    refine ⟨takes, settled, fun {M m} hosts fixed _ => ?_⟩
    simpa [Slot.value, isLiteral] using run hosts fixed
  | none =>
    have value : ∀ m, s.value m = m (s.cell m) := by simp [Slot.value, isLiteral]
    cases isView : s.isView with
    | true =>
      refine (resolve_ends_view valid usable isLiteral isView).mono ?_
      rintro o code st' ⟨-, settled, takes, run⟩
      refine ⟨takes, settled, fun {M m} hosts fixed clear => ?_⟩
      simpa [value] using run hosts fixed clear
    | false =>
      refine (resolve_ends_direct valid usable isLiteral isView).mono ?_
      rintro o _ st ⟨rfl, rfl, noHolds, settled, cell, -⟩
      refine ⟨noHolds ▸ .refl valid, settled, fun {M m} _ _ _ => ?_⟩
      exact ⟨m, .nil m, .refl st m, by rw [value, cell]⟩

/-- No address is taken from a constant. -/
theorem resolve_ends_constant (valid : st.Valid) (usable : s.Usable st) :
    (resolve s line).Ends ctx st fun _ _ _ => s.kind = .constant → s.offset = none := by
  cases offset : s.offset with
  | none => exact fun _ _ _ _ _ => rfl
  | some distance =>
    by_cases constant : s.kind = .constant
    · obtain ⟨stored, -, -⟩ := usable.resolve_left (by simp [offset])
      unfold resolve
      rw [if_neg fun found => stored.address_ne_nowhere valid.table found.2]
      refine .bind ?_
      unfold place
      simp only [offset, constant]
      exact .fail _
    · exact fun _ _ _ _ kind => absurd kind constant

end Codegen

end ContractCompiler
