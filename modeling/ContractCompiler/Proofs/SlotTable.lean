import ContractCompiler.Freeze
import ContractCompiler.Proofs.Word
import Mathlib.Data.List.Nodup

/-!
# Proofs.SlotTable — tables whose names and addresses tell the slots apart

A table is valid if the slots that have cells are numbered in the order in which they stand, struct
variables have no address, no two slots share a name in the code, and no stored slot is a view. In a
valid table a name and an address find the one slot that they belong to.

Two things happen to a table while code is made: a constant is stored, and the contents of a slot are
fixed. `SlotTable.Grows` is what both have in common, `SlotTable.Interns` is the first alone.
-/

namespace ContractCompiler

set_option autoImplicit false

/-- The slot is still the same, but its contents may have been fixed. -/
structure Slot.Becomes (s s' : Slot) : Prop where
  same : { s with contents := s'.contents } = s'
  kept : ∀ hex, s.contents = some hex → s'.contents = some hex

namespace Slot.Becomes

variable {s s' s'' : Slot}

theorem refl (s : Slot) : s.Becomes s := ⟨rfl, fun _ found => found⟩

theorem trans (first : s.Becomes s') (second : s'.Becomes s'') : s.Becomes s'' where
  same := by
    have := second.same
    rw [← first.same] at this
    exact this
  kept hex found := second.kept hex (first.kept hex found)

theorem address (b : s.Becomes s') : s'.address = s.address := by rw [← b.same]

theorem asmName (b : s.Becomes s') : s'.asmName = s.asmName := by rw [← b.same]

theorem kind (b : s.Becomes s') : s'.kind = s.kind := by rw [← b.same]

theorem scope (b : s.Becomes s') : s'.scope = s.scope := by rw [← b.same]

theorem size (b : s.Becomes s') : s'.size = s.size := by rw [← b.same]

theorem type (b : s.Becomes s') : s'.type = s.type := by rw [← b.same]

theorem contents_isSome (b : s.Becomes s') (fixed : s.contents.isSome = true) :
    s'.contents.isSome = true := by
  obtain ⟨hex, contents⟩ := Option.isSome_iff_exists.1 fixed
  rw [b.kept hex contents]
  rfl

end Slot.Becomes

namespace SlotTable

variable {t t' t'' : SlotTable} {s s' : Slot}

def registers (t : SlotTable) : List Slot := t.slots.filter (·.kind == .register)

theorem mem_registers : s ∈ t.registers ↔ s ∈ t.slots ∧ s.kind = .register := by
  simp [registers]

/-- Names and addresses tell the slots apart. -/
structure Valid (t : SlotTable) : Prop where
  addresses : (t.slots.filter (·.kind != .struct)).map (·.address) =
    (List.range t.next).map Int.ofNat
  nowhere : ∀ s ∈ t.slots, s.kind = .struct → s.address = Slot.nowhere
  names : (t.slots.map (·.asmName)).Nodup
  direct : ∀ s ∈ t.slots, s.offset = none

instance (t : SlotTable) : Decidable t.Valid :=
  decidable_of_iff
    ((t.slots.filter (·.kind != .struct)).map (·.address) = (List.range t.next).map Int.ofNat ∧
      (∀ s ∈ t.slots, s.kind = .struct → s.address = Slot.nowhere) ∧
      (t.slots.map (·.asmName)).Nodup ∧ ∀ s ∈ t.slots, s.offset = none)
    ⟨fun ⟨addresses, nowhere, names, direct⟩ => ⟨addresses, nowhere, names, direct⟩,
      fun valid => ⟨valid.addresses, valid.nowhere, valid.names, valid.direct⟩⟩

/-- Where no two slots share a name in the code, a name finds the slot that it belongs to. -/
theorem find?_eq_some_iff (names : (t.slots.map (·.asmName)).Nodup) {name : String} :
    t.find? name = some s ↔ s ∈ t.slots ∧ s.asmName = name := by
  constructor
  · exact fun found => ⟨List.mem_of_find?_eq_some found, by simpa using List.find?_some found⟩
  · rintro ⟨stored, rfl⟩
    cases found : t.find? s.asmName with
    | none => exact absurd (List.find?_eq_none.1 found s stored) (by simp)
    | some s' =>
      have sameName : s'.asmName = s.asmName := by simpa using List.find?_some found
      rw [List.inj_on_of_nodup_map names (List.mem_of_find?_eq_some found) stored sameName]

namespace Valid

variable (valid : t.Valid)
include valid

/-- What has a cell has an address among those given. -/
theorem address_lt (stored : s ∈ t.slots) (hasCell : s.kind ≠ .struct) :
    0 ≤ s.address ∧ s.address < t.next := by
  have listed : s.address ∈ (List.range t.next).map Int.ofNat := by
    rw [← valid.addresses]
    exact List.mem_map_of_mem (List.mem_filter.2 ⟨stored, by simpa using hasCell⟩)
  obtain ⟨n, below, same⟩ := List.mem_map.1 listed
  rw [← same]
  exact ⟨Int.natCast_nonneg n, Int.ofNat_lt.2 (List.mem_range.1 below)⟩

theorem address_ne_nowhere (stored : s ∈ t.slots) (hasCell : s.kind ≠ .struct) :
    s.address ≠ Slot.nowhere := by
  have := (valid.address_lt stored hasCell).1
  simp only [Slot.nowhere]
  omega

theorem kind_ne_struct (stored : s ∈ t.slots) (somewhere : s.address ≠ Slot.nowhere) :
    s.kind ≠ .struct := fun isStruct => somewhere (valid.nowhere s stored isStruct)

/-- An address belongs to one slot. -/
theorem eq_of_address (stored : s ∈ t.slots) (hasCell : s.kind ≠ .struct) (stored' : s' ∈ t.slots)
    (hasCell' : s'.kind ≠ .struct) (same : s.address = s'.address) : s = s' := by
  have nodup : ((t.slots.filter (·.kind != .struct)).map (·.address)).Nodup := by
    rw [valid.addresses]
    exact List.nodup_range.map fun _ _ => Int.ofNat.inj
  refine List.inj_on_of_nodup_map nodup (List.mem_filter.2 ⟨stored, ?_⟩)
    (List.mem_filter.2 ⟨stored', ?_⟩) same
  · simpa using hasCell
  · simpa using hasCell'

theorem eq_of_asmName (stored : s ∈ t.slots) (stored' : s' ∈ t.slots)
    (same : s.asmName = s'.asmName) : s = s' :=
  List.inj_on_of_nodup_map valid.names stored stored' same

/-- A name finds the slot that it belongs to. -/
theorem find?_eq (stored : s ∈ t.slots) : t.find? s.asmName = some s :=
  (find?_eq_some_iff valid.names).2 ⟨stored, rfl⟩

omit valid in
theorem get?_eq_some {a : Int} (found : t.get? a = some s) :
    s ∈ t.slots ∧ s.address = a ∧ a ≠ Slot.nowhere := by
  unfold get? at found
  split at found
  · cases found
  · exact ⟨List.mem_of_find?_eq_some found, by simpa using List.find?_some found, ‹_›⟩

/-- An address finds the slot that it belongs to. -/
theorem get?_address (stored : s ∈ t.slots) (hasCell : s.kind ≠ .struct) :
    t.get? s.address = some s := by
  have somewhere := valid.address_ne_nowhere stored hasCell
  unfold get?
  rw [if_neg somewhere]
  cases found : t.slots.find? (·.address == s.address) with
  | none => exact absurd (List.find?_eq_none.1 found s stored) (by simp)
  | some s' =>
    have stored' := List.mem_of_find?_eq_some found
    have sameAddress : s'.address = s.address := by simpa using List.find?_some found
    have hasCell' : s'.kind ≠ .struct := valid.kind_ne_struct stored' (sameAddress ▸ somewhere)
    rw [valid.eq_of_address stored' hasCell' stored hasCell sameAddress]

end Valid

/-! ## Storing a slot -/

theorem place_kind (t : SlotTable) (s : Slot) : (t.place s).kind = s.kind := by
  unfold place
  split <;> rfl

theorem place_name (t : SlotTable) (s : Slot) : (t.place s).name = s.name := by
  unfold place
  split <;> rfl

theorem place_asmName (t : SlotTable) (s : Slot) : (t.place s).asmName = s.asmName := by
  unfold place
  split <;> rfl

theorem place_offset (t : SlotTable) (s : Slot) : (t.place s).offset = s.offset := by
  unfold place
  split <;> rfl

theorem place_scope (t : SlotTable) (s : Slot) : (t.place s).scope = s.scope := by
  unfold place
  split <;> rfl

theorem find?_eq_none_iff {name : String} :
    t.find? name = none ↔ name ∉ t.slots.map (·.asmName) := by
  simp [find?]

/-- A slot under a name that is free keeps the table valid. -/
theorem Valid.push (valid : t.Valid) (free : t.find? s.asmName = none) (direct : s.offset = none)
    (nowhere : s.kind = .struct → s.address = Slot.nowhere) : (t.push s).Valid where
  addresses := by
    by_cases isStruct : s.kind = .struct
    · simp [SlotTable.push, place, isStruct, valid.addresses]
    · simp [SlotTable.push, place, isStruct, valid.addresses, List.range_succ]
  nowhere s' stored isStruct := by
    rcases List.mem_append.1 stored with old | new
    · exact valid.nowhere s' old isStruct
    · obtain rfl := List.mem_singleton.1 new
      rw [place_kind] at isStruct
      simp [place, isStruct, nowhere]
  names := by
    have absent := find?_eq_none_iff.1 free
    simp only [SlotTable.push, List.map_append, List.map_cons, List.map_nil, place_asmName]
    exact List.nodup_append.2 ⟨valid.names, List.nodup_singleton _, by
      rintro a old b new rfl
      exact absent (List.mem_singleton.1 new ▸ old)⟩
  direct s' stored := by
    rcases List.mem_append.1 stored with old | new
    · exact valid.direct s' old
    · rw [List.mem_singleton.1 new, place_offset, direct]

/-! ## Growth -/

/-- Every slot is still there, with the same registers and structs. -/
structure Grows (t t' : SlotTable) : Prop where
  slots : ∀ s ∈ t.slots, ∃ s' ∈ t'.slots, s.Becomes s'
  registers : t'.registers = t.registers
  structs : t'.structs = t.structs

namespace Grows

theorem refl (t : SlotTable) : t.Grows t :=
  ⟨fun s stored => ⟨s, stored, .refl s⟩, rfl, rfl⟩

theorem trans (first : t.Grows t') (second : t'.Grows t'') : t.Grows t'' where
  slots s stored := by
    obtain ⟨s', stored', becomes⟩ := first.slots s stored
    obtain ⟨s'', stored'', becomes'⟩ := second.slots s' stored'
    exact ⟨s'', stored'', becomes.trans becomes'⟩
  registers := second.registers.trans first.registers
  structs := second.structs.trans first.structs

/-- What is stored under a name stays there. -/
theorem becomes (grows : t.Grows t') (valid : t'.Valid) (stored : s ∈ t.slots)
    (stored' : s' ∈ t'.slots) (same : s.asmName = s'.asmName) : s.Becomes s' := by
  obtain ⟨s₁, stored₁, becomes⟩ := grows.slots s stored
  obtain rfl := valid.eq_of_asmName stored₁ stored' (becomes.asmName.trans same)
  exact becomes

end Grows

/-- Some constants were stored, and nothing else happened. -/
structure Interns (t t' : SlotTable) : Prop where
  slots : ∃ kept, t'.slots = t.slots ++ kept ∧
    ∀ s ∈ kept, s.kind = .constant ∧ s.scope = Slot.globalScope
  structs : t'.structs = t.structs

namespace Interns

theorem refl (t : SlotTable) : t.Interns t := ⟨⟨[], by simp⟩, rfl⟩

theorem trans (first : t.Interns t') (second : t'.Interns t'') : t.Interns t'' where
  slots := by
    obtain ⟨kept, slots, constants⟩ := first.slots
    obtain ⟨kept', slots', constants'⟩ := second.slots
    refine ⟨kept ++ kept', by rw [slots', slots, List.append_assoc], fun s listed => ?_⟩
    rcases List.mem_append.1 listed with old | new
    · exact constants s old
    · exact constants' s new
  structs := second.structs.trans first.structs

theorem mem (interns : t.Interns t') (stored : s ∈ t.slots) : s ∈ t'.slots := by
  obtain ⟨kept, slots, -⟩ := interns.slots
  rw [slots]
  exact List.mem_append_left _ stored

theorem grows (interns : t.Interns t') : t.Grows t' where
  slots s stored := ⟨s, interns.mem stored, .refl s⟩
  registers := by
    obtain ⟨kept, slots, constants⟩ := interns.slots
    have none : kept.filter (·.kind == .register) = [] :=
      List.filter_eq_nil_iff.2 fun s listed => by simp [(constants s listed).1]
    simp [SlotTable.registers, slots, none]
  structs := interns.structs

end Interns

/-! ## Constants -/

theorem interned?_eq_some {value : Word} (found : t.interned? value = some s) :
    s ∈ t.slots ∧ s.kind = .constant ∧ s.asmName = constantName value ∧ s.contents = some value.toHex := by
  have holds := List.find?_some found
  simp only [Bool.and_eq_true, beq_iff_eq] at holds
  exact ⟨List.mem_of_find?_eq_some found, holds.1.1, holds.1.2, holds.2⟩

def keptSlot (value : Word) : Slot := { Slot.literal value with asmName := constantName value }

theorem place_keptSlot (t : SlotTable) (value : Word) : (t.place (keptSlot value)).kind = .constant ∧
    (t.place (keptSlot value)).asmName = constantName value ∧
      (t.place (keptSlot value)).contents = some value.toHex := by
  unfold place
  split <;> exact ⟨rfl, rfl, rfl⟩

/-- Asking for a constant gives nothing, what is already kept, or a new slot. -/
theorem intern_eq (t : SlotTable) (value : Word) (ceiling : Nat) :
    (t.intern value ceiling = (t, none) ∧ (value = 0 ∨ t.interned? value = none ∧
      (ceiling ≤ t.internedCount ∨ (t.find? (constantName value)).isSome = true))) ∨
    (value ≠ 0 ∧ ∃ s, t.interned? value = some s ∧ t.intern value ceiling = (t, some s)) ∨
    (value ≠ 0 ∧ t.internedCount < ceiling ∧ t.find? (constantName value) = none ∧
      t.intern value ceiling = (t.push (keptSlot value), some (t.place (keptSlot value)))) := by
  unfold intern
  split
  · exact .inl ⟨rfl, .inl ‹_›⟩
  · rename_i notZero
    cases found : t.interned? value with
    | some s => exact .inr (.inl ⟨notZero, s, rfl, rfl⟩)
    | none =>
      dsimp only
      split
      · rename_i full
        exact .inl ⟨rfl, .inr ⟨rfl, by simpa using full⟩⟩
      · rename_i room
        simp only [Bool.or_eq_true, decide_eq_true_eq, not_or, Bool.not_eq_true,
          Option.isSome_eq_false_iff, Option.isNone_iff_eq_none] at room
        exact .inr (.inr ⟨notZero, by omega, room.2, rfl⟩)

theorem interns_intern (t : SlotTable) (value : Word) (ceiling : Nat) :
    t.Interns (t.intern value ceiling).1 := by
  rcases t.intern_eq value ceiling with ⟨same, -⟩ | ⟨-, s, -, same⟩ | ⟨-, -, -, same⟩ <;> rw [same]
  · exact .refl t
  · exact .refl t
  · refine ⟨⟨[_], rfl, List.forall_mem_singleton.2 ⟨(t.place_keptSlot value).1, ?_⟩⟩, rfl⟩
    rw [place_scope]
    rfl

theorem Valid.intern (valid : t.Valid) (value : Word) (ceiling : Nat) :
    (t.intern value ceiling).1.Valid := by
  rcases t.intern_eq value ceiling with ⟨same, -⟩ | ⟨-, s, -, same⟩ | ⟨-, -, free, same⟩ <;> rw [same]
  · exact valid
  · exact valid
  · exact valid.push free rfl (by simp [keptSlot, Slot.literal, Slot.fresh])

/-- The slot that interning gives is stored and keeps the constant. -/
theorem intern_some {value : Word} {ceiling : Nat} {t' : SlotTable}
    (kept : t.intern value ceiling = (t', some s)) :
    s ∈ t'.slots ∧ s.kind = .constant ∧ s.asmName = constantName value ∧ s.contents = some value.toHex := by
  rcases t.intern_eq value ceiling with ⟨same, -⟩ | ⟨-, s', found, same⟩ | ⟨-, -, -, same⟩ <;>
    cases same.symm.trans kept
  · exact interned?_eq_some found
  · exact ⟨List.mem_append_right _ (List.mem_singleton_self _), t.place_keptSlot value⟩

/-! ## Fixed contents -/

theorem map_filter_modifyFirst {α : Type} {p q : Slot → Bool} {f : Slot → Slot} (g : Slot → α)
    (sameTest : ∀ s, q (f s) = q s) (sameImage : ∀ s, g (f s) = g s) (slots : List Slot) :
    ((modifyFirst p f slots).filter q).map g = (slots.filter q).map g := by
  induction slots with
  | nil => rfl
  | cons s slots ih =>
    rw [modifyFirst]
    split
    · cases passes : q s <;> simp [sameTest, sameImage, passes]
    · cases passes : q s <;> simp [passes, ih]

/-- A slot after the first match of `p` was changed is unchanged, or it was the match. -/
theorem mem_modifyFirst {p : Slot → Bool} {f : Slot → Slot} {slots : List Slot}
    (stored : s ∈ modifyFirst p f slots) : s ∈ slots ∨ ∃ s₀ ∈ slots, s = f s₀ := by
  induction slots with
  | nil => cases stored
  | cons s₁ slots ih =>
    rw [modifyFirst] at stored
    split at stored
    · rcases List.mem_cons.1 stored with rfl | rest
      · exact .inr ⟨s₁, List.mem_cons_self, rfl⟩
      · exact .inl (List.mem_cons_of_mem _ rest)
    · rcases List.mem_cons.1 stored with rfl | rest
      · exact .inl List.mem_cons_self
      · rcases ih rest with old | ⟨s₀, old, rfl⟩
        · exact .inl (List.mem_cons_of_mem _ old)
        · exact .inr ⟨s₀, List.mem_cons_of_mem _ old, rfl⟩

/-- A slot before the first match of `p` is changed stays, or it is the match. -/
theorem mem_modifyFirst_of_mem {p : Slot → Bool} {f : Slot → Slot} {slots : List Slot}
    (stored : s ∈ slots) :
    s ∈ modifyFirst p f slots ∨ slots.find? p = some s ∧ f s ∈ modifyFirst p f slots := by
  induction slots with
  | nil => cases stored
  | cons s₁ slots ih =>
    rw [modifyFirst]
    by_cases passes : p s₁
    · rcases List.mem_cons.1 stored with rfl | rest
      · simp [passes]
      · simp [passes, rest]
    · rcases List.mem_cons.1 stored with rfl | rest
      · simp [passes]
      · rcases ih rest with old | ⟨found, changed⟩
        · simp [passes, old]
        · simp [passes, found, changed]

/-- The first match of `p` is changed. -/
theorem mem_modifyFirst_of_find? {p : Slot → Bool} {f : Slot → Slot} {slots : List Slot}
    (found : slots.find? p = some s) : f s ∈ modifyFirst p f slots := by
  induction slots with
  | nil => cases found
  | cons s₁ slots ih =>
    by_cases passes : p s₁
    · obtain rfl : s₁ = s := by simpa [passes] using found
      simp [modifyFirst, passes]
    · have later : slots.find? p = some s := by simpa [passes] using found
      simp [modifyFirst, passes, ih later]

theorem Valid.setContents (valid : t.Valid) (name : String) (contents : Option String) :
    (t.setContents name contents).Valid where
  addresses := by
    rw [SlotTable.setContents, map_filter_modifyFirst]
    · exact valid.addresses
    · intro _
      rfl
    · intro _
      rfl
  nowhere s stored isStruct := by
    rcases mem_modifyFirst stored with old | ⟨s₀, old, rfl⟩
    · exact valid.nowhere s old isStruct
    · exact valid.nowhere s₀ old isStruct
  names := by
    have same := map_filter_modifyFirst (p := (·.asmName == name))
      (q := fun _ => true) (f := fun s => { s with contents := contents }) (·.asmName)
      (fun _ => rfl) (fun _ => rfl) t.slots
    rw [List.filter_eq_self.2 (by simp), List.filter_eq_self.2 (by simp)] at same
    exact same ▸ valid.names
  direct s stored := by
    rcases mem_modifyFirst stored with old | ⟨s₀, old, rfl⟩
    · exact valid.direct s old
    · exact valid.direct s₀ old

/-- Fixing the contents of a variable that has none yet. -/
theorem grows_setContents {name : String} (found : t.find? name = some s)
    (variable_ : s.kind ≠ .register) (open_ : s.contents = none) (contents : Option String) :
    t.Grows (t.setContents name contents) where
  slots s₀ stored := by
    rcases mem_modifyFirst_of_mem (p := (·.asmName == name))
      (f := fun s => { s with contents := contents }) stored with old | ⟨first, changed⟩
    · exact ⟨s₀, old, .refl s₀⟩
    · obtain rfl : s = s₀ := Option.some.inj (found.symm.trans first)
      exact ⟨_, changed, rfl, by simp [open_]⟩
  registers := by
    unfold find? at found
    show (modifyFirst _ _ t.slots).filter _ = t.slots.filter _
    generalize t.slots = slots at found
    induction slots with
    | nil => rfl
    | cons s₁ slots ih =>
      by_cases isFirst : s₁.asmName == name
      · obtain rfl : s₁ = s := by simpa [isFirst] using found
        have notRegister : (s₁.kind == .register) = false := by simpa using variable_
        simp [modifyFirst, isFirst, notRegister]
      · simp only [isFirst, List.find?_cons] at found
        have same := ih found
        simp only [modifyFirst, isFirst, Bool.false_eq_true, if_false, List.filter_cons, same]
  structs := rfl

end SlotTable

end ContractCompiler
