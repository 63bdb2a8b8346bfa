import ContractCompiler.Pool
import ContractCompiler.Proofs.SlotTable

/-!
# Proofs.Pool — which registers are held

The pool changes in two ways only: `Pool.allocate` holds one register that was free, and `Pool.free`
gives one back. Neither changes what registers there are.
-/

namespace ContractCompiler.Pool

set_option autoImplicit false

variable {p p' : Pool} {a b : Int}

def slots (p : Pool) : List Slot := p.registers.map (·.slot)

def Holds (p : Pool) (a : Int) : Prop := ∃ r ∈ p.registers, r.slot.address = a ∧ r.held = true

def Free (p : Pool) (a : Int) : Prop := p.isRegister a = true ∧ ¬ p.Holds a

theorem isRegister_iff : p.isRegister a = true ↔ ∃ s ∈ p.slots, s.address = a := by
  simp [isRegister, slots]

theorem isRegister_of_slots (same : p'.slots = p.slots) : p'.isRegister a = p.isRegister a := by
  rw [Bool.eq_iff_iff, isRegister_iff, isRegister_iff, same]

theorem Holds.isRegister (held : p.Holds a) : p.isRegister a = true := by
  obtain ⟨r, listed, same, -⟩ := held
  exact isRegister_iff.2 ⟨r.slot, List.mem_map_of_mem listed, same⟩

@[simp] theorem slots_ofTable (t : SlotTable) : (ofTable t).slots = t.registers := by
  simp [slots, ofTable, SlotTable.registers, Function.comp_def]

theorem not_holds_ofTable (t : SlotTable) (a : Int) : ¬ (ofTable t).Holds a := by
  simp [Holds, ofTable]

/-! ## Taking a register -/

/-- The first free register is the one that is taken. -/
theorem takeFirst_eq_some {rs rs' : List Register} {s : Slot} (taken : takeFirst rs = some (s, rs')) :
    ∃ before after, rs = before ++ ⟨s, false⟩ :: after ∧ rs' = before ++ ⟨s, true⟩ :: after ∧
      ∀ r ∈ before, r.held = true := by
  induction rs generalizing rs' with
  | nil => cases taken
  | cons r rs ih =>
    rw [takeFirst] at taken
    split at taken
    · rename_i held
      obtain ⟨⟨s', rest⟩, found, same⟩ := Option.map_eq_some_iff.1 taken
      obtain ⟨rfl, rfl⟩ := Prod.mk.inj same
      obtain ⟨before, after, rfl, rfl, full⟩ := ih found
      exact ⟨r :: before, after, rfl, rfl, List.forall_mem_cons.2 ⟨held, full⟩⟩
    · rename_i free
      obtain ⟨rfl, rfl⟩ := Prod.mk.inj (Option.some.inj taken)
      obtain ⟨slot, held⟩ := r
      obtain rfl : held = false := by simpa using free
      exact ⟨[], rs, rfl, rfl, by simp⟩

variable {line : Nat} {s : Slot}

theorem allocate_takes (taken : p.allocate line = .ok (s, p')) :
    ∃ before after, p.registers = before ++ ⟨s, false⟩ :: after ∧
      p'.registers = before ++ ⟨s, true⟩ :: after := by
  unfold allocate at taken
  split at taken
  · rename_i found
    cases taken
    obtain ⟨before, after, old, new, -⟩ := takeFirst_eq_some found
    exact ⟨before, after, old, new⟩
  · cases taken

theorem allocate_slots (taken : p.allocate line = .ok (s, p')) : p'.slots = p.slots := by
  obtain ⟨before, after, old, new⟩ := allocate_takes taken
  simp [slots, old, new]

theorem allocate_mem (taken : p.allocate line = .ok (s, p')) : s ∈ p.slots := by
  obtain ⟨before, after, old, -⟩ := allocate_takes taken
  simp [slots, old]

theorem allocate_holds (taken : p.allocate line = .ok (s, p')) :
    p'.Holds a ↔ p.Holds a ∨ a = s.address := by
  obtain ⟨before, after, old, new⟩ := allocate_takes taken
  simp only [Holds, old, new, List.mem_append, List.mem_cons]
  constructor
  · rintro ⟨r, inBefore | rfl | inAfter, same, held⟩
    · exact .inl ⟨r, .inl inBefore, same, held⟩
    · exact .inr same.symm
    · exact .inl ⟨r, .inr (.inr inAfter), same, held⟩
  · rintro (⟨r, inBefore | rfl | inAfter, same, held⟩ | rfl)
    · exact ⟨r, .inl inBefore, same, held⟩
    · cases held
    · exact ⟨r, .inr (.inr inAfter), same, held⟩
    · exact ⟨_, .inr (.inl rfl), rfl, rfl⟩

/-- Where no two registers share an address, the one that is taken was free. -/
theorem allocate_free (nodup : (p.slots.map (·.address)).Nodup)
    (taken : p.allocate line = .ok (s, p')) : ¬ p.Holds s.address := by
  obtain ⟨before, after, old, -⟩ := allocate_takes taken
  simp only [slots, old, List.map_map, List.map_append, List.map_cons, Function.comp_def,
    List.nodup_append, List.nodup_cons, List.mem_map, List.mem_cons] at nodup
  rintro ⟨r, listed, same, held⟩
  rw [old] at listed
  rcases List.mem_append.1 listed with inBefore | inRest
  · exact nodup.2.2 _ ⟨r, inBefore, same⟩ _ (.inl rfl) rfl
  · rcases List.mem_cons.1 inRest with rfl | inAfter
    · cases held
    · exact nodup.2.1.1 ⟨r, inAfter, same⟩

/-! ## Giving a register back -/

/-- A register that is given back was held, and is free afterwards. -/
theorem release_eq_ok (given : p.release a line = .ok p') : p.Holds a ∧ p' = p.free a := by
  unfold release at given
  split at given
  · cases given
  · rename_i r found
    split at given
    · rename_i held
      cases given
      have same := List.find?_some found
      exact ⟨⟨r, List.mem_of_find?_eq_some found, by simpa using same, held⟩, rfl⟩
    · cases given

/-- Where no two registers share an address, one that is held can be given back. -/
theorem release_of_holds (nodup : (p.slots.map (·.address)).Nodup) (held : p.Holds a) (line : Nat) :
    p.release a line = .ok (p.free a) := by
  obtain ⟨r, listed, same, isHeld⟩ := held
  have found : p.registers.find? (·.slot.address == a) = some r := by
    cases found : p.registers.find? (·.slot.address == a) with
    | none => exact absurd (List.find?_eq_none.1 found r listed) (by simp [same])
    | some r' =>
      have same' : r'.slot.address = a := by simpa using List.find?_some found
      rw [slots, List.map_map] at nodup
      rw [List.inj_on_of_nodup_map nodup (List.mem_of_find?_eq_some found) listed
        (same'.trans same.symm)]
  simp [release, found, isHeld]

theorem releaseAll_eq_ok {rs : List Slot}
    (given : rs.foldlM (fun pool r => pool.release r.address line) p = .ok p') :
    p' = rs.foldl (fun pool r => pool.free r.address) p := by
  induction rs generalizing p with
  | nil => exact (Except.ok.inj given).symm
  | cons r rs ih =>
    rw [List.foldlM_cons] at given
    cases first : p.release r.address line with
    | error e =>
      rw [first] at given
      cases given
    | ok next =>
      rw [first] at given
      obtain ⟨-, rfl⟩ := release_eq_ok first
      exact ih given

theorem allocate_line {e : CompileError} (refused : p.allocate line = .error e) : e.line = line := by
  unfold allocate at refused
  split at refused
  · cases refused
  · cases refused
    rfl

theorem releaseAll_line {rs : List Slot} {e : CompileError}
    (refused : rs.foldlM (fun pool r => pool.release r.address line) p = .error e) : e.line = line := by
  induction rs generalizing p with
  | nil => cases refused
  | cons r rs ih =>
    rw [List.foldlM_cons] at refused
    cases first : p.release r.address line with
    | ok next =>
      rw [first] at refused
      exact ih refused
    | error e' =>
      rw [first] at refused
      cases refused
      unfold release at first
      repeat' split at first
      all_goals cases first <;> rfl

@[simp] theorem free_slots (p : Pool) (a : Int) : (p.free a).slots = p.slots := by
  simp only [slots, free, List.map_map]
  refine List.map_congr_left fun r _ => ?_
  simp only [Function.comp_apply]
  split <;> rfl

theorem free_holds : (p.free a).Holds b ↔ p.Holds b ∧ b ≠ a := by
  simp only [Holds, free, List.mem_map]
  constructor
  · rintro ⟨_, ⟨r, listed, rfl⟩, same, held⟩
    split at same
    · simp_all
    · rename_i other
      simp only [other, if_false] at held
      exact ⟨⟨r, listed, same, held⟩, fun h => other (same.trans h)⟩
  · rintro ⟨⟨r, listed, rfl, held⟩, other⟩
    exact ⟨r, ⟨r, listed, by simp [other]⟩, rfl, held⟩

/-- Registers that are held can be given back one after the other. -/
theorem releaseAll_of_holds {rs : List Slot} (distinct : (p.slots.map (·.address)).Nodup)
    (held : ∀ r ∈ rs, p.Holds r.address) (nodup : (rs.map (·.address)).Nodup) (line : Nat) :
    rs.foldlM (fun pool r => pool.release r.address line) p =
      .ok (rs.foldl (fun pool r => pool.free r.address) p) := by
  induction rs generalizing p with
  | nil => rfl
  | cons r rs ih =>
    obtain ⟨heldR, held⟩ := List.forall_mem_cons.1 held
    obtain ⟨apart, nodup⟩ := List.nodup_cons.1 nodup
    rw [List.foldlM_cons, release_of_holds distinct heldR line]
    refine ih (by rwa [free_slots]) (fun r' mem => free_holds.2 ⟨held r' mem, fun same => ?_⟩) nodup
    exact apart (List.mem_map.2 ⟨r', mem, same⟩)

end ContractCompiler.Pool
