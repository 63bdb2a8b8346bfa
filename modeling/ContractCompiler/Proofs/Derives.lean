import ContractCompiler.Proofs.Freeze
import ContractCompiler.Proofs.Layout

/-!
# Proofs.Derives — the tables that a laid out table can become

While code is made, the contents of variables are fixed and constants are stored, and nothing else
happens to the table (`SlotTable.Derives`). So what the layout of a contract provides is still there in
every table that derives from it: arrays and constants have contents, and struct variables have their
members.
-/

namespace ContractCompiler

set_option autoImplicit false

namespace SlotTable

variable {t t' t'' : SlotTable} {s : Slot}

/-- The slot keeps a constant. -/
def IsKept (s : Slot) : Prop :=
  ∃ value, s.kind = .constant ∧ s.asmName = constantName value ∧ s.contents = some value.toHex

namespace IsKept

theorem kind (kept : IsKept s) : s.kind = .constant := by
  obtain ⟨value, constant, -⟩ := kept
  exact constant

theorem becomes {s' : Slot} (kept : IsKept s) (becomes : s.Becomes s') : IsKept s' := by
  obtain ⟨value, constant, name, contents⟩ := kept
  exact ⟨value, becomes.kind.trans constant, becomes.asmName.trans name, becomes.kept _ contents⟩

end IsKept

/-- Every slot is one of the earlier table, perhaps with contents that were fixed since, or keeps a
constant. -/
structure Derives (t t' : SlotTable) : Prop where
  grows : t.Grows t'
  origin : ∀ s' ∈ t'.slots, (∃ s ∈ t.slots, s.Becomes s') ∨ IsKept s'

namespace Derives

theorem refl (t : SlotTable) : t.Derives t :=
  ⟨.refl t, fun s stored => .inl ⟨s, stored, .refl s⟩⟩

theorem trans (first : t.Derives t') (second : t'.Derives t'') : t.Derives t'' where
  grows := first.grows.trans second.grows
  origin s'' stored := by
    rcases second.origin s'' stored with ⟨s', stored', becomes'⟩ | kept
    · rcases first.origin s' stored' with ⟨s, stored, becomes⟩ | kept
      · exact .inl ⟨s, stored, becomes.trans becomes'⟩
      · exact .inr (kept.becomes becomes')
    · exact .inr kept

theorem intern (t : SlotTable) (value : Word) (ceiling : Nat) : t.Derives (t.intern value ceiling).1 where
  grows := (t.interns_intern value ceiling).grows
  origin s stored := by
    rcases t.intern_eq value ceiling with ⟨same, -⟩ | ⟨-, s', -, same⟩ | ⟨-, -, -, same⟩ <;> rw [same] at stored
    · exact .inl ⟨s, stored, .refl s⟩
    · exact .inl ⟨s, stored, .refl s⟩
    · rcases List.mem_append.1 stored with old | new
      · exact .inl ⟨s, old, .refl s⟩
      · rw [List.mem_singleton.1 new]
        exact .inr ⟨value, t.place_keptSlot value⟩

theorem setContents {name : String} (valid : t.Valid) (found : t.find? name = some s)
    (notRegister : s.kind ≠ .register) (unset : s.contents = none) (contents : Option String) :
    t.Derives (t.setContents name contents) where
  grows := grows_setContents found notRegister unset contents
  origin s' stored := by
    have grows := grows_setContents found notRegister unset contents
    have valid' := valid.setContents name contents
    rcases mem_modifyFirst stored with old | ⟨s₀, old, rfl⟩
    · exact .inl ⟨s', old, grows.becomes valid' old stored rfl⟩
    · exact .inl ⟨s₀, old, grows.becomes valid' old stored rfl⟩

end Derives

/-! ## What a layout provides -/

/-- Struct variables keep their members. -/
theorem Derives.hasMembers (derives : t.Derives t')
    (has : ∀ s ∈ t.slots, s.kind = .struct → t.HasMembers s) (stored : s ∈ t'.slots)
    (isStruct : s.kind = .struct) : t'.HasMembers s := by
  rcases derives.origin s stored with ⟨s₀, stored₀, becomes⟩ | kept
  · intro tag members type known m listed
    rw [members?, derives.grows.structs] at known
    obtain ⟨e, storedE, long, name⟩ := has s₀ stored₀ (becomes.kind ▸ isStruct) tag members
      (becomes.type ▸ type) known m listed
    obtain ⟨e', storedE', becomesE⟩ := derives.grows.slots e storedE
    exact ⟨e', storedE', becomesE.kind.trans long, by rw [becomesE.asmName, becomes.asmName, name]⟩
  · simp [kept.kind] at isStruct

namespace Laid

variable {l : SlotTable} (laid : l.Laid) (derives : l.Derives t)
include laid derives

/-- Arrays hold the address of their elements, and constants their value. -/
theorem contents_eq (stored : s ∈ t.slots) (kind : s.kind = .array ∨ s.kind = .constant) :
    ∃ w : Word, s.contents = some w.toHex := by
  rcases derives.origin s stored with ⟨s₀, stored₀, becomes⟩ | ⟨value, -, -, contents⟩
  · rw [becomes.kind] at kind
    rcases kind with array | constant
    · obtain ⟨first, contents, -⟩ := laid.arrays s₀ stored₀ array
      exact ⟨_, becomes.kept _ contents⟩
    · exact absurd constant (laid.noConstants s₀ stored₀)
  · exact ⟨value, contents⟩

/-- What a legible line loads is the text of a word. -/
theorem constantLoad_isText {line : Nat} {i : Instr} {dest hex : String}
    (loads : t.constantLoad line i = .ok (dest, hex)) (legible : i.isLegible = true) :
    Word.isText hex = true := by
  cases i with
  | setLiteral _ _ =>
    cases loads
    exact legible
  | clear _ =>
    cases loads
    exact Word.isText_toHex 0
  | set _ src =>
    rw [constantLoad] at loads
    split at loads
    · rename_i source found
      split at loads
      · rename_i constant
        obtain ⟨w, contents⟩ := laid.contents_eq derives (List.mem_of_find?_eq_some found) (.inr constant)
        rw [contents] at loads
        cases loads
        exact Word.isText_toHex w
      · cases loads
    · cases loads
  | _ => cases loads

end Laid

/-! ## Fixed contents -/

/-- The contents of the variable of that name are fixed. -/
def IsFixed (t : SlotTable) (name : String) : Prop :=
  ∃ s ∈ t.slots, s.asmName = name ∧ s.contents.isSome = true

/-- The contents of the variable of that name were fixed by a phrase. -/
def IsFilled (t : SlotTable) (name : String) : Prop :=
  ∃ s ∈ t.slots, s.asmName = name ∧ s.contents.isSome = true ∧ s.kind ≠ .array ∧ s.kind ≠ .constant

theorem IsFilled.isFixed {name : String} (filled : t.IsFilled name) : t.IsFixed name := by
  obtain ⟨s, stored, same, contents, -⟩ := filled
  exact ⟨s, stored, same, contents⟩

theorem Grows.isFixed (grows : t.Grows t') {name : String} (fixed : t.IsFixed name) : t'.IsFixed name := by
  obtain ⟨s, stored, same, contents⟩ := fixed
  obtain ⟨s', stored', becomes⟩ := grows.slots s stored
  exact ⟨s', stored', becomes.asmName.trans same, becomes.contents_isSome contents⟩

theorem Grows.isFilled (grows : t.Grows t') {name : String} (filled : t.IsFilled name) :
    t'.IsFilled name := by
  obtain ⟨s, stored, same, contents, notArray, notConstant⟩ := filled
  obtain ⟨s', stored', becomes⟩ := grows.slots s stored
  exact ⟨s', stored', becomes.asmName.trans same, becomes.contents_isSome contents,
    becomes.kind ▸ notArray, becomes.kind ▸ notConstant⟩

/-- The lines fix different variables, none of which was fixed before. -/
def FixesOnce (t : SlotTable) (code : List Instr) (t' : SlotTable) : Prop :=
  (Instr.fixes code).Nodup ∧ ∀ x ∈ Instr.fixes code, ¬ t.IsFixed x ∧ t'.IsFilled x

namespace FixesOnce

variable {code code' : List Instr}

theorem of_none (none : Instr.fixes code = []) : t.FixesOnce code t' := by
  rw [FixesOnce, none]
  exact ⟨List.nodup_nil, nofun⟩

theorem append (first : t.FixesOnce code t') (second : t'.FixesOnce code' t'') (grows : t.Grows t')
    (grows' : t'.Grows t'') : t.FixesOnce (code ++ code') t'' := by
  rw [FixesOnce, Instr.fixes_append]
  refine ⟨List.nodup_append.2 ⟨first.1, second.1, ?_⟩, List.forall_mem_append.2 ⟨?_, ?_⟩⟩
  · intro x mem y mem' same
    exact (second.2 y mem').1 (same ▸ (first.2 x mem).2.isFixed)
  · exact fun x mem => ⟨(first.2 x mem).1, grows'.isFilled (first.2 x mem).2⟩
  · exact fun x mem => ⟨fun fixed => (second.2 x mem).1 (grows.isFixed fixed), (second.2 x mem).2⟩

end FixesOnce

/-- Fixing a variable that has no contents. -/
theorem Laid.setContents {l : SlotTable} (laid : l.Laid) (derives : l.Derives t) (valid : t.Valid)
    {dest hex : String} (found : t.find? dest = some s) (unset : s.contents = none) :
    t.FixesOnce [.constSet dest hex] (t.setContents dest (some hex)) := by
  have stored : s ∈ t.slots := List.mem_of_find?_eq_some found
  have isDest : s.asmName = dest := by simpa using List.find?_some found
  have notKept : ¬ (s.kind = .array ∨ s.kind = .constant) := by
    intro kind
    obtain ⟨w, contents⟩ := laid.contents_eq derives stored kind
    simp [unset] at contents
  have changed : { s with contents := some hex } ∈ (t.setContents dest (some hex)).slots :=
    mem_modifyFirst_of_find? found
  refine ⟨List.nodup_singleton dest, List.forall_mem_singleton.2 ⟨?_, ?_⟩⟩
  · rintro ⟨s', stored', same, contents⟩
    obtain rfl := valid.eq_of_asmName stored' stored (same.trans isDest.symm)
    simp [unset] at contents
  · exact ⟨_, changed, isDest, rfl, fun array => notKept (.inl array),
      fun constant => notKept (.inr constant)⟩

/-- Fixing the variables that some lines load. -/
theorem Laid.freeze {l : SlotTable} (laid : l.Laid) (derives : l.Derives t) (valid : t.Valid)
    {line : Nat} {code directives : List Instr} (frozen : (t.freeze line code).2 = .ok directives) :
    t.Derives (t.freeze line code).1 ∧ t.FixesOnce directives (t.freeze line code).1 ∧
      ((∀ i ∈ code, i.isLegible = true) → ∀ i ∈ directives, i.isLegible = true) := by
  induction code generalizing t directives with
  | nil =>
    cases frozen
    exact ⟨.refl t, .of_none rfl, id⟩
  | cons i code ih =>
    obtain ⟨t₁, directive, rest, first, frozenRest, rfl, same⟩ := freeze_cons_eq_ok frozen
    obtain ⟨dest, hex, s, loads, found, notRegister, unset, rfl, rfl⟩ := freezeOne_eq_ok first
    have one : t.Derives (t.setContents dest (some hex)) :=
      .setContents valid found notRegister unset _
    have fixes : t.FixesOnce [.constSet dest hex] _ := laid.setContents derives valid found unset
    obtain ⟨others, fixesRest, legibleRest⟩ := ih (derives.trans one) (valid.setContents _ _) frozenRest
    rw [same]
    refine ⟨one.trans others, fixes.append fixesRest one.grows others.grows, fun legible => ?_⟩
    obtain ⟨legible, others⟩ := List.forall_mem_cons.1 legible
    exact List.forall_mem_cons.2 ⟨laid.constantLoad_isText derives loads legible, legibleRest others⟩

end SlotTable

end ContractCompiler
