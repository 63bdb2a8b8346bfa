import ContractCompiler.Proofs.Memory
import ContractCompiler.Proofs.Pool
import ContractCompiler.Proofs.Variation

/-!
# Proofs.Variation.Table — tables with more registers

With more registers a table begins with more slots, and all the others are images of what stood there
before (`Variation.Tables`). What is found in one table has its image found in the other, and storing a
constant or fixing a variable keeps the tables so. The added registers are never held (`Variation.Pools`),
since the lowest free register is taken first.

A check of one compilation is related to one of the other by `Variation.Outcomes`: where the first
passes, so does the second. With added registers the second may pass alone; without them, it fails as the
first does.
-/

namespace ContractCompiler

set_option autoImplicit false

namespace Variation

variable {v : Variation} {α β γ δ : Type}

/-! ## Checks -/

/-- Where the first check passes, so does the second. Without added registers both fail alike. -/
def Outcomes (v : Variation) (R : α → β → Prop) : Outcome α → Outcome β → Prop
  | .ok a, x' => ∃ a', x' = .ok a' ∧ R a a'
  | .error e, x' => v.extra = 0 → x' = .error e

namespace Outcomes

variable {R : α → β → Prop} {S : γ → δ → Prop} {x : Outcome α} {x' : Outcome β}

theorem ok {a : α} {a' : β} (related : R a a') : v.Outcomes R (.ok a) (.ok a') := ⟨a', rfl, related⟩

theorem error (e : CompileError) : v.Outcomes R (.error e) (.error e) := fun _ => rfl

theorem bind {f : α → Outcome γ} {f' : β → Outcome δ} (first : v.Outcomes R x x')
    (rest : ∀ a a', R a a' → v.Outcomes S (f a) (f' a')) : v.Outcomes S (x >>= f) (x' >>= f') := by
  cases x with
  | ok a =>
    obtain ⟨a', rfl, related⟩ := first
    exact rest a a' related
  | error e =>
    intro none
    rw [first none]
    rfl

/-- A check that only refuses. -/
theorem guard {c : Prop} [Decidable c] {e : CompileError} {f : PUnit → Outcome γ} {f' : PUnit → Outcome δ}
    (rest : v.Outcomes S (f ()) (f' ())) :
    v.Outcomes S (if c then throw e >>= f else f ()) (if c then throw e >>= f' else f' ()) := by
  split
  · exact fun _ => rfl
  · exact rest

/-- What the first check ensures may be used. -/
theorem ensured {P : α → Prop} (related : v.Outcomes R x x') (ensures : Outcome.Ensures x P) :
    v.Outcomes (fun a a' => R a a' ∧ P a) x x' := by
  cases x with
  | ok a =>
    obtain ⟨a', same, holds⟩ := related
    exact ⟨a', same, holds, ensures a rfl⟩
  | error e => exact related

theorem refl (x : Outcome α) : v.Outcomes Eq x x := by
  cases x with
  | ok a => exact ok rfl
  | error e => exact error e

theorem foldlM {f : β → α → Outcome β} {f' : δ → α → Outcome δ} {S : β → δ → Prop} (l : List α)
    (step : ∀ b b' a, S b b' → v.Outcomes S (f b a) (f' b' a)) {b : β} {b' : δ} (related : S b b') :
    v.Outcomes S (l.foldlM f b) (l.foldlM f' b') := by
  induction l generalizing b b' with
  | nil => exact ok related
  | cons a l ih =>
    rw [List.foldlM_cons, List.foldlM_cons]
    exact .bind (step b b' a related) fun _ _ related => ih related

end Outcomes

/-! ## Tables -/

open SlotTable (registerName registerSlot constantName)

/-- A slot behind the registers. -/
structure Moved (v : Variation) (s : Slot) : Prop where
  kind : s.kind ≠ .register
  name : ∀ n, s.asmName ≠ registerName n
  address : s.address = Slot.nowhere ∨ (v.registers : Int) ≤ s.address
  contents : s.kind = .array → s.contents.isSome = true

/-- A table of the first compilation and that of the second. -/
structure Tables (v : Variation) (t t' : SlotTable) : Prop where
  slots : ∃ rest, t.slots = (List.range v.registers).map registerSlot ++ rest ∧
    t'.slots = (List.range (v.registers + v.extra)).map registerSlot ++ rest.map v.slot ∧
    ∀ s ∈ rest, v.Moved s
  next : t'.next = t.next + v.extra
  reached : v.registers ≤ t.next
  structs : t'.structs = t.structs

theorem Tables.ofRegisters (v : Variation) :
    v.Tables (.ofRegisters v.registers) (.ofRegisters (v.registers + v.extra)) := by
  rw [SlotTable.ofRegisters_eq, SlotTable.ofRegisters_eq]
  exact ⟨⟨[], by simp, by simp, by simp⟩, rfl, Nat.le_refl _, rfl⟩

theorem range_registerSlot (v : Variation) :
    ∃ added : List Slot, (List.range (v.registers + v.extra)).map registerSlot =
      ((List.range v.registers).map registerSlot).map v.slot ++ added ∧
      ∀ s ∈ added, ∃ n, v.registers ≤ n ∧ n < v.registers + v.extra ∧ s = registerSlot n := by
  refine ⟨(List.range v.extra).map fun i => registerSlot (v.registers + i), ?_, ?_⟩
  · have same : ((List.range v.registers).map registerSlot).map v.slot =
        (List.range v.registers).map registerSlot := by
      rw [List.map_map]
      exact List.map_congr_left fun n inside => v.slot_registerSlot (List.mem_range.1 inside)
    rw [same, List.range_add, List.map_append, List.map_map]
    rfl
  · intro s mem
    obtain ⟨i, inside, rfl⟩ := List.mem_map.1 mem
    have := List.mem_range.1 inside
    exact ⟨v.registers + i, by omega, by omega, rfl⟩

namespace Tables

variable {t t' : SlotTable} {s : Slot} {name : String} (tables : v.Tables t t')
include tables

/-- What is found in the first table has its image found in the second, if no added register is in the
way. -/
theorem slots_find? {p p' : Slot → Bool} (same : ∀ s, p' (v.slot s) = p s)
    (added : ∀ n, v.registers ≤ n → n < v.registers + v.extra → p' (registerSlot n) = false) :
    t'.slots.find? p' = (t.slots.find? p).map v.slot := by
  obtain ⟨rest, slots, slots', -⟩ := tables.slots
  obtain ⟨extra, registers, isAdded⟩ := v.range_registerSlot
  have mapped : ∀ l : List Slot, (l.map v.slot).find? p' = (l.find? p).map v.slot := by
    intro l
    rw [List.find?_map]
    congr 2
    exact funext same
  have absent : extra.find? p' = none := by
    refine List.find?_eq_none.2 fun s mem => ?_
    obtain ⟨n, above, below, rfl⟩ := isAdded s mem
    simp [added n above below]
  rw [slots, slots', registers, List.find?_append, List.find?_append, List.find?_append, mapped, mapped,
    absent, Option.or_none, Option.map_or]

theorem get? (a : Int) : t'.get? (v.address a) = (t.get? a).map v.slot := by
  unfold SlotTable.get?
  simp only [address_eq_nowhere]
  split
  · rfl
  · refine tables.slots_find? (fun s => ?_) fun n above below => ?_
    · simp [Bool.beq_eq_decide_eq]
    · exact beq_false_of_ne (address_not_added above below).symm

/-- A name that is no register's. -/
theorem find? (noRegister : ∀ n, name ≠ registerName n) : t'.find? name = (t.find? name).map v.slot := by
  refine tables.slots_find? (fun s => rfl) fun n _ _ => ?_
  simpa [registerSlot, Slot.fresh] using (noRegister n).symm

theorem inScope? (scope : String) : t'.inScope? name scope = (t.inScope? name scope).map v.slot :=
  tables.slots_find? (fun _ => rfl) fun _ _ _ => by simp [registerSlot, Slot.fresh]

theorem lookup? (function : Option String) :
    t'.lookup? name function = (t.lookup? name function).map v.slot := by
  unfold SlotTable.lookup?
  rw [tables.inScope?, Option.map_or]
  cases function with
  | none => rfl
  | some f => rw [Option.bind_some, Option.bind_some, tables.inScope?]

theorem interned? (value : Word) : t'.interned? value = (t.interned? value).map v.slot := by
  refine tables.slots_find? (fun s => ?_) fun _ _ _ => by simp [registerSlot, Slot.fresh]
  by_cases isConstant : s.kind = .constant
  · rw [v.slot_contents (by simp [isConstant])]
    rfl
  · have notConstant : (s.kind == .constant) = false := beq_false_of_ne isConstant
    simp only [slot_kind, notConstant, Bool.false_and]

theorem internedCount : t'.internedCount = t.internedCount := by
  obtain ⟨rest, slots, slots', -⟩ := tables.slots
  have noRegister : ∀ n, ((List.range n).map registerSlot).countP (·.kind == .constant) = 0 := by
    intro n
    refine List.countP_eq_zero.2 fun s mem => ?_
    obtain ⟨i, -, rfl⟩ := List.mem_map.1 mem
    simp [registerSlot, Slot.fresh]
  unfold SlotTable.internedCount
  rw [slots, slots', List.countP_append, List.countP_append, noRegister, noRegister, List.countP_map]
  rfl

theorem members? (tag : String) : t'.members? tag = t.members? tag := by
  rw [SlotTable.members?, SlotTable.members?, tables.structs]

/-- A slot of the first table that is no register. -/
theorem moved (stored : s ∈ t.slots) (notRegister : s.kind ≠ .register) : v.Moved s := by
  obtain ⟨rest, slots, -, moved⟩ := tables.slots
  rcases List.mem_append.1 (slots ▸ stored) with isRegister | inRest
  · obtain ⟨n, -, rfl⟩ := List.mem_map.1 isRegister
    exact absurd rfl notRegister
  · exact moved s inRest

/-- A name of the first table is found in the second. -/
theorem find?_of_some (found : t.find? name = some s) : t'.find? name = some (v.slot s) := by
  have stored : s ∈ t.slots := List.mem_of_find?_eq_some found
  have isName : s.asmName = name := by simpa using List.find?_some found
  have images : t'.find? name = (t.find? name).map v.slot := by
    refine tables.slots_find? (fun s => rfl) fun n above _ => ?_
    refine beq_false_of_ne fun same => ?_
    obtain ⟨rest, slots, -, moved⟩ := tables.slots
    rcases List.mem_append.1 (slots ▸ stored) with isRegister | inRest
    · obtain ⟨i, inside, rfl⟩ := List.mem_map.1 isRegister
      have := SlotTable.registerName_inj (isName.trans same.symm)
      have := List.mem_range.1 inside
      omega
    · exact (moved s inRest).name n (isName.trans same.symm)
  rw [images, found]
  rfl

/-- A name is found in both tables or, without added registers, in none. -/
theorem find?_cases (name : String) :
    (∃ s, t.find? name = some s ∧ t'.find? name = some (v.slot s)) ∨
      t.find? name = none ∧ (v.extra = 0 → t'.find? name = none) := by
  cases found : t.find? name with
  | some s => exact .inl ⟨s, rfl, tables.find?_of_some found⟩
  | none =>
    refine .inr ⟨rfl, fun none => ?_⟩
    have images : t'.find? name = (t.find? name).map v.slot :=
      tables.slots_find? (fun s => rfl) fun n above below => by omega
    rw [images, found]
    rfl

/-! ## Changes of the table -/

/-- A slot and its image are stored. -/
theorem push {s' : Slot} (placed : t'.place s' = v.slot (t.place s)) (moved : v.Moved (t.place s)) :
    v.Tables (t.push s) (t'.push s') where
  slots := by
    obtain ⟨rest, slots, slots', areMoved⟩ := tables.slots
    refine ⟨rest ++ [t.place s], ?_, ?_, ?_⟩
    · simp [SlotTable.push, slots]
    · simp [SlotTable.push, slots', placed]
    · exact List.forall_mem_append.2 ⟨areMoved, List.forall_mem_singleton.2 moved⟩
  next := by
    have kind : s'.kind = s.kind := by
      rw [← t'.place_kind s', placed, slot_kind, t.place_kind]
    simp only [SlotTable.push, kind, tables.next]
    split
    · rfl
    · omega
  reached := by
    have := tables.reached
    simp only [SlotTable.push]
    split <;> omega
  structs := tables.structs

/-- A constant and its image are stored in both tables or in none. -/
theorem intern (value : Word) (ceiling : Nat) :
    v.Tables (t.intern value ceiling).1 (t'.intern value ceiling).1 ∧
      (t'.intern value ceiling).2 = (t.intern value ceiling).2.map v.slot := by
  have noRegister : ∀ n, constantName value ≠ registerName n := by
    intro n same
    have numbered := SlotTable.registerName_isNumbered n
    cases (same ▸ numbered).letter_eq (SlotTable.constantName_isNumbered value)
  have placed : t'.place (SlotTable.keptSlot value) = v.slot (t.place (SlotTable.keptSlot value)) := by
    have behind : v.address t.next = (t.next : Int) + v.extra :=
      address_of_le (Int.ofNat_le.2 tables.reached)
    simp [SlotTable.place, SlotTable.keptSlot, Slot.literal, Slot.fresh, slot, behind, tables.next]
  have moved : v.Moved (t.place (SlotTable.keptSlot value)) := by
    obtain ⟨kind, name, -⟩ := t.place_keptSlot value
    refine ⟨by simp [kind], name ▸ noRegister, .inr ?_, by simp [kind]⟩
    simp [SlotTable.place, SlotTable.keptSlot, Slot.literal, Slot.fresh, tables.reached]
  unfold SlotTable.intern
  rw [tables.interned?, tables.internedCount, tables.find? noRegister, Option.isSome_map]
  split
  · exact ⟨tables, rfl⟩
  · cases t.interned? value with
    | some s => exact ⟨tables, rfl⟩
    | none =>
      dsimp only [Option.map_none]
      split
      · exact ⟨tables, rfl⟩
      · exact ⟨tables.push placed moved, congrArg some placed⟩

omit tables in
/-- Changing the first match, which does not stand in the first part. -/
theorem modifyFirst_append {p : Slot → Bool} {f : Slot → Slot} {l l' : List Slot}
    (absent : ∀ s ∈ l, p s = false) :
    SlotTable.modifyFirst p f (l ++ l') = l ++ SlotTable.modifyFirst p f l' := by
  induction l with
  | nil => rfl
  | cons s l ih =>
    obtain ⟨first, rest⟩ := List.forall_mem_cons.1 absent
    simp [SlotTable.modifyFirst, first, ih rest]

omit tables in
/-- Changing the first match before or after taking images. -/
theorem modifyFirst_map {p : Slot → Bool} {f : Slot → Slot} {l : List Slot}
    (same : ∀ s, p (v.slot s) = p s) (change : ∀ s, l.find? p = some s → f (v.slot s) = v.slot (f s)) :
    SlotTable.modifyFirst p f (l.map v.slot) = (SlotTable.modifyFirst p f l).map v.slot := by
  induction l with
  | nil => rfl
  | cons s l ih =>
    rw [List.map_cons, SlotTable.modifyFirst, SlotTable.modifyFirst, same]
    split
    · rename_i isFirst
      rw [change s (by simp [isFirst]), List.map_cons]
    · rename_i notFirst
      rw [ih fun s' found => change s' (by simp [notFirst, found]), List.map_cons]

/-- Fixing a variable in both tables. -/
theorem setContents (found : t.find? name = some s) (notRegister : s.kind ≠ .register)
    (unset : s.contents = none) (contents : String) :
    v.Tables (t.setContents name (some contents)) (t'.setContents name (some contents)) where
  slots := by
    have isName : s.asmName = name := by simpa using List.find?_some found
    have isMoved : v.Moved s := tables.moved (List.mem_of_find?_eq_some found) notRegister
    obtain ⟨rest, slots, slots', moved⟩ := tables.slots
    have noRegister : ∀ n, ∀ r ∈ (List.range n).map registerSlot, (r.asmName == name) = false := by
      intro n r mem
      obtain ⟨i, -, rfl⟩ := List.mem_map.1 mem
      exact beq_false_of_ne fun same => isMoved.name i (isName.trans same.symm)
    refine ⟨SlotTable.modifyFirst (·.asmName == name) ({ · with contents := some contents }) rest, ?_, ?_, ?_⟩
    · rw [SlotTable.setContents, slots, modifyFirst_append (noRegister _)]
    · rw [SlotTable.setContents, slots', modifyFirst_append (noRegister _),
        modifyFirst_map (fun _ => rfl) fun e first => ?_]
      have absent : ((List.range v.registers).map registerSlot).find? (·.asmName == name) = none :=
        List.find?_eq_none.2 fun r mem => by simpa using noRegister v.registers r mem
      rw [SlotTable.find?, slots, List.find?_append, absent, Option.none_or, first] at found
      obtain rfl := Option.some.inj found
      -- The variable has no contents, so that it is no array.
      have notArray : e.kind ≠ .array := fun isArray => by simpa [unset] using isMoved.contents isArray
      simp [slot, notArray]
    · intro e mem
      rcases SlotTable.mem_modifyFirst mem with old | ⟨e₀, old, rfl⟩
      · exact moved e old
      · exact ⟨(moved e₀ old).kind, (moved e₀ old).name, (moved e₀ old).address, fun _ => rfl⟩
  next := tables.next
  reached := tables.reached
  structs := tables.structs

theorem constantLoad (line : Nat) {i i' : Instr} (lines : v.Lines i i') :
    v.Outcomes Eq (t.constantLoad line i) (t'.constantLoad line i') := by
  cases lines with
  | same _ _ =>
    cases i with
    | setLiteral dest hex => exact .ok rfl
    | clear dest => exact .ok rfl
    | set dest src =>
      unfold SlotTable.constantLoad
      rcases tables.find?_cases src with ⟨s, found, found'⟩ | ⟨absent, absent'⟩
      · simp only [found, found', slot_kind]
        by_cases isConstant : s.kind = .constant
        · rw [v.slot_contents (by simp [isConstant])]
          exact .refl _
        · rw [if_neg isConstant, if_neg isConstant]
          exact .error _
      · simp only [absent]
        intro none
        rw [absent' none]
    | _ => exact .error _
  | _ => exact .error _

theorem freezeOne (line : Nat) {i i' : Instr} (lines : v.Lines i i') :
    v.Outcomes (fun r r' => v.Tables r.1 r'.1 ∧ r'.2 = r.2) (t.freezeOne line i) (t'.freezeOne line i') := by
  unfold SlotTable.freezeOne
  refine .bind (tables.constantLoad line lines) ?_
  rintro ⟨dest, hex⟩ _ rfl
  rcases tables.find?_cases dest with ⟨s, found, found'⟩ | ⟨absent, absent'⟩
  · simp only [found, found', slot_kind, slot_isFrozen]
    by_cases isRegister : s.kind = .register
    · rw [if_pos isRegister, if_pos isRegister]
      exact fun _ => rfl
    · rw [if_neg isRegister, if_neg isRegister]
      by_cases isFrozen : s.isFrozen = true
      · rw [if_pos isFrozen, if_pos isFrozen]
        exact fun _ => rfl
      · rw [if_neg isFrozen, if_neg isFrozen]
        have unset : s.contents = none := by simpa [Slot.isFrozen] using isFrozen
        exact .ok ⟨tables.setContents found isRegister unset hex, rfl⟩
  · simp only [absent]
    intro none
    rw [absent' none]
    rfl

/-- Fixing what some lines load in both tables. -/
theorem freeze (line : Nat) {code code' : List Instr} (related : List.Forall₂ v.Lines code code') :
    v.Outcomes (fun directives directives' => directives' = directives ∧
        v.Tables (t.freeze line code).1 (t'.freeze line code').1)
      (t.freeze line code).2 (t'.freeze line code').2 := by
  induction related generalizing t t' with
  | nil => exact .ok ⟨rfl, tables⟩
  | @cons i i' code code' lines _ ih =>
    have one := tables.freezeOne line lines
    rw [SlotTable.freeze, SlotTable.freeze]
    cases first : t.freezeOne line i with
    | error e =>
      rw [first] at one
      intro none
      rw [one none]
    | ok made =>
      obtain ⟨t₁, directive⟩ := made
      rw [first] at one
      obtain ⟨⟨t₁', directive'⟩, first', tables₁, same⟩ := one
      obtain rfl : directive' = directive := same
      rw [first']
      have rest := ih tables₁
      dsimp only
      cases result : (t₁.freeze line code).2 with
      | error e =>
        rw [result] at rest
        intro none
        rw [rest none]
        rfl
      | ok directives =>
        rw [result] at rest
        obtain ⟨_, result', rfl, tables₂⟩ := rest
        rw [result']
        exact .ok ⟨rfl, tables₂⟩

end Tables

/-! ## Pools -/

/-- A pool of the first compilation and that of the second, where the added registers are free. -/
structure Pools (v : Variation) (p p' : Pool) : Prop where
  slots : p.slots = (List.range v.registers).map registerSlot
  registers : ∃ added, p'.registers = p.registers ++ added ∧ ∀ r ∈ added, r.held = false ∧
    ∃ n, v.registers ≤ n ∧ n < v.registers + v.extra ∧ r.slot = registerSlot n

namespace Pools

variable {p p' : Pool} (pools : v.Pools p p')
include pools

theorem eq_of_extra_eq_zero (none : v.extra = 0) : p' = p := by
  obtain ⟨added, registers, isAdded⟩ := pools.registers
  have nothing : added = [] := by
    refine List.eq_nil_iff_forall_not_mem.2 fun r mem => ?_
    obtain ⟨-, n, above, below, -⟩ := isAdded r mem
    omega
  cases p
  cases p'
  simpa [nothing] using registers

/-- A register of the first pool stays where it is. -/
theorem slot_of_mem {s : Slot} (mem : s ∈ p.slots) : v.slot s = s ∧ v.address s.address = s.address := by
  rw [pools.slots] at mem
  obtain ⟨n, inside, rfl⟩ := List.mem_map.1 mem
  have same := v.slot_registerSlot (List.mem_range.1 inside)
  exact ⟨same, congrArg Slot.address same⟩

omit pools in
/-- A register is taken from a list with more behind it. -/
theorem takeFirst_append {rs rs' : List Register} {s : Slot} (taken : Pool.takeFirst rs = some (s, rs'))
    (added : List Register) : Pool.takeFirst (rs ++ added) = some (s, rs' ++ added) := by
  obtain ⟨before, after, rfl, rfl, held⟩ := Pool.takeFirst_eq_some taken
  clear taken
  induction before with
  | nil => simp [Pool.takeFirst]
  | cons r before ih =>
    obtain ⟨heldFirst, held⟩ := List.forall_mem_cons.1 held
    have rest := ih held
    simp only [List.append_assoc, List.cons_append] at rest
    simp [Pool.takeFirst, heldFirst, rest]

/-- The lowest free register of the first is that of the second. -/
theorem allocate (line : Nat) :
    v.Outcomes (fun r r' => r'.1 = v.slot r.1 ∧ v.Pools r.2 r'.2) (p.allocate line) (p'.allocate line) := by
  cases taken : p.allocate line with
  | error e =>
    intro none
    rw [pools.eq_of_extra_eq_zero none, taken]
  | ok made =>
    obtain ⟨s, p₁⟩ := made
    have same := (pools.slot_of_mem (Pool.allocate_mem taken)).1
    have slots := Pool.allocate_slots taken
    obtain ⟨added, registers, isAdded⟩ := pools.registers
    unfold Pool.allocate at taken ⊢
    cases found : Pool.takeFirst p.registers with
    | none =>
      rw [found] at taken
      cases taken
    | some made =>
      obtain ⟨s₁, rs⟩ := made
      rw [found] at taken
      cases taken
      rw [registers, takeFirst_append found]
      exact .ok ⟨same.symm, slots.trans pools.slots, added, rfl, isAdded⟩

theorem address_iff {r : Register} (listed : r ∈ p.registers) {a : Int} :
    r.slot.address = v.address a ↔ r.slot.address = a := by
  have same := (pools.slot_of_mem (List.mem_map_of_mem listed)).2
  rw [← same, address_inj, same]

theorem free (a : Int) : v.Pools (p.free a) (p'.free (v.address a)) where
  slots := by rw [Pool.free_slots, pools.slots]
  registers := by
    obtain ⟨added, registers, isAdded⟩ := pools.registers
    refine ⟨added, ?_, isAdded⟩
    simp only [Pool.free, registers, List.map_append]
    congr 1
    · exact List.map_congr_left fun r listed => by simp only [pools.address_iff listed]
    · refine List.map_congr_left (fun r mem => ?_) |>.trans (List.map_id _)
      obtain ⟨free, -⟩ := isAdded r mem
      split
      · rw [← free]
        rfl
      · rfl

/-- An address finds the same register in both pools. -/
theorem find? (a : Int) : p'.registers.find? (·.slot.address == v.address a) =
    p.registers.find? (·.slot.address == a) := by
  obtain ⟨added, registers, isAdded⟩ := pools.registers
  have absent : added.find? (·.slot.address == v.address a) = none := by
    refine List.find?_eq_none.2 fun r mem => ?_
    obtain ⟨-, n, above, below, isSlot⟩ := isAdded r mem
    simpa [isSlot, registerSlot] using (address_not_added above below).symm
  rw [registers, List.find?_append, absent, Option.or_none]
  rw [← List.head?_filter, ← List.head?_filter, List.filter_congr fun r listed => ?_]
  rw [Bool.eq_iff_iff, beq_iff_eq, beq_iff_eq, pools.address_iff listed]

theorem isRegister (a : Int) : p'.isRegister (v.address a) = p.isRegister a := by
  rw [Bool.eq_iff_iff, Pool.isRegister, Pool.isRegister, List.any_eq_true, List.any_eq_true,
    ← List.find?_isSome, ← List.find?_isSome, pools.find?]

theorem release (a : Int) (line : Nat) :
    v.Outcomes v.Pools (p.release a line) (p'.release (v.address a) line) := by
  unfold Pool.release
  rw [pools.find?]
  cases p.registers.find? (·.slot.address == a) with
  | none =>
    intro none
    rw [address_of_extra_eq_zero none]
  | some r =>
    dsimp only
    split
    · exact .ok (pools.free a)
    · exact .error _

theorem live : p'.live = p.live := by
  obtain ⟨added, registers, isAdded⟩ := pools.registers
  have free : added.filter (·.held) = [] := by
    refine List.filter_eq_nil_iff.2 fun r mem => ?_
    simp [(isAdded r mem).1]
  rw [Pool.live, registers, List.filter_append, free, List.append_nil]
  rfl

end Pools

/-- At the start all registers are free. -/
theorem Tables.pools {t t' : SlotTable} (tables : v.Tables t t') :
    v.Pools (Pool.ofTable t) (Pool.ofTable t') := by
  obtain ⟨rest, slots, slots', moved⟩ := tables.slots
  have isRegister : ∀ l : List Nat, (l.map registerSlot).filter (·.kind == .register) = l.map registerSlot :=
    fun l => List.filter_eq_self.2 fun s mem => by
      obtain ⟨n, -, rfl⟩ := List.mem_map.1 mem
      rfl
  have none : rest.filter (·.kind == .register) = [] :=
    List.filter_eq_nil_iff.2 fun s mem => by simpa using (moved s mem).kind
  have none' : (rest.map v.slot).filter (·.kind == .register) = [] := by
    rw [List.filter_map]
    exact List.map_eq_nil_iff.2 none
  refine ⟨?_, ((List.range v.extra).map fun i => ⟨registerSlot (v.registers + i), false⟩), ?_, ?_⟩
  · rw [Pool.slots_ofTable, SlotTable.registers, slots, List.filter_append, isRegister, none,
      List.append_nil]
  · simp only [Pool.ofTable, slots, slots', List.filter_append, isRegister, none, none', List.append_nil]
    simp only [List.range_add, List.map_append, List.map_map, Function.comp_def]
  · intro r mem
    obtain ⟨i, inside, rfl⟩ := List.mem_map.1 mem
    have := List.mem_range.1 inside
    exact ⟨rfl, v.registers + i, by omega, by omega, rfl⟩

end Variation

end ContractCompiler
