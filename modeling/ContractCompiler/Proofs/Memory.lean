import ContractCompiler.Proofs.Freeze
import ContractCompiler.Proofs.Layout.Declares
import Mathlib.Data.List.Forall2

/-!
# Proofs.Memory — the table over a whole compilation

After the layout of a contract two kinds of events change its table: a constant is asked for and stored
while there is room, and a `const` phrase fixes the contents of variables, which may be refused halfway
(`SlotTable.Event`). Every slot stays what it was made as (`SlotTable.Tidy`): a register, a variable
under a name that is free for variables, or a constant whose name and contents say its value. So names
and addresses tell the slots apart at all times, and a constant is found exactly if it was asked for
and given (`Layout.table_orderly`).
-/

namespace ContractCompiler

set_option autoImplicit false

open Outcome (Ensures)

/-- The name is a letter with one or more digits behind it. -/
def IsNumbered (letter : Char) (name : String) : Prop :=
  ∃ digits : List Char, digits ≠ [] ∧ (∀ d ∈ digits, d.isDigit = true) ∧
    name.toList = letter :: digits

theorem isNumbered_append (letter : Char) (n : Nat) :
    IsNumbered letter (String.ofList [letter] ++ toString n) := by
  refine ⟨(toString n).toList, ?_, fun d mem => ?_, by simp⟩
  · simp
  · have listed : d ∈ Nat.toDigits 10 n := by simpa using mem
    exact Nat.isDigit_of_mem_toDigits (by decide) (by decide) listed

theorem IsNumbered.letter_eq {letter letter' : Char} {name : String} (numbered : IsNumbered letter name)
    (numbered' : IsNumbered letter' name) : letter = letter' := by
  obtain ⟨_, -, -, first⟩ := numbered
  obtain ⟨_, -, -, first'⟩ := numbered'
  exact (List.cons.inj (first.symm.trans first')).1

namespace SlotTable

variable {t : SlotTable} {s : Slot} {ceiling : Nat} {value : Word}

theorem isReservedName_iff {name : String} :
    isReservedName name = true ↔ IsNumbered 'r' name ∨ IsNumbered 'n' name := by
  unfold isReservedName
  split
  · rename_i first digits isName
    simp only [Bool.and_eq_true, Bool.or_eq_true, beq_iff_eq, Bool.not_eq_true', List.isEmpty_eq_false_iff,
      List.all_eq_true]
    constructor
    · rintro ⟨⟨rfl | rfl, some⟩, digit⟩
      · exact .inl ⟨digits, some, digit, isName⟩
      · exact .inr ⟨digits, some, digit, isName⟩
    · rintro (⟨digits', some, digit, isName'⟩ | ⟨digits', some, digit, isName'⟩)
      · obtain ⟨rfl, rfl⟩ := List.cons.inj (isName.symm.trans isName')
        exact ⟨⟨.inl rfl, some⟩, digit⟩
      · obtain ⟨rfl, rfl⟩ := List.cons.inj (isName.symm.trans isName')
        exact ⟨⟨.inr rfl, some⟩, digit⟩
  · rename_i isName
    simp [IsNumbered, isName]

theorem registerName_isNumbered (number : Nat) : IsNumbered 'r' (registerName number) :=
  isNumbered_append 'r' number

theorem constantName_isNumbered (value : Word) : IsNumbered 'n' (constantName value) :=
  isNumbered_append 'n' value.toNat

theorem constantName_inj {v w : Word} (same : constantName v = constantName w) : v = w :=
  UInt64.toNat_inj.1 (Numeral.toString_inj (String.append_right_inj "n" |>.1 same))

/-! ## Constants -/

theorem interned?_isSome_iff : (t.interned? value).isSome = true ↔
    ∃ s ∈ t.slots, s.kind = .constant ∧ s.asmName = constantName value ∧
      s.contents = some value.toHex := by
  simp [interned?, List.find?_isSome, and_assoc]

/-- A new constant is found, and so is what was found before. -/
theorem interned?_push_isSome {v w : Word} : ((t.push (keptSlot w)).interned? v).isSome = true ↔
    (t.interned? v).isSome = true ∨ w = v := by
  obtain ⟨kind, name, contents⟩ := t.place_keptSlot w
  rw [interned?_isSome_iff, interned?_isSome_iff]
  constructor
  · rintro ⟨s, stored, found⟩
    rcases List.mem_append.1 stored with old | new
    · exact .inl ⟨s, old, found⟩
    · rw [List.mem_singleton.1 new] at found
      exact .inr (constantName_inj (name.symm.trans found.2.1))
  · rintro (⟨s, stored, found⟩ | rfl)
    · exact ⟨s, List.mem_append_left _ stored, found⟩
    · exact ⟨_, List.mem_append_right _ (List.mem_singleton.2 rfl), kind, name, contents⟩

/-! ## Slots stay what they are -/

/-- What a slot was made as. -/
inductive Sorted (s : Slot) : Prop where
  | register (number : Nat) (kind : s.kind = .register) (name : s.asmName = registerName number)
  | plain (notRegister : s.kind ≠ .register) (notConstant : s.kind ≠ .constant)
    (name : isReservedName s.asmName = false)
  | constant (value : Word) (notZero : value ≠ 0) (kind : s.kind = .constant)
    (name : s.asmName = constantName value) (contents : s.contents = some value.toHex)

namespace Sorted

theorem becomes {s' : Slot} (sorted : Sorted s) (becomes : s.Becomes s') : Sorted s' := by
  cases sorted with
  | register number kind name =>
    exact .register number (becomes.kind.trans kind) (becomes.asmName.trans name)
  | plain notRegister notConstant name =>
    exact .plain (becomes.kind ▸ notRegister) (becomes.kind ▸ notConstant) (becomes.asmName ▸ name)
  | constant value notZero kind name contents =>
    exact .constant value notZero (becomes.kind.trans kind) (becomes.asmName.trans name)
      (becomes.kept _ contents)

theorem kind_of_isNumbered_r (sorted : Sorted s) (numbered : IsNumbered 'r' s.asmName) :
    s.kind = .register := by
  cases sorted with
  | register number kind name => exact kind
  | plain notRegister notConstant name =>
    rw [isReservedName_iff.2 (.inl numbered)] at name
    cases name
  | constant value notZero kind name contents =>
    cases numbered.letter_eq (name ▸ constantName_isNumbered value)

/-- A name of constants belongs to a constant, which it tells the value of. -/
theorem of_isNumbered_n (sorted : Sorted s) (numbered : IsNumbered 'n' s.asmName) :
    ∃ value : Word, value ≠ 0 ∧ s.kind = .constant ∧ s.asmName = constantName value ∧
      s.contents = some value.toHex := by
  cases sorted with
  | register number kind name => cases numbered.letter_eq (name ▸ registerName_isNumbered number)
  | plain notRegister notConstant name =>
    rw [isReservedName_iff.2 (.inr numbered)] at name
    cases name
  | constant value notZero kind name contents => exact ⟨value, notZero, kind, name, contents⟩

theorem of_kind (sorted : Sorted s) (isConstant : s.kind = .constant) :
    ∃ value : Word, value ≠ 0 ∧ s.asmName = constantName value ∧ s.contents = some value.toHex := by
  cases sorted with
  | register number kind name =>
    rw [isConstant] at kind
    cases kind
  | plain notRegister notConstant name => exact absurd isConstant notConstant
  | constant value notZero kind name contents => exact ⟨value, notZero, name, contents⟩

end Sorted

/-- Every slot is what it was made as, and there are no more constants than may be kept. -/
structure Tidy (ceiling : Nat) (t : SlotTable) : Prop where
  valid : t.Valid
  sorted : ∀ s ∈ t.slots, Sorted s
  few : t.internedCount ≤ ceiling

namespace Tidy

theorem of_layout {count : Nat} (laid : t.Laid) (begins : t.Begins count) (ceiling : Nat) :
    t.Tidy ceiling where
  valid := laid.valid
  sorted s stored := by
    obtain ⟨own, slots, free⟩ := begins
    rcases List.mem_append.1 (slots ▸ stored) with isRegister | isOwn
    · obtain ⟨number, -, rfl⟩ := List.mem_map.1 isRegister
      exact .register number rfl rfl
    · exact .plain (free s isOwn).1 (laid.noConstants s stored) (free s isOwn).2
  few := by
    have none : t.internedCount = 0 := List.countP_eq_zero.2 fun s stored => by
      simpa using laid.noConstants s stored
    omega

variable (tidy : t.Tidy ceiling)
include tidy

/-- The name of a constant is taken only by that constant. -/
theorem interned?_of_find? (taken : (t.find? (constantName value)).isSome = true) :
    (t.interned? value).isSome = true := by
  obtain ⟨s, found⟩ := Option.isSome_iff_exists.1 taken
  have stored : s ∈ t.slots := List.mem_of_find?_eq_some found
  have name : s.asmName = constantName value := by simpa using List.find?_some found
  obtain ⟨w, -, kind, name', contents⟩ :=
    (tidy.sorted s stored).of_isNumbered_n (name ▸ constantName_isNumbered value)
  obtain rfl := constantName_inj (name'.symm.trans name)
  exact interned?_isSome_iff.2 ⟨s, stored, kind, name, contents⟩

/-- A constant that is not zero is given if it is kept already or there is room. -/
theorem intern_isSome_iff : (t.intern value ceiling).2.isSome = true ↔
    value ≠ 0 ∧ ((t.interned? value).isSome = true ∨ t.internedCount < ceiling) := by
  rcases t.intern_eq value ceiling with ⟨same, reason⟩ | ⟨notZero, s, found, same⟩ |
    ⟨notZero, room, -, same⟩
  · rw [same]
    constructor
    · intro given
      cases given
    · rintro ⟨notZero, can⟩
      rcases reason with zero | ⟨absent, full | taken⟩
      · exact absurd zero notZero
      · simp only [absent, Option.isSome_none, Bool.false_eq_true, false_or] at can
        omega
      · have := tidy.interned?_of_find? taken
        simp [absent] at this
  · simp [same, found, notZero]
  · simp [same, room, notZero]

theorem intern (value : Word) : (t.intern value ceiling).1.Tidy ceiling := by
  rcases t.intern_eq value ceiling with ⟨same, -⟩ | ⟨-, s, -, same⟩ | ⟨notZero, room, free, same⟩
  · rw [same]
    exact tidy
  · rw [same]
    exact tidy
  · rw [same]
    refine ⟨tidy.valid.push free rfl (by simp [keptSlot, Slot.literal, Slot.fresh]), ?_, ?_⟩
    · refine List.forall_mem_append.2 ⟨tidy.sorted, List.forall_mem_singleton.2 ?_⟩
      obtain ⟨kind, name, contents⟩ := t.place_keptSlot value
      exact .constant value notZero kind name contents
    · have more : (t.push (keptSlot value)).internedCount = t.internedCount + 1 := by
        simp [internedCount, push, List.countP_append, place_kind, keptSlot, Slot.literal, Slot.fresh]
      show (t.push (keptSlot value)).internedCount ≤ ceiling
      omega

end Tidy

/-! ## Fixed contents -/

/-- The slots are still the same, in the same order, some with contents that were fixed since. -/
def Fixes (t t' : SlotTable) : Prop := List.Forall₂ Slot.Becomes t.slots t'.slots

theorem fixes_setContents {name hex : String} (found : t.find? name = some s) (unset : s.contents = none) :
    t.Fixes (t.setContents name (some hex)) := by
  unfold find? at found
  show List.Forall₂ _ _ (modifyFirst _ _ t.slots)
  generalize t.slots = slots at found
  induction slots with
  | nil => cases found
  | cons s₁ slots ih =>
    by_cases isFirst : s₁.asmName == name
    · obtain rfl : s₁ = s := by simpa [isFirst] using found
      rw [modifyFirst, if_pos isFirst]
      exact .cons ⟨rfl, by simp [unset]⟩ (List.forall₂_same.2 fun e _ => .refl e)
    · simp only [List.find?_cons, isFirst] at found
      rw [modifyFirst, if_neg isFirst]
      exact .cons (.refl s₁) (ih found)

theorem Fixes.refl (t : SlotTable) : t.Fixes t := List.forall₂_same.2 fun s _ => .refl s

theorem Fixes.trans {t' t'' : SlotTable} (first : t.Fixes t') (second : t'.Fixes t'') : t.Fixes t'' := by
  unfold Fixes at first second ⊢
  generalize t.slots = slots, t'.slots = slots', t''.slots = slots'' at first second
  induction first generalizing slots'' with
  | nil => exact second
  | cons becomes _ ih =>
    cases second with
    | cons becomes' rest => exact .cons (becomes.trans becomes') (ih _ rest)

/-- Whatever fixing one variable keeps is kept by a phrase, even by one that is refused halfway. -/
theorem freeze_keeps {P : SlotTable → Prop}
    (step : ∀ (t : SlotTable) (dest hex : String) (s : Slot), P t → t.find? dest = some s →
      s.contents = none → P (t.setContents dest (some hex)))
    (line : Nat) (code : List Instr) (holds : P t) : P (t.freeze line code).1 := by
  induction code generalizing t with
  | nil => exact holds
  | cons i code ih =>
    rw [freeze]
    cases first : t.freezeOne line i with
    | error e => exact holds
    | ok made =>
      obtain ⟨t₁, directive⟩ := made
      obtain ⟨dest, hex, s, -, found, -, unset, rfl, -⟩ := freezeOne_eq_ok first
      exact ih (step t dest hex s holds found unset)

theorem freeze_fixes (t : SlotTable) (line : Nat) (code : List Instr) : t.Fixes (t.freeze line code).1 :=
  freeze_keeps (fun _ _ _ _ fixes found unset => fixes.trans (fixes_setContents found unset)) line code
    (.refl t)

theorem Valid.freeze (valid : t.Valid) (line : Nat) (code : List Instr) : (t.freeze line code).1.Valid :=
  freeze_keeps (fun _ _ _ _ valid _ _ => valid.setContents _ _) line code valid

theorem Fixes.origin {t' : SlotTable} {s' : Slot} (fixes : t.Fixes t') (stored : s' ∈ t'.slots) :
    ∃ s ∈ t.slots, s.Becomes s' := by
  obtain ⟨i, rfl⟩ := List.mem_iff_get.1 stored
  have inside : i.1 < t.slots.length := Nat.lt_of_lt_of_eq i.2 fixes.length_eq.symm
  exact ⟨_, List.get_mem t.slots ⟨i.1, inside⟩, fixes.get inside i.2⟩

theorem Fixes.becomes {t' : SlotTable} (fixes : t.Fixes t') (stored : s ∈ t.slots) :
    ∃ s' ∈ t'.slots, s.Becomes s' := by
  obtain ⟨i, rfl⟩ := List.mem_iff_get.1 stored
  have inside : i.1 < t'.slots.length := Nat.lt_of_lt_of_eq i.2 fixes.length_eq
  exact ⟨_, List.get_mem t'.slots ⟨i.1, inside⟩, fixes.get i.2 inside⟩

theorem Fixes.internedCount_eq {t' : SlotTable} (fixes : t.Fixes t') :
    t'.internedCount = t.internedCount := by
  unfold Fixes at fixes
  unfold internedCount
  generalize t.slots = slots, t'.slots = slots' at fixes
  induction fixes with
  | nil => rfl
  | cons becomes _ ih => rw [List.countP_cons, List.countP_cons, ih, becomes.kind]

namespace Tidy

variable (tidy : t.Tidy ceiling)
include tidy

theorem freeze (line : Nat) (code : List Instr) : (t.freeze line code).1.Tidy ceiling where
  valid := tidy.valid.freeze line code
  sorted s' stored := by
    obtain ⟨s, stored, becomes⟩ := (t.freeze_fixes line code).origin stored
    exact (tidy.sorted s stored).becomes becomes
  few := (t.freeze_fixes line code).internedCount_eq ▸ tidy.few

/-- Fixing contents makes no constants and loses none. -/
theorem interned?_freeze (line : Nat) (code : List Instr) :
    ((t.freeze line code).1.interned? value).isSome = true ↔ (t.interned? value).isSome = true := by
  rw [interned?_isSome_iff, interned?_isSome_iff]
  constructor
  · rintro ⟨s', stored, kind, name, -⟩
    obtain ⟨s, stored, becomes⟩ := (t.freeze_fixes line code).origin stored
    rw [becomes.kind] at kind
    rw [becomes.asmName] at name
    obtain ⟨w, -, name', contents⟩ := (tidy.sorted s stored).of_kind kind
    obtain rfl := constantName_inj (name'.symm.trans name)
    exact ⟨s, stored, kind, name, contents⟩
  · rintro ⟨s, stored, kind, name, contents⟩
    obtain ⟨s', stored', becomes⟩ := (t.freeze_fixes line code).becomes stored
    exact ⟨s', stored', becomes.kind.trans kind, becomes.asmName.trans name, becomes.kept _ contents⟩

end Tidy

/-! ## A whole compilation -/

/-- What happens to the table after the layout. -/
inductive Event where
  /-- A constant is asked for. -/
  | intern (value : Word)
  /-- The code of a phrase is turned into contents. -/
  | freeze (line : Nat) (code : List Instr)

/-- The table after an event. What a refused phrase fixed before the refusal stays fixed. -/
def apply (ceiling : Nat) (t : SlotTable) : Event → SlotTable
  | .intern value => (t.intern value ceiling).1
  | .freeze line code => (t.freeze line code).1

def after (ceiling : Nat) (t : SlotTable) (events : List Event) : SlotTable := events.foldl (apply ceiling) t

theorem after_cons (t : SlotTable) (event : Event) (events : List Event) :
    t.after ceiling (event :: events) = (t.apply ceiling event).after ceiling events := rfl

/-- The constant was asked for at some point and given. -/
def WasInterned (ceiling : Nat) (t : SlotTable) (events : List Event) (value : Word) : Prop :=
  ∃ before rest, events = before ++ .intern value :: rest ∧
    ((t.after ceiling before).intern value ceiling).2.isSome = true

theorem wasInterned_nil : ¬ t.WasInterned ceiling [] value := by
  rintro ⟨before, rest, isEvents, -⟩
  simp at isEvents

/-- The constant was given by the first event or by a later one. -/
theorem wasInterned_cons {event : Event} {events : List Event} :
    t.WasInterned ceiling (event :: events) value ↔
      (event = .intern value ∧ (t.intern value ceiling).2.isSome = true) ∨
        (t.apply ceiling event).WasInterned ceiling events value := by
  constructor
  · rintro ⟨before, rest, isEvents, given⟩
    cases before with
    | nil =>
      obtain ⟨isFirst, -⟩ := List.cons.inj isEvents
      exact .inl ⟨isFirst, given⟩
    | cons first before =>
      obtain ⟨rfl, later⟩ := List.cons.inj isEvents
      exact .inr ⟨before, rest, later, given⟩
  · rintro (⟨rfl, given⟩ | ⟨before, rest, rfl, given⟩)
    · exact ⟨[], events, rfl, given⟩
    · exact ⟨event :: before, rest, rfl, given⟩

namespace Tidy

theorem apply (tidy : t.Tidy ceiling) : ∀ event, (t.apply ceiling event).Tidy ceiling
  | .intern value => tidy.intern value
  | .freeze line code => tidy.freeze line code

/-- After an event the constants are those before it and the one that the event gave. -/
theorem interned?_apply (tidy : t.Tidy ceiling) (event : Event) :
    ((t.apply ceiling event).interned? value).isSome = true ↔
      (t.interned? value).isSome = true ∨
        event = .intern value ∧ (t.intern value ceiling).2.isSome = true := by
  cases event with
  | freeze line code => simpa [SlotTable.apply] using tidy.interned?_freeze line code
  | intern w =>
    simp only [SlotTable.apply, Event.intern.injEq]
    rcases t.intern_eq w ceiling with ⟨same, -⟩ | ⟨-, s, found, same⟩ | ⟨-, -, -, same⟩
    · rw [same]
      refine ⟨.inl, ?_⟩
      rintro (old | ⟨rfl, given⟩)
      · exact old
      · rw [same] at given
        cases given
    · rw [same]
      refine ⟨.inl, ?_⟩
      rintro (old | ⟨rfl, -⟩)
      · exact old
      · rw [found]
        rfl
    · rw [same, interned?_push_isSome]
      refine or_congr_right ⟨fun isValue => ⟨isValue, ?_⟩, And.left⟩
      rw [← isValue, same]
      rfl

/-- A whole compilation keeps the slots what they are, and keeps the constants that it gave. -/
theorem after (tidy : t.Tidy ceiling) (events : List Event) (value : Word) :
    (t.after ceiling events).Tidy ceiling ∧
      (((t.after ceiling events).interned? value).isSome = true ↔
        (t.interned? value).isSome = true ∨ t.WasInterned ceiling events value) := by
  induction events generalizing t with
  | nil => exact ⟨tidy, by simp [SlotTable.after, wasInterned_nil]⟩
  | cons event events ih =>
    obtain ⟨still, found⟩ := ih (tidy.apply event)
    rw [after_cons]
    refine ⟨still, found.trans ?_⟩
    rw [tidy.interned?_apply, wasInterned_cons, or_assoc]

end Tidy

/-! ## Order -/

/-- The slots are told apart by name and address, and the names tell registers, variables and constants
apart. -/
structure Orderly (ceiling : Nat) (t : SlotTable) : Prop where
  /-- What has a cell is numbered in the order of the table. -/
  addresses : (t.slots.filter (·.kind != .struct)).map (·.address) = (List.range t.next).map Int.ofNat
  names : (t.slots.map (·.asmName)).Nodup
  registers : ∀ s ∈ t.slots, IsNumbered 'r' s.asmName → s.kind = .register
  constants : ∀ s ∈ t.slots, IsNumbered 'n' s.asmName → s.kind = .constant
  /-- A constant is not zero, and its contents are the value that its name tells. -/
  values : ∀ s ∈ t.slots, s.kind = .constant → ∃ value : Word, value ≠ 0 ∧
    s.asmName = "n" ++ toString value.toNat ∧ s.contents.bind Word.ofHex? = some value
  once : ∀ s ∈ t.slots, ∀ s' ∈ t.slots, s.kind = .constant → s'.kind = .constant →
    s.contents.bind Word.ofHex? = s'.contents.bind Word.ofHex? → s = s'
  few : t.slots.countP (·.kind == .constant) ≤ ceiling

theorem Tidy.orderly (tidy : t.Tidy ceiling) : t.Orderly ceiling where
  addresses := tidy.valid.addresses
  names := tidy.valid.names
  registers s stored numbered := (tidy.sorted s stored).kind_of_isNumbered_r numbered
  constants s stored numbered := by
    obtain ⟨-, -, kind, -⟩ := (tidy.sorted s stored).of_isNumbered_n numbered
    exact kind
  values s stored isConstant := by
    obtain ⟨value, notZero, name, contents⟩ := (tidy.sorted s stored).of_kind isConstant
    exact ⟨value, notZero, name, by rw [contents, Option.bind_some, Word.ofHex?_toHex]⟩
  once s stored s' stored' isConstant isConstant' same := by
    obtain ⟨v, -, name, contents⟩ := (tidy.sorted s stored).of_kind isConstant
    obtain ⟨v', -, name', contents'⟩ := (tidy.sorted s' stored').of_kind isConstant'
    rw [contents, contents', Option.bind_some, Option.bind_some, Word.ofHex?_toHex, Word.ofHex?_toHex,
      Option.some.injEq] at same
    exact tidy.valid.eq_of_asmName stored stored' (name.trans (same ▸ name'.symm))
  few := tidy.few

end SlotTable

/-- Whatever is asked for and fixed after the layout of a contract, its table stays in order. A constant
is found exactly if it was given before, and one that is not zero is given as long as there is room. -/
theorem Layout.table_orderly {p : Program} {settings : Settings} {l : Layout}
    (isLayout : Layout.ofProgram p settings = .ok l) (ceiling : Nat) (events : List SlotTable.Event) :
    (l.table.after ceiling events).Orderly ceiling ∧
      ∀ value : Word,
        (((l.table.after ceiling events).interned? value).isSome = true ↔
          l.table.WasInterned ceiling events value) ∧
        (((l.table.after ceiling events).intern value ceiling).2.isSome = true ↔
          value ≠ 0 ∧ (l.table.WasInterned ceiling events value ∨
            (l.table.after ceiling events).internedCount < ceiling)) := by
  have laid : l.table.Laid := ofProgram_laid p settings l isLayout
  have tidy : l.table.Tidy ceiling := .of_layout laid (ofProgram_begins p settings l isLayout) ceiling
  have nothing : ∀ value, (l.table.interned? value).isSome = false := by
    intro value
    refine Bool.eq_false_iff.2 fun some => ?_
    obtain ⟨s, stored, kind, -⟩ := SlotTable.interned?_isSome_iff.1 some
    exact laid.noConstants s stored kind
  have still := tidy.after events
  have given : ∀ value, ((l.table.after ceiling events).interned? value).isSome = true ↔
      l.table.WasInterned ceiling events value := by
    intro value
    rw [(still value).2, nothing value]
    simp
  refine ⟨(still 0).1.orderly, fun value => ⟨given value, ?_⟩⟩
  rw [(still value).1.intern_isSome_iff, given value]

namespace Sample

/-- A struct variable, an array and a variable, and a function with a parameter. -/
def stock : Program where
  structs := [⟨"P", [⟨"x", false, none, none, 1⟩], 1⟩]
  globals := [.declaration ⟨.struct "P", false, [⟨"p", false, none, none, 2⟩], 2⟩,
    .declaration ⟨.long, false, [⟨"a", false, some 2, none, 3⟩, ⟨"n5x", false, none, none, 3⟩], 3⟩]
  functions := [⟨"f", .long, false, [⟨.long, false, "n", 4⟩], [], 4⟩]

/-- Two constants are asked for where there is room for one. The phrase between them is refused at its
second line, after the first has fixed a variable. -/
def history : List SlotTable.Event :=
  [.intern 5, .freeze 3 [.clear "n5x", .clear "n5x"], .intern 7, .intern 0, .intern 5]

/-- The first constant is kept and the second is not. -/
theorem stock_keeps : (Layout.ofProgram stock {}).Succeeds fun l =>
    ((l.table.after 1 history).interned? 5).isSome ∧ (l.table.after 1 history).interned? 7 = none ∧
      (l.table.after 1 history).find? "n5x" ≠ l.table.find? "n5x" ∧ (l.table.after 1 history).next = 10 := by
  decide +kernel

end Sample

/-- A table of ten cells and a struct variable, which kept one constant of two. -/
theorem Layout.table_orderly_stock : ∃ l, Layout.ofProgram Sample.stock {} = .ok l ∧
    (l.table.after 1 Sample.history).next = 10 ∧ (l.table.after 1 Sample.history).Orderly 1 ∧
    l.table.WasInterned 1 Sample.history 5 ∧ ¬ l.table.WasInterned 1 Sample.history 7 := by
  obtain ⟨l, isLayout, kept, notKept, -, cells⟩ := Sample.stock_keeps
  obtain ⟨orderly, constants⟩ := Layout.table_orderly isLayout 1 Sample.history
  refine ⟨l, isLayout, cells, orderly, (constants 5).1.1 kept, fun given => ?_⟩
  rw [← (constants 7).1, notKept] at given
  cases given

end ContractCompiler
