import ContractCompiler.Proofs.Scope

/-!
# Proofs.Frozen — what `const` phrases fix

The code of a `const` phrase is accepted exactly if every line loads a constant, and the lines load into
different variables that are open, which registers and variables with contents are not
(`SlotTable.Loads`). The compiler checks a line against the table that the lines before it left. These
lines have fixed open variables only, and a constant has contents, so that the table at the start
tells as well (`Loads.cons_iff`), and the lines before the first one refused are the longest part of the
code that is accepted (`freeze_cases`).
-/

namespace ContractCompiler

set_option autoImplicit false

/-- The line loads the constant `load.2` into the variable `load.1`. -/
inductive Instr.LoadsConstant (t : SlotTable) : Instr → String × String → Prop
  | literal (dest hex : String) : LoadsConstant t (.setLiteral dest hex) (dest, hex)
  | zero (dest : String) : LoadsConstant t (.clear dest) (dest, Word.toHex 0)
  | copy (dest : String) {s : Slot} {hex : String} (stored : s ∈ t.slots)
    (constant : s.kind = .constant) (contents : s.contents = some hex) :
    LoadsConstant t (.set dest s.asmName) (dest, hex)

/-- The slot after some loads. -/
def Slot.fixed (loads : List (String × String)) (s : Slot) : Slot :=
  { s with contents := (loads.lookup s.asmName).or s.contents }

namespace SlotTable

/-- Names tell the slots apart, and the constants have contents. -/
structure Stocked (t : SlotTable) : Prop where
  names : (t.slots.map (·.asmName)).Nodup
  constants : ∀ s ∈ t.slots, s.kind = .constant → s.contents.isSome = true

/-- The contents of the variable can still be fixed. -/
def IsOpen (t : SlotTable) (name : String) : Prop :=
  ∃ s ∈ t.slots, s.asmName = name ∧ s.kind ≠ .register ∧ s.contents = none

/-- The lines load constants, one each, into different open variables. -/
structure Loads (t : SlotTable) (code : List Instr) (loads : List (String × String)) : Prop where
  lines : List.Forall₂ (Instr.LoadsConstant t) code loads
  distinct : (loads.map (·.1)).Nodup
  isOpen : ∀ load ∈ loads, t.IsOpen load.1

/-- The table after some loads: the loaded variables have contents, and nothing else has changed. -/
def fixAll (t : SlotTable) (loads : List (String × String)) : SlotTable :=
  { t with slots := t.slots.map (·.fixed loads) }

variable {t t' : SlotTable} {line : Nat} {i directive : Instr} {code rest : List Instr}
  {load : String × String} {loads : List (String × String)} {name hex : String}

/-! ## One line -/

theorem fixAll_nil (t : SlotTable) : t.fixAll [] = t := by
  simp [fixAll, Slot.fixed]

theorem fixed_cons (other : load.1 ∉ loads.map (·.1)) (s : Slot) :
    (s.fixed [load]).fixed loads = s.fixed (load :: loads) := by
  obtain ⟨dest, hex⟩ := load
  have unloaded : loads.lookup dest = none := by
    refine List.lookup_eq_none_iff.2 fun l mem => ?_
    simpa using fun same : dest = l.1 => other (List.mem_map.2 ⟨l, mem, same.symm⟩)
  by_cases isDest : s.asmName = dest
  · simp [Slot.fixed, isDest, unloaded]
  · simp [Slot.fixed, List.lookup_cons, beq_false_of_ne isDest]

theorem fixAll_cons (other : load.1 ∉ loads.map (·.1)) :
    (t.fixAll [load]).fixAll loads = t.fixAll (load :: loads) := by
  simp [fixAll, fixed_cons other]

/-- A slot of another name stays as it is. -/
theorem fixed_of_ne {s : Slot} (ne : s.asmName ≠ load.1) : s.fixed [load] = s := by
  obtain ⟨dest, hex⟩ := load
  simp [Slot.fixed, List.lookup_cons, beq_false_of_ne ne]

theorem setContents_eq (names : (t.slots.map (·.asmName)).Nodup) (dest hex : String) :
    t.setContents dest (some hex) = t.fixAll [(dest, hex)] := by
  suffices same : modifyFirst (·.asmName == dest) ({ · with contents := some hex }) t.slots =
      t.slots.map (·.fixed [(dest, hex)]) by rw [setContents, fixAll, same]
  generalize t.slots = slots at names
  induction slots with
  | nil => rfl
  | cons s slots ih =>
    obtain ⟨other, names⟩ := List.nodup_cons.1 names
    rw [modifyFirst, List.map_cons]
    split
    · rename_i isDest
      obtain rfl : s.asmName = dest := by simpa using isDest
      have unchanged : slots.map (·.fixed [(s.asmName, hex)]) = slots.map id :=
        List.map_congr_left fun s' stored => fixed_of_ne fun same : s'.asmName = s.asmName =>
          other (List.mem_map.2 ⟨s', stored, same⟩)
      rw [unchanged, List.map_id]
      simp [Slot.fixed]
    · rename_i notDest
      rw [ih names, fixed_of_ne (by simpa using notDest)]

theorem isOpen_fixAll : (t.fixAll [load]).IsOpen name ↔ t.IsOpen name ∧ name ≠ load.1 := by
  constructor
  · rintro ⟨_, stored, rfl, notRegister, unset⟩
    obtain ⟨s, stored', rfl⟩ := List.mem_map.1 stored
    have ne : s.asmName ≠ load.1 := by
      rintro same
      simp [Slot.fixed, same] at unset
    rw [fixed_of_ne ne] at notRegister unset ⊢
    exact ⟨⟨s, stored', rfl, notRegister, unset⟩, ne⟩
  · rintro ⟨⟨s, stored, rfl, notRegister, unset⟩, ne⟩
    exact ⟨s, List.mem_map.2 ⟨s, stored, fixed_of_ne ne⟩, rfl, notRegister, unset⟩

namespace Stocked

variable (stocked : t.Stocked)
include stocked

/-- No constant is open. -/
theorem fixed_constant {s : Slot} (isOpen : t.IsOpen load.1) (stored : s ∈ t.slots)
    (constant : s.kind = .constant) : s.fixed [load] = s := by
  refine fixed_of_ne fun same => ?_
  obtain ⟨s', stored', name, -, unset⟩ := isOpen
  obtain rfl := List.inj_on_of_nodup_map stocked.names stored stored' (same.trans name.symm)
  simpa [unset] using stocked.constants s stored constant

theorem fixAll (isOpen : t.IsOpen load.1) : (t.fixAll [load]).Stocked where
  names := by simpa [SlotTable.fixAll, Slot.fixed, Function.comp_def] using stocked.names
  constants := by
    intro _ listed constant
    obtain ⟨s, stored, rfl⟩ := List.mem_map.1 listed
    have constant : s.kind = .constant := constant
    rw [stocked.fixed_constant isOpen stored constant]
    exact stocked.constants s stored constant

theorem loadsConstant_fixAll (isOpen : t.IsOpen load.1) {other : String × String} :
    i.LoadsConstant (t.fixAll [load]) other ↔ i.LoadsConstant t other := by
  constructor
  · rintro (⟨dest, hex⟩ | ⟨dest⟩ | ⟨dest, listed, constant, contents⟩)
    · exact .literal dest hex
    · exact .zero dest
    · obtain ⟨s, stored, rfl⟩ := List.mem_map.1 listed
      have constant : s.kind = .constant := constant
      rw [stocked.fixed_constant isOpen stored constant] at contents ⊢
      exact .copy dest stored constant contents
  · rintro (⟨dest, hex⟩ | ⟨dest⟩ | ⟨dest, stored, constant, contents⟩)
    · exact .literal dest hex
    · exact .zero dest
    · exact .copy dest (List.mem_map.2 ⟨_, stored, stocked.fixed_constant isOpen stored constant⟩)
        constant contents

theorem constantLoad_eq_ok (line : Nat) : t.constantLoad line i = .ok load ↔ i.LoadsConstant t load := by
  constructor
  · unfold constantLoad
    intro loads
    split at loads
    · cases loads
      exact .literal _ _
    · cases loads
      exact .zero _
    · split at loads
      · rename_i source found
        obtain ⟨stored, rfl⟩ := (find?_eq_some_iff stocked.names).1 found
        split at loads
        · rename_i constant
          split at loads
          · rename_i hex contents
            cases loads
            exact .copy _ stored constant contents
          · cases loads
        · cases loads
      · cases loads
    · cases loads
  · rintro (⟨dest, hex⟩ | ⟨dest⟩ | ⟨dest, stored, constant, contents⟩)
    · rfl
    · rfl
    · simp [constantLoad, (find?_eq_some_iff stocked.names).2 ⟨stored, rfl⟩, constant, contents]

/-- A line loads one constant. -/
theorem unique : Relator.RightUnique (Instr.LoadsConstant t) := by
  intro i load load' loads loads'
  have same := (stocked.constantLoad_eq_ok 0).2 loads
  rw [(stocked.constantLoad_eq_ok 0).2 loads'] at same
  exact (Except.ok.inj same).symm

/-- One line is accepted exactly if it loads a constant into an open variable. -/
theorem freezeOne_eq_ok_iff : t.freezeOne line i = .ok (t', directive) ↔
    ∃ load, i.LoadsConstant t load ∧ t.IsOpen load.1 ∧ t' = t.fixAll [load] ∧
      directive = .constSet load.1 load.2 := by
  constructor
  · intro frozen
    obtain ⟨dest, hex, s, loads, found, notRegister, unset, rfl, rfl⟩ := freezeOne_eq_ok frozen
    obtain ⟨stored, name⟩ := (find?_eq_some_iff stocked.names).1 found
    exact ⟨(dest, hex), (stocked.constantLoad_eq_ok line).1 loads, ⟨s, stored, name, notRegister, unset⟩,
      setContents_eq stocked.names dest hex, rfl⟩
  · rintro ⟨load, loads, ⟨s, stored, name, notRegister, unset⟩, rfl, rfl⟩
    rw [← setContents_eq stocked.names]
    simp [freezeOne, (stocked.constantLoad_eq_ok line).2 loads, (find?_eq_some_iff stocked.names).2 ⟨stored, name⟩,
      notRegister, Slot.isFrozen, unset, bind, Except.bind, pure, Except.pure]

end Stocked

/-! ## Whole phrases -/

/-- The lines after the first one are checked in the table that the first one leaves. -/
theorem Loads.cons_iff (stocked : t.Stocked) : t.Loads (i :: code) (load :: loads) ↔
    i.LoadsConstant t load ∧ t.IsOpen load.1 ∧ (t.fixAll [load]).Loads code loads := by
  constructor
  · rintro ⟨lines, distinct, isOpen⟩
    obtain ⟨first, lines⟩ := List.forall₂_cons.1 lines
    obtain ⟨other, distinct⟩ := List.nodup_cons.1 distinct
    obtain ⟨isOpenFirst, isOpen⟩ := List.forall_mem_cons.1 isOpen
    refine ⟨first, isOpenFirst, lines.imp fun _ _ => (stocked.loadsConstant_fixAll isOpenFirst).2,
      distinct, fun l mem => isOpen_fixAll.2 ⟨isOpen l mem, fun same => other ?_⟩⟩
    exact List.mem_map.2 ⟨l, mem, same⟩
  · rintro ⟨first, isOpenFirst, lines, distinct, isOpen⟩
    refine ⟨.cons first (lines.imp fun _ _ => (stocked.loadsConstant_fixAll isOpenFirst).1),
      List.nodup_cons.2 ⟨fun mem => ?_, distinct⟩,
      List.forall_mem_cons.2 ⟨isOpenFirst, fun l mem => (isOpen_fixAll.1 (isOpen l mem)).1⟩⟩
    obtain ⟨l, mem, same⟩ := List.mem_map.1 mem
    exact (isOpen_fixAll.1 (isOpen l mem)).2 same

theorem Loads.nil (t : SlotTable) : t.Loads [] [] := ⟨.nil, .nil, nofun⟩

/-- The first lines of an accepted phrase are accepted. -/
theorem Loads.of_append (stocked : t.Stocked) (accepted : t.Loads (code ++ rest) loads) :
    ∃ first, t.Loads code first := by
  induction code generalizing t loads with
  | nil => exact ⟨[], .nil t⟩
  | cons i code ih =>
    cases loads with
    | nil => cases accepted.lines
    | cons load loads =>
      obtain ⟨first, isOpen, accepted⟩ := (cons_iff stocked).1 accepted
      obtain ⟨others, accepted⟩ := ih (stocked.fixAll isOpen) accepted
      exact ⟨load :: others, (cons_iff stocked).2 ⟨first, isOpen, accepted⟩⟩

/-- A phrase is accepted and fixes what it loads, or is refused at the first line that makes it none of
that kind, with what the lines before that fix. -/
theorem freeze_cases (stocked : t.Stocked) (line : Nat) (code : List Instr) :
    (∃ loads, t.Loads code loads ∧
      t.freeze line code = (t.fixAll loads, .ok (loads.map fun load => .constSet load.1 load.2))) ∨
    ∃ before i rest loads e, code = before ++ i :: rest ∧ t.Loads before loads ∧
      (¬ ∃ more, t.Loads (before ++ [i]) more) ∧ t.freeze line code = (t.fixAll loads, .error e) := by
  induction code generalizing t with
  | nil => exact .inl ⟨[], .nil t, by rw [fixAll_nil]; rfl⟩
  | cons i code ih =>
    rw [freeze]
    cases one : t.freezeOne line i with
    | error e =>
      refine .inr ⟨[], i, code, [], e, rfl, .nil t, ?_, by rw [fixAll_nil]⟩
      rintro ⟨more, accepted⟩
      cases more with
      | nil => cases accepted.lines
      | cons load more =>
        obtain ⟨loads, isOpen, -⟩ := (Loads.cons_iff stocked).1 accepted
        have accepted : t.freezeOne line i = _ := stocked.freezeOne_eq_ok_iff.2 ⟨load, loads, isOpen, rfl, rfl⟩
        rw [one] at accepted
        cases accepted
    | ok made =>
      obtain ⟨load, loadsOne, isOpen, isTable, isDirective⟩ := stocked.freezeOne_eq_ok_iff.1 one
      have cons {code loads} : (t.fixAll [load]).Loads code loads → t.Loads (i :: code) (load :: loads) :=
        fun accepted => (Loads.cons_iff stocked).2 ⟨loadsOne, isOpen, accepted⟩
      have fixes {code loads} (accepted : (t.fixAll [load]).Loads code loads) :
          (t.fixAll [load]).fixAll loads = t.fixAll (load :: loads) :=
        fixAll_cons (List.nodup_cons.1 (cons accepted).distinct).1
      dsimp only
      rw [isTable, isDirective]
      rcases ih (stocked.fixAll isOpen) with ⟨loads, accepted, frozen⟩ |
        ⟨before, j, rest, loads, e, rfl, accepted, refused, frozen⟩
      · refine .inl ⟨load :: loads, cons accepted, ?_⟩
        rw [frozen, fixes accepted]
        rfl
      · refine .inr ⟨i :: before, j, rest, load :: loads, e, rfl, cons accepted, ?_, ?_⟩
        · rintro ⟨more, accepted'⟩
          cases more with
          | nil => cases accepted'.lines
          | cons load' more =>
            obtain ⟨loadsOne', -, accepted'⟩ := (Loads.cons_iff stocked).1 accepted'
            obtain rfl := stocked.unique loadsOne loadsOne'
            exact refused ⟨more, accepted'⟩
        · rw [frozen, fixes accepted]
          rfl

/-- A `const` phrase is accepted exactly if its lines load constants into different open variables. It
then consists of one directive for each line and fixes what the lines load. If it is refused, what the lines
before the first bad one load is fixed. Nothing else changes; and what is fixed stays, whatever phrases
follow, refused ones and new constants included. -/
theorem freeze_fixes_loads (stocked : t.Stocked) (line : Nat) (code : List Instr) :
    ((∃ directives, (t.freeze line code).2 = .ok directives) ↔ ∃ loads, t.Loads code loads) ∧
    (∀ loads, t.Loads code loads → t.freeze line code =
      (t.fixAll loads, .ok (loads.map fun load => .constSet load.1 load.2))) ∧
    (∀ e, (t.freeze line code).2 = .error e → ∃ before i rest loads, code = before ++ i :: rest ∧
      t.Loads before loads ∧ (¬ ∃ more, t.Loads (before ++ [i]) more) ∧
      (t.freeze line code).1 = t.fixAll loads) ∧
    ∀ (ceiling : Nat) (events later : List Event) (name : String) (s : Slot),
      (t.after ceiling events).find? name = some s → s.isFrozen = true →
        (t.after ceiling (events ++ later)).find? name = some s := by
  have stays : ∀ (ceiling : Nat) (events later : List Event) (name : String) (s : Slot),
      (t.after ceiling events).find? name = some s → s.isFrozen = true →
        (t.after ceiling (events ++ later)).find? name = some s := by
    intro ceiling events later name s found frozen
    obtain ⟨s', found', becomes⟩ := find?_slots_after
      (fun _ _ becomes => by rw [becomes.asmName]) later found
    obtain ⟨hex, contents⟩ := Option.isSome_iff_exists.1 frozen
    have same : s = s' := by
      have same := becomes.same
      rw [becomes.kept hex contents, ← contents] at same
      exact same
    rw [after, List.foldl_append]
    exact same ▸ found'
  rcases freeze_cases stocked line code with ⟨loads, accepted, frozen⟩ |
    ⟨before, i, rest, loads, e, rfl, accepted, refused, frozen⟩
  · refine ⟨⟨fun _ => ⟨loads, accepted⟩, fun _ => ⟨_, congrArg Prod.snd frozen⟩⟩,
      fun loads' accepted' => ?_, fun e isError => ?_, stays⟩
    · rw [stocked.unique.forall₂ accepted'.lines accepted.lines]
      exact frozen
    · rw [frozen] at isError
      cases isError
  · have refused' : ¬ ∃ loads, t.Loads (before ++ i :: rest) loads := by
      rintro ⟨loads, accepted⟩
      rw [← List.singleton_append, ← List.append_assoc] at accepted
      exact refused (Loads.of_append stocked accepted)
    refine ⟨⟨fun accepts => ?_, fun accepted => absurd accepted refused'⟩,
      fun loads' accepted' => absurd ⟨loads', accepted'⟩ refused', fun _ _ => ?_, stays⟩
    · obtain ⟨_, isOk⟩ := accepts
      rw [frozen] at isOk
      cases isOk
    · exact ⟨before, i, rest, loads, rfl, accepted, refused, congrArg Prod.fst frozen⟩

end SlotTable

namespace Sample

/-- A register, two variables and the constant five. -/
def drawer : SlotTable :=
  let slots := ["a", "b"].map fun name => Slot.fresh name name .long Slot.globalScope .long
  ((slots.foldl SlotTable.push (.ofRegisters 1)).intern 5 3).1

end Sample

/-- `a` becomes five and `b` zero, and `a` stays five. -/
theorem SlotTable.freeze_fixes_loads_copy :
    let code : List Instr := [.set "a" "n5", .clear "b"]
    let loads := [("a", Word.toHex 5), ("b", Word.toHex 0)]
    Sample.drawer.freeze 1 code = (Sample.drawer.fixAll loads,
      .ok [.constSet "a" (Word.toHex 5), .constSet "b" (Word.toHex 0)]) ∧
    ∀ later : List Event, ((Sample.drawer.after 3 ([.freeze 1 code] ++ later)).find? "a").bind
      (·.contents) = some (Word.toHex 5) := by
  intro code loads
  have stocked : Sample.drawer.Stocked := ⟨by decide +kernel, by decide +kernel⟩
  have accepted : Sample.drawer.Loads code loads := by
    refine ⟨.cons ?_ (.cons (.zero "b") .nil), by decide, ?_⟩
    · exact .copy "a" (s := ⟨3, "", "n5", .constant, "global", .long, 1, some (Word.toHex 5), none⟩)
        (by decide +kernel) rfl rfl
    · unfold IsOpen
      decide +kernel
  obtain ⟨-, fixes, -, stays⟩ := SlotTable.freeze_fixes_loads stocked 1 code
  refine ⟨fixes loads accepted, fun later => ?_⟩
  have found : (Sample.drawer.after 3 [.freeze 1 code]).find? "a" =
      some ⟨1, "a", "a", .long, "global", .long, 1, some (Word.toHex 5), none⟩ := by decide +kernel
  rw [stays 3 [.freeze 1 code] later "a" _ found rfl]
  rfl

end ContractCompiler
