import ContractCompiler.Codegen.Select
import ContractCompiler.Proofs.Codegen.Operand

/-!
# Proofs.Codegen.Select — the code of single operations does what the operation says

For slots of every kind, the code of an assignment, of an operator, of a change in place and of a
comparison has the effect of the operation on the values that the slots had before, and changes
nothing else but free registers. This holds for the code that is cheaper than the general one as well,
and where both operands are the same cell.
-/

namespace ContractCompiler

set_option autoImplicit false

open Codegen (State Context)

/-- What a change in place makes of a word. -/
def Update.apply : Update → Word → Word
  | step s, w => s.apply w
  | complement, w => ~~~ w

theorem Machine.Leads.update {M : Machine} {m : Memory} {d : String} {dest : Int} (u : Update)
    (known : M.cell? d = some dest) :
    M.Leads [u.instr d] none m (m.set dest (u.apply (m dest))) := by
  match u with
  | .step .up => exact .increment known
  | .step .down => exact .decrement known
  | .complement => exact .complement known

/-- Code that is cheaper than the general one computes the same. -/
theorem BinaryOp.cheap?_leads {M : Machine} {m : Memory} {op : BinaryOp} {value : Word}
    {twoKept : Bool} {d : String} {dest : Int} {code : List Instr}
    (cheap : op.cheap? value twoKept d = some code) (known : M.cell? d = some dest) :
    M.Leads code none m (m.set dest (op.apply M.arithmetic (m dest) value)) := by
  have nothing : M.Leads [] none m (m.set dest (m dest)) := by
    simpa using Machine.Leads.nil m
  cases op with
  | add =>
    simp only [cheap?] at cheap
    split at cheap
    · cases cheap
      simpa [BinaryOp.apply, ‹value = 0›] using nothing
    · split at cheap
      · cases cheap
        simpa [BinaryOp.apply, Step.apply, ‹value = 1›] using Machine.Leads.increment known
      · split at cheap
        · rename_i two
          cases cheap
          have twice := (Machine.Leads.increment (m := m) known).append (.increment known)
          have sum : m dest + 1 + 1 = m dest + 2 := by rw [UInt64.add_assoc]; rfl
          simpa [BinaryOp.apply, Step.apply, two.1, sum] using twice
        · cases cheap
  | sub =>
    simp only [cheap?] at cheap
    split at cheap
    · cases cheap
      simpa [BinaryOp.apply, ‹value = 0›] using nothing
    · split at cheap
      · cases cheap
        simpa [BinaryOp.apply, Step.apply, ‹value = 1›] using Machine.Leads.decrement known
      · cases cheap
  | mul =>
    simp only [cheap?] at cheap
    split at cheap
    · cases cheap
      simpa [BinaryOp.apply, ‹value = 0›] using Machine.Leads.clear known
    · split at cheap
      · cases cheap
        simpa [BinaryOp.apply, ‹value = 1›] using nothing
      · cases cheap
  | div =>
    simp only [cheap?] at cheap
    split at cheap
    · cases cheap
      simpa [BinaryOp.apply, ‹value = 1›, M.arithmetic.div_one] using nothing
    · cases cheap
  | _ => cases cheap

namespace Codegen

variable {ctx : Context} {st st₁ st₂ st' : State} {line : Nat} {s target source dest : Slot}

/-! ## Assignments -/

theorem setLiteral_ends (name : String) (value : Word) :
    (setLiteral name value).Ends ctx st fun _ code st' => st' = st ∧
      ∀ {M : Machine} {m : Memory} {a : Int}, M.Hosts st → M.Fixed m → M.cell? name = some a →
        M.Leads code none m (m.set a value) := by
  unfold setLiteral
  split
  · rename_i zero
    exact .emit ⟨rfl, fun _ _ known => zero ▸ .clear known⟩
  · refine .bind (.of rfl ?_)
    split
    · rename_i constant found
      obtain ⟨stored, kind, -, contents⟩ := SlotTable.interned?_eq_some found
      refine .emit ⟨rfl, fun {M m a} hosts fixed known => ?_⟩
      have storedIn : constant.StoredIn st.table := .of_mem stored (by simp [kind])
      have holds := hosts.constant_eq fixed stored kind contents
      simpa [holds] using Machine.Leads.set (m := m) known (hosts.cell?_eq storedIn)
    · exact .emit ⟨rfl, fun _ _ known => .setLiteral known (Word.ofHex?_toHex value)⟩

/-- Slots at the same place are one cell. -/
theorem value_of_sameLocation {s t : Slot} (same : s.sameLocation t = true) (m : Memory) :
    s.value m = m t.address := by
  simp only [Slot.sameLocation, Bool.and_eq_true, bne_iff_ne, beq_iff_eq, Slot.isDirect,
    Option.isNone_iff_eq_none] at same
  obtain ⟨⟨⟨somewhere, address⟩, direct⟩, -⟩ := same
  have notLiteral : s.literal? = none := by simp [Slot.literal?, somewhere]
  rw [Slot.value_of_not_literal notLiteral, Slot.cell_direct direct, address]

/-- A slot is written into a cell. -/
theorem setCell_ends (valid : st.Valid) (stored : dest.StoredIn st.table)
    (usable : source.Usable st) :
    (setCell dest source line).Ends ctx st fun _ code st' => st.Takes [] [] st' ∧
      ∀ {M : Machine} {m : Memory}, M.Hosts st' → M.Fixed m → M.Clear m source →
        ∃ m', M.Leads code none m m' ∧ st.Frame (m.set dest.address (source.value m)) m' := by
  unfold setCell
  split
  · rename_i same
    refine .pure ⟨.refl valid, fun {M m} _ _ _ => ⟨m, .nil m, ?_⟩⟩
    simpa [value_of_sameLocation same] using State.Frame.refl st m
  split
  · rename_i value isLiteral
    refine (setLiteral_ends dest.asmName value).mono ?_
    rintro _ code st ⟨rfl, run⟩
    refine ⟨.refl valid, fun {M m} hosts fixed _ => ⟨_, run hosts fixed (hosts.cell?_eq stored), ?_⟩⟩
    simpa [Slot.value_of_literal isLiteral] using State.Frame.refl st _
  rename_i notLiteral
  have value := Slot.value_of_not_literal notLiteral
  cases isView : source.isView with
  | false =>
    refine .bind ((place_ends_direct valid usable notLiteral isView).mono ?_)
    rintro _ _ st ⟨rfl, rfl, s₁, rfl, stored₁, -, -, cell, -⟩
    dsimp only
    split
    · rename_i same
      refine .pure ⟨.refl valid, fun {M m} _ _ _ => ⟨m, .nil m, ?_⟩⟩
      have sameAddress : s₁.address = dest.address := by
        simp only [Slot.sameLocation, Bool.and_eq_true, beq_iff_eq] at same
        exact same.1.1.2
      simpa [value, cell, sameAddress] using State.Frame.refl st m
    · refine .emit ⟨.refl valid, fun {M m} hosts _ _ =>
        ⟨m.set dest.address (source.value m), ?_, .refl st _⟩⟩
      rw [value, cell]
      exact .set (hosts.cell?_eq stored) (hosts.cell?_eq stored₁)
  | true =>
    refine .bind ((place_ends_view valid usable isView).mono ?_)
    rintro _ c₁ s₁ ⟨base, name, holds, rfl, takes, run⟩
    refine .bind (.emit (.giveBack ⟨takes.releaseAll, fun {M m} hosts fixed clear => ?_⟩))
    have hosts₁ : M.Hosts s₁ := ⟨hosts.valid, hosts.grows⟩
    have hosts₀ := hosts₁.earlier takes
    obtain ⟨m₁, leads, frame, points⟩ := run hosts₁ fixed
    have same : m₁ (source.cell m) = source.value m := by
      rw [value, frame _ (usable.not_free_cell valid hosts₀ clear notLiteral)]
    refine ⟨m₁.set dest.address (source.value m), ?_, frame.set_set _ _⟩
    simpa [same] using leads.append (points.load (hosts₀.cell?_eq stored))

theorem literal?_eq_none_of_writable (writable : ¬ target.isUnwritable = true) :
    target.literal? = none := by
  by_contra isLiteral
  have kind := Slot.kind_of_literal? (Option.isSome_iff_ne_none.2 isLiteral)
  simp [Slot.isUnwritable, kind.1] at writable

/-- `target = source` writes what the source stands for into the cell of the target. -/
theorem assign_ends (valid : st.Valid) (usableTarget : target.Usable st)
    (usable : source.Usable st) :
    (assign target source line).Ends ctx st fun _ code st' => st.Takes [] [] st' ∧
      ∀ {M : Machine} {m : Memory}, M.Hosts st' → M.Fixed m → M.Clear m target → M.Clear m source →
        ∃ m', M.Leads code none m m' ∧
          st.Frame (m.set (target.cell m) (source.value m)) m' := by
  unfold assign
  split
  · exact .fail _
  rename_i writable
  have notLiteral := literal?_eq_none_of_writable writable
  cases isView : target.isView with
  | false =>
    refine .bind ((place_ends_direct valid usableTarget notLiteral isView).mono ?_)
    rintro _ _ st ⟨rfl, rfl, dest, rfl, stored, -, -, cell, -⟩
    refine (setCell_ends valid stored usable).mono ?_
    rintro _ code st' ⟨takes, run⟩
    refine ⟨takes, fun {M m} hosts fixed _ clear => ?_⟩
    simpa [cell] using run hosts fixed clear
  | true =>
    refine .bind ((place_ends_view valid usableTarget isView).mono ?_)
    rintro _ c₁ s₁ ⟨base, name, holds, rfl, takes, run⟩
    refine .bind (.holding ((resolve_ends takes.valid (usable.mono valid takes)).mono ?_))
    rintro src c₂ s₂ ⟨takesSrc, settled, runSrc⟩
    have takesAll := (takes.trans takesSrc).releaseAll
    rw [State.release_append] at takesAll
    refine .bind (.emit (.bind (.giveBack (.release ⟨takesAll,
      fun {M m} hosts fixed clearT clear => ?_⟩))))
    have hosts₂ : M.Hosts s₂ := ⟨hosts.valid, hosts.grows⟩
    have hosts₁ := hosts₂.earlier takesSrc
    have hosts₀ := hosts₁.earlier takes
    obtain ⟨m₁, leads₁, frame₁, points⟩ := run hosts₁ fixed
    obtain ⟨m₂, leads₂, frame₂, value⟩ := runSrc hosts₂ (fixed.frame hosts₀ valid frame₁)
      (usable.clear_frame valid clear frame₁)
    rw [usable.value_eq valid hosts₀ clear frame₁] at value
    have points₂ := (points.frame frame₂).mono takes.valid takesSrc
    have stores := points₂.store (hosts₂.cell?_eq settled.stored)
    rw [value] at stores
    refine ⟨m₂.set (target.cell m) (source.value m), ?_, ?_⟩
    · simpa using leads₁.append (leads₂.append stores)
    · exact (frame₁.trans (frame₂.weaken takes valid)).set_set _ _

/-! ## Operations on a variable -/

/-- What was computed in a register is written back, and what was computed in place stays there. The
state `st` is the one before the variable was loaded, with memory `m`, and `st₁` the one after it, with
memory `m₁`. -/
theorem writeBack_ends {o : Operand} (valid : st.Valid) (usable : target.Usable st)
    (notLiteral : target.literal? = none) (takes : st.Takes o.holds [] st₁)
    (settled : o.Settled st₁) (inPlace : o.holds = [] → ∀ m, target.cell m = o.slot.address)
    (computed : st₁.Takes [] [] st₂) :
    (writeBack target o line).Ends ctx st₂ fun _ code st' => st.Takes [] [] st' ∧
      st₂.table.Interns st'.table ∧
      ∀ {M : Machine} {m m₁ m₂ : Memory} {w : Word}, M.Hosts st' → M.Fixed m → M.Clear m target →
        st.Frame m m₁ → st₁.Frame (m₁.set o.slot.address w) m₂ →
        ∃ m', M.Leads code none m₂ m' ∧ st.Frame (m.set (target.cell m) w) m' := by
  have takes₂ := takes.trans computed
  rw [List.append_nil] at takes₂
  unfold writeBack
  split
  · rename_i isEmpty
    have noHolds : o.holds = [] := List.isEmpty_iff.1 isEmpty
    rw [noHolds] at takes₂
    refine .pure ⟨takes₂, .refl _, fun {M m m₁ m₂ w} _ _ _ loaded result => ⟨m₂, .nil m₂, ?_⟩⟩
    rw [inPlace noHolds]
    exact (loaded.set_set _ _).trans (result.weaken takes valid)
  · rename_i notEmpty
    obtain ⟨holds, register⟩ :=
      settled.holds.resolve_left fun noHolds => notEmpty (List.isEmpty_iff.2 noHolds)
    have mem : o.slot ∈ o.holds := by simp [holds]
    have usableO : o.slot.Usable st₁ := .of_direct settled.stored settled.kept settled.direct
    have usableO₂ := usableO.mono takes.valid computed
    refine .bind (.holding ((assign_ends takes₂.valid (usable.mono valid takes₂) usableO₂).mono ?_))
    rintro _ code s₃ ⟨takesAssign, run⟩
    have takesAll := (takes₂.trans takesAssign).release
      (by simp : (o.holds ++ []).Perm ([] ++ o.holds))
    refine .giveBack ⟨takesAll, takesAssign.interns,
      fun {M m m₁ m₂ w} hosts fixed clear loaded result => ?_⟩
    have hosts₃ : M.Hosts s₃ := ⟨hosts.valid, hosts.grows⟩
    have hosts₀ := hosts₃.earlier (takes₂.trans takesAssign)
    -- the register was free before, so that the target is still where it was
    have frame : st.Frame m m₂ :=
      (loaded.trans (.set (free_of_takes valid takes mem) _ _)).trans (result.weaken takes valid)
    obtain ⟨m', leads, frame'⟩ := run hosts₃ (fixed.frame hosts₀ valid frame)
      (usable.clear_frame valid clear frame) (fun notDirect => absurd settled.direct notDirect)
    have value : o.slot.value m₂ = w := by
      rw [Slot.value_of_not_literal (settled.stored.literal?_eq_none takes.valid.table),
        Slot.cell_direct settled.direct, result _ settled.kept, Memory.set_self]
    rw [usable.cell_eq notLiteral frame, value] at frame'
    exact ⟨m', by simpa using leads, (frame.set_set _ _).trans (frame'.weaken takes₂ valid)⟩

/-- A variable is brought into a cell that is its own, or into a register that is held. -/
theorem resolve_ends_target (valid : st.Valid) (usable : s.Usable st)
    (notLiteral : s.literal? = none) :
    (resolve s line).Ends ctx st fun o code st' =>
      st.Takes o.holds [] st' ∧ o.Settled st' ∧
        (o.holds = [] → ∀ m, s.cell m = o.slot.address) ∧
        ∀ {M : Machine} {m : Memory}, M.Hosts st' → M.Fixed m → M.Clear m s →
          ∃ m', M.Leads code none m m' ∧ st.Frame m m' ∧ m' o.slot.address = s.value m := by
  have value := Slot.value_of_not_literal notLiteral
  cases isView : s.isView with
  | true =>
    refine (resolve_ends_view valid usable notLiteral isView).mono ?_
    rintro o code st' ⟨holds, settled, takes, run⟩
    refine ⟨takes, settled, by simp [holds], fun {M m} hosts fixed clear => ?_⟩
    simpa [value] using run hosts fixed clear
  | false =>
    refine (resolve_ends_direct valid usable notLiteral isView).mono ?_
    rintro o _ st ⟨rfl, rfl, noHolds, settled, cell, -⟩
    refine ⟨noHolds ▸ .refl valid, settled, fun _ => cell, fun {M m} _ _ _ => ?_⟩
    exact ⟨m, .nil m, .refl st m, by rw [value, cell]⟩

/-- `left = left op right` applies the operator to what both stood for. -/
theorem operate_ends {op : BinaryOp} {left right : Slot} (valid : st.Valid)
    (usableL : left.Usable st) (usableR : right.Usable st) :
    (operate op left right line).Ends ctx st fun _ code st' => st.Takes [] [] st' ∧
      ∀ {M : Machine} {m : Memory}, M.Hosts st' → M.Fixed m → M.Clear m left → M.Clear m right →
        ∃ m', M.Leads code none m m' ∧
          st.Frame (m.set (left.cell m) (op.apply M.arithmetic (left.value m) (right.value m))) m' := by
  unfold operate
  split
  · exact .fail _
  rename_i notConstant
  have notLiteral : left.literal? = none := by
    by_contra isLiteral
    exact notConstant (Slot.kind_of_literal? (Option.isSome_iff_ne_none.2 isLiteral)).1
  refine .bind ((resolve_ends_target valid usableL notLiteral).mono ?_)
  rintro o c₁ s₁ ⟨takes, settled, inPlace, load⟩
  have usableR₁ := usableR.mono valid takes
  refine .bind (.of rfl ?_)
  dsimp only
  split
  · -- the operand is a literal for which there is cheaper code
    rename_i code found
    obtain ⟨value, isLiteral, cheap⟩ := Option.bind_eq_some_iff.1 found
    refine .bind (.emitAll ((writeBack_ends valid usableL notLiteral takes settled inPlace
      (.refl takes.valid)).mono ?_))
    rintro _ c₃ st' ⟨takesAll, interns, back⟩
    refine ⟨takesAll, fun {M m} hosts fixed clearL clearR => ?_⟩
    have hosts₁ : M.Hosts s₁ := hosts.of_interns interns
    obtain ⟨m₁, leads₁, frame₁, value₁⟩ := load hosts₁ fixed clearL
    have leads₂ := BinaryOp.cheap?_leads (m := m₁) cheap (hosts₁.cell?_eq settled.stored)
    obtain ⟨m', leads₃, frame'⟩ := back hosts fixed clearL frame₁ (.refl s₁ _)
    refine ⟨m', leads₁.append (leads₂.append leads₃), ?_⟩
    rw [← value₁, Slot.value_of_literal isLiteral]
    exact frame'
  · refine .bind (.holding ((resolve_ends takes.valid usableR₁).mono ?_))
    rintro src c₂ s₂ ⟨takesSrc, settledSrc, loadSrc⟩
    refine .bind (.emit (.bind (.giveBack ((writeBack_ends valid usableL notLiteral takes settled
      inPlace takesSrc.releaseAll).mono ?_))))
    rintro _ c₃ st' ⟨takesAll, interns, back⟩
    refine ⟨takesAll, fun {M m} hosts fixed clearL clearR => ?_⟩
    have hosts₂ : M.Hosts s₂ := hosts.of_interns interns
    have hosts₁ := hosts₂.earlier takesSrc
    have hosts₀ := hosts₁.earlier takes
    obtain ⟨m₁, leads₁, frame₁, value₁⟩ := load hosts₁ fixed clearL
    obtain ⟨m₂, leads₂, frame₂, value₂⟩ := loadSrc hosts₂ (fixed.frame hosts₀ valid frame₁)
      (usableR.clear_frame valid clearR frame₁)
    rw [usableR.value_eq valid hosts₀ clearR frame₁] at value₂
    have computes := Machine.Leads.binary (m := m₂) op (hosts₁.cell?_eq settled.stored)
      (hosts₂.cell?_eq settledSrc.stored)
    rw [value₂, frame₂ _ settled.kept, value₁] at computes
    obtain ⟨m', leads₃, frame'⟩ := back hosts fixed clearL frame₁ (frame₂.set_set _ _)
    exact ⟨m', by simpa using leads₁.append (leads₂.append (computes.append leads₃)), frame'⟩

/-- A change in place applies to what the variable stood for. -/
theorem update_ends {u : Update} (valid : st.Valid) (usable : target.Usable st) :
    (update u target line).Ends ctx st fun _ code st' => st.Takes [] [] st' ∧
      ∀ {M : Machine} {m : Memory}, M.Hosts st' → M.Fixed m → M.Clear m target →
        ∃ m', M.Leads code none m m' ∧
          st.Frame (m.set (target.cell m) (u.apply (target.value m))) m' := by
  unfold update
  split
  · exact .fail _
  rename_i writable
  have notLiteral := literal?_eq_none_of_writable writable
  refine .bind ((resolve_ends_target valid usable notLiteral).mono ?_)
  rintro o c₁ s₁ ⟨takes, settled, inPlace, load⟩
  refine .bind (.emit ((writeBack_ends valid usable notLiteral takes settled inPlace
    (.refl takes.valid)).mono ?_))
  rintro _ c₃ st' ⟨takesAll, interns, back⟩
  refine ⟨takesAll, fun {M m} hosts fixed clear => ?_⟩
  have hosts₁ : M.Hosts s₁ := hosts.of_interns interns
  obtain ⟨m₁, leads₁, frame₁, value₁⟩ := load hosts₁ fixed clear
  have changes := Machine.Leads.update (m := m₁) u (hosts₁.cell?_eq settled.stored)
  obtain ⟨m', leads₃, frame'⟩ := back hosts fixed clear frame₁ (.refl s₁ _)
  refine ⟨m', leads₁.append (changes.append leads₃), ?_⟩
  rw [← value₁]
  exact frame'

/-! ## Jumps -/

/-- Jumps if the value is zero, or if it is not. -/
theorem jumpIfZero_ends {isZero : Bool} {label : String} (valid : st.Valid) (usable : s.Usable st) :
    (jumpIfZero isZero s label line).Ends ctx st fun _ code st' => st.Takes [] [] st' ∧
      ∀ {M : Machine} {m : Memory}, M.Hosts st' → M.Fixed m → M.Clear m s →
        ∃ m', M.Leads code (if (s.value m == 0) == isZero then some label else none) m m' ∧
          st.Frame m m' := by
  refine .bind ((resolve_ends valid usable).mono ?_)
  rintro o c₁ s₁ ⟨takes, settled, load⟩
  dsimp only
  cases isZero with
  | true =>
    refine .bind (.emit (.release ⟨takes.releaseAll, fun {M m} hosts fixed clear => ?_⟩))
    have hosts₁ : M.Hosts s₁ := ⟨hosts.valid, hosts.grows⟩
    obtain ⟨m₁, leads₁, frame₁, value₁⟩ := load hosts₁ fixed clear
    have jumps := Machine.Leads.branchZero (m := m₁) (hosts₁.cell?_eq settled.stored) label
    rw [value₁] at jumps
    exact ⟨m₁, by simpa using leads₁.append jumps, frame₁⟩
  | false =>
    refine .bind (.emit (.release ⟨takes.releaseAll, fun {M m} hosts fixed clear => ?_⟩))
    have hosts₁ : M.Hosts s₁ := ⟨hosts.valid, hosts.grows⟩
    obtain ⟨m₁, leads₁, frame₁, value₁⟩ := load hosts₁ fixed clear
    have jumps := Machine.Leads.branchNonzero (m := m₁) (hosts₁.cell?_eq settled.stored) label
    rw [value₁] at jumps
    exact ⟨m₁, by simpa using leads₁.append jumps, frame₁⟩

/-- Jumps if the relation holds. -/
theorem jumpIf_ends {relation : Relation} {left right : Slot} {label : String} (valid : st.Valid)
    (usableL : left.Usable st) (usableR : right.Usable st) :
    (jumpIf relation left right label line).Ends ctx st fun _ code st' => st.Takes [] [] st' ∧
      ∀ {M : Machine} {m : Memory}, M.Hosts st' → M.Fixed m → M.Clear m left → M.Clear m right →
        ∃ m', M.Leads code
          (if relation.holds (left.value m) (right.value m) then some label else none) m m' ∧
          st.Frame m m' := by
  refine .bind ((resolve_ends valid usableL).mono ?_)
  rintro l c₁ s₁ ⟨takes, settled, load⟩
  refine .bind (.holding ((resolve_ends takes.valid (usableR.mono valid takes)).mono ?_))
  rintro r c₂ s₂ ⟨takesR, settledR, loadR⟩
  refine .bind (.emit (.release ⟨(takes.trans takesR).releaseAll,
    fun {M m} hosts fixed clearL clearR => ?_⟩))
  have hosts₂ : M.Hosts s₂ := ⟨hosts.valid, hosts.grows⟩
  have hosts₁ := hosts₂.earlier takesR
  have hosts₀ := hosts₁.earlier takes
  obtain ⟨m₁, leads₁, frame₁, value₁⟩ := load hosts₁ fixed clearL
  obtain ⟨m₂, leads₂, frame₂, value₂⟩ := loadR hosts₂ (fixed.frame hosts₀ valid frame₁)
    (usableR.clear_frame valid clearR frame₁)
  rw [usableR.value_eq valid hosts₀ clearR frame₁] at value₂
  have jumps := Machine.Leads.branch (m := m₂) relation (hosts₁.cell?_eq settled.stored)
    (hosts₂.cell?_eq settledR.stored) label
  rw [value₂, frame₂ _ settled.kept, value₁] at jumps
  exact ⟨m₂, by simpa using leads₁.append (leads₂.append jumps),
    frame₁.trans (frame₂.weaken takes valid)⟩

/-- Equality with zero, as the instructions for it test it. -/
theorem holds_zero {relation : Relation} (equality : relation = .eq ∨ relation = .ne) (x : Word) :
    relation.holds x 0 = ((x == 0) == (relation == .eq)) ∧
      relation.holds 0 x = ((x == 0) == (relation == .eq)) := by
  have symmetric : ((0 : Word) == x) = (x == 0) := Bool.beq_comm
  rcases equality with rfl | rfl <;> cases zero : x == 0 <;>
    simp [Relation.holds, bne, symmetric, zero]

/-- Jumps if the relation holds, with zero in place of an operand that is not given. -/
theorem compare_ends {relation : Relation} {left : Slot} {right : Option Slot} {label : String}
    (valid : st.Valid) (usableL : left.Usable st) (usableR : ∀ s ∈ right, s.Usable st) :
    (compare relation left right label line).Ends ctx st fun _ code st' => st.Takes [] [] st' ∧
      ∀ {M : Machine} {m : Memory}, M.Hosts st' → M.Fixed m → M.Clear m left →
        (∀ s ∈ right, M.Clear m s) →
        ∃ m', M.Leads code (if relation.holds (left.value m) ((right.map (·.value m)).getD 0)
          then some label else none) m m' ∧ st.Frame m m' := by
  unfold compare
  dsimp only
  split
  · rename_i equality
    split
    · refine (jumpIfZero_ends valid usableL).mono ?_
      rintro _ code st' ⟨takes, run⟩
      refine ⟨takes, fun {M m} hosts fixed clear _ => ?_⟩
      simpa [(holds_zero equality _).1] using run hosts fixed clear
    · rename_i right
      have usableR := usableR right rfl
      split
      · rename_i isZero
        have value := Slot.value_of_literal (beq_iff_eq.1 isZero)
        refine (jumpIfZero_ends valid usableL).mono ?_
        rintro _ code st' ⟨takes, run⟩
        refine ⟨takes, fun {M m} hosts fixed clear _ => ?_⟩
        simpa [value, (holds_zero equality _).1] using run hosts fixed clear
      · split
        · rename_i isZero
          have value := Slot.value_of_literal (beq_iff_eq.1 isZero)
          refine (jumpIfZero_ends valid usableR).mono ?_
          rintro _ code st' ⟨takes, run⟩
          refine ⟨takes, fun {M m} hosts fixed _ clear => ?_⟩
          simpa [value, (holds_zero equality _).2] using run hosts fixed (clear right rfl)
        · refine (jumpIf_ends valid usableL usableR).mono ?_
          rintro _ code st' ⟨takes, run⟩
          refine ⟨takes, fun {M m} hosts fixed clearL clearR => ?_⟩
          simpa using run hosts fixed clearL (clearR right rfl)
  · split
    · rename_i right
      refine (jumpIf_ends valid usableL (usableR right rfl)).mono ?_
      rintro _ code st' ⟨takes, run⟩
      refine ⟨takes, fun {M m} hosts fixed clearL clearR => ?_⟩
      simpa using run hosts fixed clearL (clearR right rfl)
    · exact .fail _

/-- No address is taken from a constant. -/
theorem compare_ends_constant {relation : Relation} {left : Slot} {right : Option Slot}
    {label : String} (valid : st.Valid) (usableL : left.Usable st)
    (usableR : ∀ s ∈ right, s.Usable st) :
    (compare relation left right label line).Ends ctx st fun _ _ _ =>
      (left.kind = .constant → left.offset = none) ∧
        ∀ s ∈ right, s.kind = .constant → s.offset = none := by
  have zero : ∀ {s : Slot}, s.Usable st → s.literal? == some 0 → s.offset = none := by
    intro s usable isZero
    rcases usable with ⟨-, direct⟩ | ⟨stored, -⟩
    · exact direct
    · simp [stored.literal?_eq_none valid.table] at isZero
  have one : ∀ {s : Slot} {isZero : Bool}, s.Usable st → (jumpIfZero isZero s label line).Ends ctx st
      fun _ _ _ => s.kind = .constant → s.offset = none := fun usable =>
    .bind ((resolve_ends_constant valid usable).mono fun _ _ _ fact _ _ _ _ => fact)
  have two : ∀ {right : Slot}, right.Usable st → (jumpIf relation left right label line).Ends ctx st
      fun _ _ _ => (left.kind = .constant → left.offset = none) ∧
        (right.kind = .constant → right.offset = none) := by
    intro right usableR
    refine .bind (((resolve_ends_constant valid usableL).and (resolve_ends valid usableL)).mono ?_)
    rintro l c₁ s₁ ⟨factL, takes, -, -⟩
    have usableR₁ := usableR.mono valid takes
    exact .bind (.holding ((resolve_ends_constant takes.valid usableR₁).mono
      fun _ _ _ factR _ _ _ _ => ⟨factL, factR⟩))
  unfold compare
  dsimp only
  split
  · split
    · exact (one usableL).mono fun _ _ _ fact => ⟨fact, by simp⟩
    · rename_i right
      have usableR := usableR right rfl
      split
      · rename_i isZero
        refine (one usableL).mono fun _ _ _ fact => ⟨fact, ?_⟩
        rintro s ⟨⟩ -
        exact zero usableR isZero
      · split
        · rename_i isZero
          refine (one usableR).mono fun _ _ _ fact => ⟨fun _ => zero usableL isZero, ?_⟩
          rintro s ⟨⟩
          exact fact
        · refine (two usableR).mono fun _ _ _ fact => ⟨fact.1, ?_⟩
          rintro s ⟨⟩
          exact fact.2
  · split
    · rename_i right
      refine (two (usableR right rfl)).mono fun _ _ _ fact => ⟨fact.1, ?_⟩
      rintro s ⟨⟩
      exact fact.2
    · exact .fail _

end Codegen

end ContractCompiler
