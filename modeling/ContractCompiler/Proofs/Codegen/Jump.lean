import ContractCompiler.Codegen.Jump
import ContractCompiler.Proofs.Codegen.Deferred

/-!
# Proofs.Codegen.Jump — jumps follow the truth of what they test

A jump is taken if the truth is the one asked for, and else falls through; the code never leads
anywhere else. The two senses of a jump are complements at every nesting, since the law is the same for
each operator: what its operands test, it tests.
-/

namespace ContractCompiler.Codegen

set_option autoImplicit false

variable {M : Machine} {rules : Rules} {t : SlotTable} {ctx : Context}
  {eval : Node → Codegen Operand} {again : Node → Meaning.Deed} {line : Nat}

/-- A new number for labels. -/
theorem takes_labels {st : State} (valid : st.Valid) (labels : Nat) :
    st.Takes [] [] { st with labels := labels } := by
  refine ⟨⟨valid.table, valid.pool⟩, .refl _, ?_, ?_, ?_, ?_, ?_⟩ <;> simp

/-- A value that is not zero is true. -/
theorem holds_when (when : Bool) (x : Word) :
    (if when then Relation.ne else Relation.eq).holds x 0 = ((x != 0) == when) := by
  cases when <;> cases zero : x == 0 <;> simp [Relation.holds, bne, zero]

/-- Two operands, one after the other. The first goes on to stand for what it stands for. -/
theorem pair_ends {α : Type} {left right : Codegen Operand} {first second : Effect Ref}
    {pendingL pendingR : List (Step × Node)} {k : Operand → Operand → Codegen α}
    {post : α → List Instr → State → Prop} {st : State}
    (evaluatesL : Evaluates M t ctx left first pendingL)
    (evaluatesR : Evaluates M t ctx right second pendingR) (valid : st.Valid)
    (interns : t.Interns st.table)
    (rest : ∀ l r code s₂, st.Takes (l.holds ++ r.holds) (pendingL ++ pendingR) s₂ → l.Fits s₂ →
      r.Fits s₂ → (M.Hosts s₂ → ∀ {m m₁ m₂ mm : Memory} {x y : Ref}, M.Ready m mm →
        first m = some (x, m₁) → second m₁ = some (y, m₂) →
        ∃ mm', M.Leads code none mm mm' ∧ M.Ready m₂ mm' ∧ st.Keeps mm mm' ∧
          M.ref mm' l.slot = x ∧ M.ref mm' r.slot = y) →
      (k l r).Ends ctx s₂ fun b code' s' => post b (code ++ code') s') :
    (left >>= fun l => right >>= fun r => k l r).Ends ctx st post := by
  refine .bind ((evaluatesL st valid interns).mono ?_)
  rintro l c₁ s₁ ⟨takesL, fitsL, runL⟩
  have heldL : l.Held s₁ := fun _ mem => takesL.holds_mem mem
  refine .bind ((evaluatesR s₁ takesL.valid (interns.trans takesL.interns)).mono ?_)
  rintro r c₂ s₂ ⟨takesR, fitsR, runR⟩
  have later := takesR.later takesL.valid
  refine (rest l r (c₁ ++ c₂) s₂ (takesL.trans takesR) (fitsL.later later) fitsR ?_).mono ?_
  · intro hosts m m₁ m₂ mm x y ready ranL ranR
    have hosts₁ := later.hosts hosts
    obtain ⟨mm₁, leads₁, ready₁, keeps₁, rfl⟩ := runL hosts₁ ready ranL
    obtain ⟨mm₂, leads₂, ready₂, keeps₂, rfl⟩ := runR hosts ready₁ ranR
    refine ⟨mm₂, leads₁.append leads₂, ready₂, keeps₁.trans (keeps₂.weaken takesL), ?_, rfl⟩
    exact fitsL.ref_eq takesL.valid hosts₁ ready₁ ready₂ (heldL.keeps keeps₂)
  · intro b code' s' holds
    rwa [List.append_assoc] at holds

variable (M rules) in
/-- The comparison that a jump ends with, after which all registers are given back. -/
theorem compare_release_ends {st st₁ : State} {holds : List Slot} {pending : List (Step × Node)}
    {relation : Relation} {left : Slot} {right : Option Slot} {label : String}
    (takes : st.Takes holds pending st₁) (usableL : left.Usable st₁)
    (usableR : ∀ s ∈ right, s.Usable st₁) :
    (compare relation left right label line >>= fun _ => release holds).Ends ctx st₁
      fun _ code st' => st.Takes [] pending st' ∧ st₁.table.Interns st'.table ∧
        (left.kind = .constant → left.offset = none) ∧
        (∀ s ∈ right, s.kind = .constant → s.offset = none) ∧
        (M.Hosts st' → ∀ {m mm : Memory} {x y : Word}, M.Obeys rules → M.Ready m mm →
          (M.ref mm left).value? rules m = some x →
          (right.elim (some 0) fun s => (M.ref mm s).value? rules m) = some y →
          ∃ mm', M.Leads code (if relation.holds x y then some label else none) mm mm' ∧
            M.Ready m mm' ∧ st₁.Keeps mm mm') := by
  have valid₁ := takes.valid
  refine .bind (((compare_ends valid₁ usableL usableR).and
    (compare_ends_constant valid₁ usableL usableR)).mono ?_)
  rintro _ code s₂ ⟨⟨takesC, jump⟩, factL, factR⟩
  refine .release ⟨(takes.append_nil takesC).releaseAll, takesC.interns, factL, factR, ?_⟩
  intro hosts m mm x y obeys ready readL readR
  have hosts₂ : M.Hosts s₂ := ⟨hosts.valid, hosts.grows⟩
  have hosts₁ := hosts₂.earlier takesC
  obtain ⟨valueL, clearL⟩ := Machine.value_of_ref hosts₁ valid₁ ready obeys usableL readL
  have valueR : (right.map (·.value mm)).getD 0 = y ∧ ∀ s ∈ right, M.Clear mm s := by
    cases right with
    | none => exact ⟨Option.some.inj readR, by simp⟩
    | some s =>
      obtain ⟨value, clear⟩ := Machine.value_of_ref hosts₁ valid₁ ready obeys (usableR s rfl) readR
      refine ⟨value, ?_⟩
      rintro _ ⟨⟩
      exact clear
  obtain ⟨mm', leads, frame⟩ := jump hosts₂ (ready.machine hosts.valid) clearL valueR.2
  rw [valueL, valueR.1] at leads
  exact ⟨mm', by simpa using leads, ready.frame hosts₁ valid₁ frame, .of_frame frame⟩

/-- A jump on a value. -/
theorem tests_value {value : Codegen Operand} {effect : Effect Ref} {pending : List (Step × Node)}
    (obeys : M.Obeys rules) (repeats : Repeats M t ctx eval again)
    (bound : ∀ p ∈ pending, p.2.Bound t) (evaluates : Evaluates M t ctx value effect pending) :
    Tests M t ctx (jumpOnValue eval value line)
      (do return (← Meaning.settled rules again effect pending) != 0)
      (Meaning.leak again pending) := by
  intro label when st valid interns
  refine .bind (.of rfl (.bind ((evaluates st valid interns).mono ?_)))
  rintro o c₁ s₁ ⟨takes, fits, evaluate⟩
  have held : o.Held s₁ := fun _ mem => takes.holds_mem mem
  refine .bind (.of rfl ?_)
  dsimp only
  by_cases nothing : pending = []
  · subst nothing
    rw [if_pos (by simp [takes.deferred])]
    refine .bind (.pure ((compare_release_ends M rules takes (fits.usable held) (by simp)).mono ?_))
    rintro _ c₂ st' ⟨takesAll, internsC, -, -, jump⟩
    refine ⟨takesAll, fun hosts {m m' mm truth} ready done => ?_⟩
    obtain ⟨x, m₁, ran, result⟩ := Effect.bind_eq_some.1 done
    obtain ⟨rfl, rfl⟩ := Effect.pure_eq_some.1 result
    obtain ⟨ref, m₂, ran, isValue, noSteps⟩ := Meaning.settled_eq_some.1 ran
    obtain rfl := Meaning.steps_nil.1 noSteps
    obtain ⟨mm₁, leads₁, ready₁, keeps₁, rfl⟩ := evaluate (hosts.of_interns internsC) ready ran
    obtain ⟨mm₂, leads₂, ready₂, keeps₂⟩ := jump hosts obeys ready₁ isValue rfl
    rw [holds_when] at leads₂
    exact ⟨mm₂, by simpa using leads₁.append leads₂, ready₂, keeps₁.trans (keeps₂.weaken takes)⟩
  · rw [if_neg (by simp [takes.deferred, nothing])]
    refine .bind ((protect_ends takes.nil_append fits).mono ?_)
    rintro o₁ c₂ s₂ ⟨takes₂, later₂, fits₂, move⟩
    have held₂ : o₁.Held s₂ := takes₂.held_right
    refine .bind ((applyDeferred_ends obeys repeats bound takes₂
      (interns.trans takes₂.interns) rfl).mono ?_)
    rintro _ c₃ s₃ ⟨takes₃, later₃, finish⟩
    have fits₃ := fits₂.later later₃
    have held₃ : o₁.Held s₃ := takes₃.held_right
    refine .bind (.pure ((compare_release_ends M rules takes₃ (fits₃.usable held₃) (by simp)).mono ?_))
    rintro _ c₄ st' ⟨takesAll, internsC, constant, -, jump⟩
    refine ⟨takesAll, fun hosts {m m' mm truth} ready done => ?_⟩
    have hosts₃ := hosts.of_interns internsC
    have hosts₂ := later₃.hosts hosts₃
    obtain ⟨x, m₁, ran, result⟩ := Effect.bind_eq_some.1 done
    obtain ⟨rfl, rfl⟩ := Effect.pure_eq_some.1 result
    obtain ⟨ref, m₂, ran, isValue, steps⟩ := Meaning.settled_eq_some.1 ran
    obtain ⟨mm₁, leads₁, ready₁, keeps₁, rfl⟩ := evaluate (later₂.hosts hosts₂) ready ran
    obtain ⟨mm₂, leads₂, ready₂, keeps₂, kept⟩ := move hosts₂ obeys ready₁ isValue constant
    obtain ⟨mm₃, leads₃, ready₃, keeps₃⟩ := finish hosts₃ ready₂ steps
    rw [← fits₂.ref_eq takes₂.valid hosts₂ ready₂ ready₃ (held₂.keeps keeps₃)] at kept
    have isValue₃ : (M.ref mm₃ o₁.slot).value? rules m₁ = some x := by
      rcases kept with same | same <;> rw [same] <;> rfl
    obtain ⟨mm₄, leads₄, ready₄, keeps₄⟩ := jump hosts obeys ready₃ isValue₃ rfl
    rw [holds_when] at leads₄
    refine ⟨mm₄, by simpa using leads₁.append (leads₂.append (leads₃.append leads₄)), ready₄, ?_⟩
    exact ((keeps₁.trans keeps₂.keeps).trans (keeps₃.weaken takes₂)).trans (keeps₄.weaken takes₃)

/-- A relation holds, or its negation does. -/
theorem holds_relation_when (relation : Relation) (when : Bool) (x y : Word) :
    (if when then relation else relation.negate).holds x y = (relation.holds x y == when) := by
  cases when <;> simp [Relation.holds_negate]

/-- A jump on a relation. -/
theorem tests_relation {relation : Relation} {left right : Codegen Operand}
    {first second : Effect Ref} {pendingL pendingR : List (Step × Node)} (obeys : M.Obeys rules)
    (repeats : Repeats M t ctx eval again) (bound : ∀ p ∈ pendingL ++ pendingR, p.2.Bound t)
    (evaluatesL : Evaluates M t ctx left first pendingL)
    (evaluatesR : Evaluates M t ctx right second pendingR) :
    Tests M t ctx (jumpOnRelation eval relation left right line)
      (Meaning.relation rules again relation first second (pendingL ++ pendingR))
      (Meaning.leak again (pendingL ++ pendingR)) := by
  intro label when st valid interns
  refine .bind (.of rfl (pair_ends evaluatesL evaluatesR valid interns ?_))
  intro l r c₁ s₁ takes fitsL fitsR evaluate
  refine .bind (.of rfl ?_)
  dsimp only
  by_cases nothing : pendingL ++ pendingR = []
  · rw [nothing] at takes ⊢
    rw [if_pos (by simp [takes.deferred])]
    have usableL := fitsL.usable takes.held_left
    have usableR : ∀ s ∈ some r.slot, s.Usable s₁ := by
      rintro _ ⟨⟩
      exact fitsR.usable takes.held_right
    refine .bind (.pure ((compare_release_ends M rules takes usableL usableR).mono ?_))
    rintro _ c₂ st' ⟨takesAll, internsC, -, -, jump⟩
    refine ⟨takesAll, fun hosts {m m' mm truth} ready done => ?_⟩
    obtain ⟨x, m₁, y, m₂, v, w, ranL, ranR, valueL, valueR, noSteps, rfl⟩ :=
      Meaning.relation_eq_some.1 done
    obtain rfl := Meaning.steps_nil.1 noSteps
    obtain ⟨mm₁, leads₁, ready₁, keeps₁, rfl, rfl⟩ :=
      evaluate (hosts.of_interns internsC) ready ranL ranR
    obtain ⟨mm₂, leads₂, ready₂, keeps₂⟩ := jump hosts obeys ready₁ valueL valueR
    rw [holds_relation_when] at leads₂
    exact ⟨mm₂, by simpa using leads₁.append leads₂, ready₂, keeps₁.trans (keeps₂.weaken takes)⟩
  · rw [if_neg (by simpa [takes.deferred] using nothing)]
    refine .bind ((protect_ends (takes.perm List.perm_append_comm) fitsL).mono ?_)
    rintro l₁ c₂ s₂ ⟨takes₂, later₂, fitsL₂, moveL⟩
    have fitsR₂ := fitsR.later later₂
    refine .bind ((protect_ends (takes₂.perm List.perm_append_comm) fitsR₂).mono ?_)
    rintro r₁ c₃ s₃ ⟨takes₃, later₃, fitsR₃, moveR⟩
    have fitsL₃ := fitsL₂.later later₃
    refine .bind ((applyDeferred_ends obeys repeats bound takes₃
      (interns.trans takes₃.interns) rfl).mono ?_)
    rintro _ c₄ s₄ ⟨takes₄, later₄, finish⟩
    have usableL := (fitsL₃.later later₄).usable takes₄.held_left
    have usableR : ∀ s ∈ some r₁.slot, s.Usable s₄ := by
      rintro _ ⟨⟩
      exact (fitsR₃.later later₄).usable takes₄.held_right
    refine .bind (.pure ((compare_release_ends M rules takes₄ usableL usableR).mono ?_))
    rintro _ c₅ st' ⟨takesAll, internsC, constantL, constantR, jump⟩
    refine ⟨takesAll, fun hosts {m m' mm truth} ready done => ?_⟩
    have hosts₄ := hosts.of_interns internsC
    have hosts₃ := later₄.hosts hosts₄
    have hosts₂ := later₃.hosts hosts₃
    obtain ⟨x, m₁, y, m₂, v, w, ranL, ranR, valueL, valueR, steps, rfl⟩ :=
      Meaning.relation_eq_some.1 done
    obtain ⟨mm₁, leads₁, ready₁, keeps₁, rfl, rfl⟩ := evaluate (later₂.hosts hosts₂) ready ranL ranR
    obtain ⟨mm₂, leads₂, ready₂, keeps₂, keptL⟩ := moveL hosts₂ obeys ready₁ valueL constantL
    rw [← fitsR.ref_eq takes.valid (later₂.hosts hosts₂) ready₁ ready₂ fun _ => keeps₂.kept]
      at valueR
    obtain ⟨mm₃, leads₃, ready₃, keeps₃, keptR⟩ :=
      moveR hosts₃ obeys ready₂ valueR (constantR _ rfl)
    rw [← fitsL₂.ref_eq takes₂.valid hosts₂ ready₂ ready₃ fun _ => keeps₃.kept] at keptL
    obtain ⟨mm₄, leads₄, ready₄, keeps₄⟩ := finish hosts₄ ready₃ steps
    rw [← fitsL₃.ref_eq takes₃.valid hosts₃ ready₃ ready₄ (takes₃.held_left.keeps keeps₄)] at keptL
    rw [← fitsR₃.ref_eq takes₃.valid hosts₃ ready₃ ready₄ (takes₃.held_right.keeps keeps₄)] at keptR
    have valueL₄ : (M.ref mm₄ l₁.slot).value? rules m' = some v := by
      rcases keptL with same | same <;> rw [same] <;> rfl
    have valueR₄ : (M.ref mm₄ r₁.slot).value? rules m' = some w := by
      rcases keptR with same | same <;> rw [same] <;> rfl
    obtain ⟨mm₅, leads₅, ready₅, keeps₅⟩ := jump hosts obeys ready₄ valueL₄ valueR₄
    rw [holds_relation_when] at leads₅
    refine ⟨mm₅, ?_, ready₅, ?_⟩
    · simpa using leads₁.append (leads₂.append (leads₃.append (leads₄.append leads₅)))
    · exact (((keeps₁.trans keeps₂.keeps).trans keeps₃.keeps).trans (keeps₄.weaken takes₃)).trans
        (keeps₅.weaken takes₄)

/-! ## Connectives -/

section Shortcut

variable {left right : String → Bool → Codegen Unit} {first second : Effect Bool}
  {pendingL pendingR : List (Step × Node)} (testsL : Tests M t ctx left first pendingL)
  (testsR : Tests M t ctx right second pendingR) {st : State} (valid : st.Valid)
  (interns : t.Interns st.table) (decides : Bool) (label : String)
include testsL testsR valid interns

/-- A jump where the left operand decides, so that both operands jump. -/
theorem jump_decided_ends :
    (left label decides >>= fun _ => right label decides).Ends ctx st fun _ code st' =>
      st.Takes [] (pendingL ++ pendingR) st' ∧
        (M.Hosts st' → ∀ {m m' mm : Memory} {truth : Bool}, M.Ready m mm →
          Meaning.shortcut decides first second m = some (truth, m') →
          ∃ mm', M.Leads code (if truth == decides then some label else none) mm mm' ∧
            M.Ready m' mm' ∧ st.Keeps mm mm') := by
  refine .bind ((testsL label decides st valid interns).mono ?_)
  rintro _ c₁ s₁ ⟨takesL, jumpL⟩
  refine (testsR label decides s₁ takesL.valid (interns.trans takesL.interns)).mono ?_
  rintro _ c₂ s₂ ⟨takesR, jumpR⟩
  refine ⟨takesL.trans takesR, fun hosts {m m' mm truth} ready done => ?_⟩
  have hosts₁ := hosts.earlier takesR
  rcases Meaning.shortcut_eq_some.1 done with ⟨ranL, rfl⟩ | ⟨m₁, ranL, ranR⟩
  · obtain ⟨mm₁, leads₁, ready₁, keeps₁⟩ := jumpL hosts₁ ready ranL
    simp only [beq_self_eq_true, if_true] at leads₁ ⊢
    exact ⟨mm₁, leads₁.leave c₂, ready₁, keeps₁⟩
  · obtain ⟨mm₁, leads₁, ready₁, keeps₁⟩ := jumpL hosts₁ ready ranL
    obtain ⟨mm₂, leads₂, ready₂, keeps₂⟩ := jumpR hosts ready₁ ranR
    rw [if_neg (by simp)] at leads₁
    exact ⟨mm₂, leads₁.append leads₂, ready₂, keeps₁.trans (keeps₂.weaken takesL)⟩

/-- A jump where the left operand may rule the jump out, and then leads past the right one. -/
theorem jump_ruled_out_ends (next : String) :
    (left next decides >>= fun _ => right label (!decides) >>= fun _ => emit (.label next)).Ends
      ctx st fun _ code st' =>
      st.Takes [] (pendingL ++ pendingR) st' ∧
        (M.Hosts st' → ∀ {m m' mm : Memory} {truth : Bool}, M.Ready m mm →
          Meaning.shortcut decides first second m = some (truth, m') →
          ∃ mm', M.Leads code (if truth == !decides then some label else none) mm mm' ∧
            M.Ready m' mm' ∧ st.Keeps mm mm') := by
  refine .bind ((testsL next decides st valid interns).mono ?_)
  rintro _ c₁ s₁ ⟨takesL, jumpL⟩
  refine .bind ((testsR label (!decides) s₁ takesL.valid (interns.trans takesL.interns)).mono ?_)
  rintro _ c₂ s₂ ⟨takesR, jumpR⟩
  refine .emit ⟨takesL.trans takesR, fun hosts {m m' mm truth} ready done => ?_⟩
  have hosts₁ := hosts.earlier takesR
  rcases Meaning.shortcut_eq_some.1 done with ⟨ranL, rfl⟩ | ⟨m₁, ranL, ranR⟩
  · obtain ⟨mm₁, leads₁, ready₁, keeps₁⟩ := jumpL hosts₁ ready ranL
    simp only [beq_self_eq_true, if_true] at leads₁
    rw [if_neg (by simp)]
    exact ⟨mm₁, leads₁.over c₂ (.label next mm₁), ready₁, keeps₁⟩
  · obtain ⟨mm₁, leads₁, ready₁, keeps₁⟩ := jumpL hosts₁ ready ranL
    obtain ⟨mm₂, leads₂, ready₂, keeps₂⟩ := jumpR hosts ready₁ ranR
    rw [if_neg (by simp)] at leads₁
    refine ⟨mm₂, leads₁.append ?_, ready₂, keeps₁.trans (keeps₂.weaken takesL)⟩
    cases taken : truth == !decides with
    | true =>
      rw [taken] at leads₂
      exact leads₂.leave _
    | false =>
      rw [taken] at leads₂
      exact leads₂.append (.label next mm₂)

end Shortcut

section Connectives

variable {left right : String → Bool → Codegen Unit} {first second : Effect Bool}
  {pendingL pendingR : List (Step × Node)}

theorem tests_both (testsL : Tests M t ctx left first pendingL)
    (testsR : Tests M t ctx right second pendingR) :
    Tests M t ctx (jumpOnBoth left right line) (Meaning.shortcut false first second)
      (pendingL ++ pendingR) := by
  intro label when st valid interns
  cases when with
  | false => exact jump_decided_ends testsL testsR valid interns false label
  | true =>
    have takes := takes_labels valid (st.labels + 1)
    refine .bind (.of rfl
      ((jump_ruled_out_ends testsL testsR takes.valid interns false label _).mono ?_))
    rintro _ code st' ⟨takes', jump⟩
    exact ⟨by simpa using takes.trans takes', jump⟩

theorem tests_either (testsL : Tests M t ctx left first pendingL)
    (testsR : Tests M t ctx right second pendingR) :
    Tests M t ctx (jumpOnEither left right line) (Meaning.shortcut true first second)
      (pendingL ++ pendingR) := by
  intro label when st valid interns
  cases when with
  | true => exact jump_decided_ends testsL testsR valid interns true label
  | false =>
    have takes := takes_labels valid (st.labels + 1)
    refine .bind (.of rfl
      ((jump_ruled_out_ends testsL testsR takes.valid interns true label _).mono ?_))
    rintro _ code st' ⟨takes', jump⟩
    exact ⟨by simpa using takes.trans takes', jump⟩

/-- A jump in the other sense. -/
theorem tests_not (tests : Tests M t ctx left first pendingL) :
    Tests M t ctx (fun label when => left label !when) (do return !(← first)) pendingL := by
  intro label when st valid interns
  refine (tests label (!when) st valid interns).mono ?_
  rintro _ code st' ⟨takes, jump⟩
  refine ⟨takes, fun hosts {m m' mm truth} ready done => ?_⟩
  obtain ⟨x, m₁, ran, result⟩ := Effect.bind_eq_some.1 done
  obtain ⟨rfl, rfl⟩ := Effect.pure_eq_some.1 result
  obtain ⟨mm₁, leads, ready₁, keeps⟩ := jump hosts ready ran
  rw [show (x == !when) = ((!x) == when) by cases x <;> cases when <;> rfl] at leads
  exact ⟨mm₁, leads, ready₁, keeps⟩

/-- A literal decides a jump at once. -/
theorem tests_literal (w : Word) :
    Tests M t ctx (fun label when => if (w != 0) == when then emit (.jump label) else pure ())
      (return w != 0) [] := by
  intro label when st valid interns
  dsimp only
  split
  · rename_i taken
    refine .emit ⟨.refl valid, fun hosts {m m' mm truth} ready done => ?_⟩
    obtain ⟨rfl, rfl⟩ := Effect.pure_eq_some.1 done
    rw [if_pos taken]
    exact ⟨mm, .jump label mm, ready, .refl st mm⟩
  · rename_i ruledOut
    refine .pure ⟨.refl valid, fun hosts {m m' mm truth} ready done => ?_⟩
    obtain ⟨rfl, rfl⟩ := Effect.pure_eq_some.1 done
    rw [if_neg ruledOut]
    exact ⟨mm, .nil mm, ready, .refl st mm⟩

/-- A truth value is brought into a register. -/
theorem evaluates_truth (tests : Tests M t ctx left first pendingL) :
    Evaluates M t ctx (truth left line) (do return .temp (Word.ofBool (← first))) pendingL := by
  intro st valid interns
  have takes₀ := takes_labels valid (st.labels + 1)
  refine .bind (.of rfl (.bind ((tests _ false _ takes₀.valid interns).mono ?_)))
  rintro _ c₁ s₁ ⟨takes₁, jump⟩
  refine .bind ((allocate_ends takes₁.valid).mono ?_)
  rintro r _ s₂ ⟨takesR, rfl, -⟩
  have inHand : r.InHand s₂ := .of_takes takesR List.mem_cons_self
  have usable : (Slot.literal 1).Usable s₂ := .inl ⟨by decide, rfl⟩
  refine .bind ((assign_ends takesR.valid inHand.usable usable).mono ?_)
  rintro _ c₃ s₃ ⟨takesA, write⟩
  refine .bind (.emit (.bind (.emit (.bind (.emit (.bind (.emit (.pure ?_))))))))
  have takes₃ := takesR.append_nil takesA
  have takesAll : st.Takes [r] pendingL s₃ := by simpa using takes₀.trans (takes₁.trans takes₃)
  refine ⟨takesAll, (inHand.fits takesR.valid).later
    (takesA.later takesR.valid), fun hosts {m m' mm ref} ready done => ?_⟩
  have hosts₂ := hosts.earlier takesA
  obtain ⟨x, m₁, ran, result⟩ := Effect.bind_eq_some.1 done
  obtain ⟨rfl, rfl⟩ := Effect.pure_eq_some.1 result
  obtain ⟨mm₁, leads₁, ready₁, keeps₁⟩ := jump (hosts₂.earlier takesR) ready ran
  cases x with
  | true =>
    have isOne : (Slot.literal 1).value mm₁ = 1 := Slot.value_of_literal (by decide) mm₁
    obtain ⟨mm₃, leads₃, frame⟩ := write hosts (ready₁.machine hosts.valid) (inHand.clear mm₁)
      (fun notDirect => absurd rfl notDirect)
    rw [Slot.cell_direct inHand.direct, isOne] at frame
    obtain ⟨ready₃, keeps₃, filled⟩ := ready₁.fill hosts₂ takesR frame
    refine ⟨mm₃, ?_, ready₃, keeps₁.trans (keeps₃.weaken takes₁), filled⟩
    simpa using Machine.Leads.firstWay leads₁ leads₃ _ _ [.clear r.asmName]
  | false =>
    obtain ⟨ready₃, keeps₃, filled⟩ := ready₁.fill hosts₂ takesR (.refl s₂ _)
    refine ⟨_, ?_, ready₃, keeps₁.trans (keeps₃.weaken takes₁), filled⟩
    have clear : M.Leads [.clear r.asmName] none mm₁ (mm₁.set r.address (Word.ofBool false)) :=
      .clear (hosts₂.cell?_eq inHand.stored)
    simpa using Machine.Leads.secondWay leads₁ clear _ c₃

end Connectives

end ContractCompiler.Codegen
