import ContractCompiler.Proofs.Codegen.Phrase

/-!
# Proofs.Codegen.Sentence — the code of sentences

The code of a sentence does what the statement does that the sentence is (`sentence_performs`), form by
form: the labels of a sentence are those that its own parts jump to, and a loop passes its label on to
the sentences of its body.
-/

namespace ContractCompiler.Codegen

set_option autoImplicit false

variable {M : Machine} {t : SlotTable} {ctx : Context} {line : Nat}

/-- Assigned variables are not computed in, or values may be computed in them. -/
def Context.Allows (ctx : Context) (isDirect : Bool) : Prop :=
  ctx.settings.reuseAssignedVar = false ∨ isDirect = true

theorem Context.Allows.and {a b : Bool} (allows : ctx.Allows (a && b)) :
    ctx.Allows a ∧ ctx.Allows b := by
  rcases allows with never | direct
  · exact ⟨.inl never, .inl never⟩
  · obtain ⟨directA, directB⟩ := Bool.and_eq_true_iff.1 direct
    exact ⟨.inr directA, .inr directB⟩

/-- The initial values of declared variables. -/
theorem initialValues_performs (laid : t.Laid) (small : t.Small) {ds : List Declarator}
    {s : Statement} (isStatement : (ctx.names t).initialValues? ds = some s)
    (allows : ctx.Allows s.isDirect) :
    Performs M t ctx (initialValues false ds) fun fuel m => s.run M.environment fuel m := by
  induction ds generalizing s with
  | nil =>
    cases isStatement
    exact .pure
  | cons d rest ih =>
    obtain ⟨c, isChange, isStatement⟩ := Option.bind_eq_some_iff.1 isStatement
    obtain ⟨s', isRest, isStatement⟩ := Option.bind_eq_some_iff.1 isStatement
    obtain rfl := Option.some.inj isStatement
    obtain ⟨allowsFirst, allowsRest⟩ := allows.and
    rw [initialValues]
    unfold Names.initialValue? at isChange
    dsimp only
    cases init : d.init with
    | none =>
      rw [init] at isChange
      cases isChange
      exact .bind .pure (ih isRest allowsRest)
    | some tokens =>
      rw [init] at isChange
      exact .bind (phrase_performs laid small isChange allowsFirst) (ih isRest allowsRest)

/-! ## The forms of sentences -/

/-- Behind a number for labels. -/
theorem Performs.labelled {next : String → Codegen Unit} {run : Nat → Memory → Run}
    (performs : ∀ id, Performs M t ctx (next id) run) :
    Performs M t ctx (labelId line >>= next) run := by
  intro st valid interns settled
  have passes := State.Passes.labels valid settled (st.labels + 1)
  refine .bind (.of rfl ((performs _ _ passes.valid interns passes.settled).mono ?_))
  rintro _ code s₁ ⟨passes', follows⟩
  exact ⟨passes.trans passes', follows⟩

/-- Behind a comment. -/
theorem Performs.commented {next : Codegen Unit} {run : Nat → Memory → Run}
    (performs : Performs M t ctx next run) :
    Performs M t ctx (do comment line; next) run := by
  intro st valid interns settled
  refine .bind ((comment_ends M line valid settled).mono ?_)
  rintro _ c₁ s₁ ⟨passes, silent⟩
  refine (performs s₁ passes.valid (interns.trans passes.interns) passes.settled).mono ?_
  rintro _ c₂ s₂ ⟨passes', follows⟩
  exact ⟨passes.trans passes', fun hosts fuel m mm ready =>
    .after (silent mm) (follows hosts fuel m mm ready)⟩

section Forms

variable {test : List Token} {n : Node} {body yes no : List Sentence}
  {run run' : Nat → Memory → Run}

section Tested

variable (laid : t.Laid) (small : t.Small) (isTest : (ctx.names t).test? test line = some n)
include laid small isTest

theorem ifThen_performs (performs : Performs M t ctx (sentences yes) run) :
    Performs M t ctx (sentence (.ifThen line test yes)) fun fuel m =>
      .decide (n.value? M.arithmetic M.mayRead m) fun truth =>
        if truth then run fuel m else .ended .next m := by
  rw [sentence]
  refine .labelled fun id => .commented fun st valid interns settled => ?_
  refine .bind ((condition_ends (M := M) laid small isTest valid interns settled).mono ?_)
  rintro _ c₁ s₁ ⟨passes₁, decides⟩
  refine .bind (.emit (.bind ((performs s₁ passes₁.valid (interns.trans passes₁.interns)
    passes₁.settled).mono ?_)))
  rintro _ c₂ s₂ ⟨passes₂, follows⟩
  refine .emit ⟨passes₁.trans passes₂, fun hosts fuel m mm ready => ?_⟩
  have hosts₁ := hosts.of_interns passes₂.interns
  refine (decides hosts₁ m mm ready).cases (P := M.Follows _ ctx.loop fuel mm)
    trivial (fun mm' leads ready' => ?_) fun mm' leads ready' => ?_
  · exact .next (leads.over (.label _ :: c₂) (.label _ mm')) ready'
  · exact .after leads (.after (.label _ mm') ((follows hosts fuel m mm' ready').upTo _))

theorem ifElse_performs (performs : Performs M t ctx (sentences yes) run)
    (performs' : Performs M t ctx (sentences no) run') :
    Performs M t ctx (sentence (.ifElse line test yes no)) fun fuel m =>
      .decide (n.value? M.arithmetic M.mayRead m) fun truth =>
        if truth then run fuel m else run' fuel m := by
  rw [sentence]
  refine .labelled fun id => .commented fun st valid interns settled => ?_
  refine .bind ((condition_ends (M := M) laid small isTest valid interns settled).mono ?_)
  rintro _ c₁ s₁ ⟨passes₁, decides⟩
  refine .bind (.emit (.bind ((performs s₁ passes₁.valid (interns.trans passes₁.interns)
    passes₁.settled).mono ?_)))
  rintro _ c₂ s₂ ⟨passes₂, follows⟩
  have passes₁₂ := passes₁.trans passes₂
  refine .bind (.emit (.bind (.emit (.bind ((performs' s₂ passes₁₂.valid
    (interns.trans passes₁₂.interns) passes₁₂.settled).mono ?_)))))
  rintro _ c₃ s₃ ⟨passes₃, follows'⟩
  refine .emit ⟨passes₁₂.trans passes₃, fun hosts fuel m mm ready => ?_⟩
  have hosts₂ := hosts.of_interns passes₃.interns
  have hosts₁ := hosts₂.of_interns passes₂.interns
  refine (decides hosts₁ m mm ready).cases (P := M.Follows _ ctx.loop fuel mm)
    trivial (fun mm' leads ready' => ?_) fun mm' leads ready' => ?_
  · exact .secondWay leads (follows' hosts fuel m mm' ready') _ (.label _ :: c₂)
  · exact .firstWay leads (.after (.label _ mm') (follows hosts₂ fuel m mm' ready')) _ _ c₃

theorem whileLoop_performs
    (performs : ∀ label, Performs M t { ctx with loop := some label } (sentences body) run) :
    Performs M t ctx (sentence (.whileLoop line test body)) fun fuel m =>
      Run.loop (fun m => .decide (n.value? M.arithmetic M.mayRead m) fun truth =>
        if truth then run fuel m else .ended .break_ m) fuel m := by
  rw [sentence]
  refine .labelled fun id => .commented fun st valid interns settled => ?_
  refine .bind (.emit (.bind ((condition_ends (M := M) laid small isTest valid interns
    settled).mono ?_)))
  rintro _ c₁ s₁ ⟨passes₁, decides⟩
  refine .bind (.emit (.bind (.within ((performs _ s₁ passes₁.valid
    (interns.trans passes₁.interns) passes₁.settled).mono ?_))))
  rintro _ c₂ s₂ ⟨passes₂, follows⟩
  refine .bind (.emit (.emit ⟨passes₁.trans passes₂, fun hosts fuel m mm ready => ?_⟩))
  have hosts₁ := hosts.of_interns passes₂.interns
  refine Machine.Rounds.follows (fun m mm ready => ?_) ctx.loop (Nat.le_refl fuel) ready
  refine .tested (.trans (List.suffix_append [_] _) (List.suffix_append c₂ _)) (decides hosts₁ m mm ready)
    fun mm' ready' => ?_
  exact (follows hosts fuel m mm' ready').roundsBack

theorem doLoop_performs
    (performs : ∀ label, Performs M t { ctx with loop := some label } (sentences body) run) :
    Performs M t ctx (sentence (.doLoop line test body)) fun fuel m =>
      Run.loop (fun m => (run fuel m).afterBody fun m =>
        .decide (n.value? M.arithmetic M.mayRead m) fun truth =>
          .ended (if truth then .next else .break_) m) fuel m := by
  rw [sentence]
  refine .labelled fun id st valid interns settled => ?_
  refine .bind (.emit (.bind (.within ((performs _ st valid interns settled).mono ?_))))
  rintro _ c₁ s₁ ⟨passes₁, follows⟩
  refine .bind (.emit (.bind ((comment_ends M line passes₁.valid passes₁.settled).mono ?_)))
  rintro _ c₂ s₂ ⟨passes₂, silent⟩
  have passes₁₂ := passes₁.trans passes₂
  refine .bind ((condition_ends (M := M) laid small isTest passes₁₂.valid
    (interns.trans passes₁₂.interns) passes₁₂.settled).mono ?_)
  rintro _ c₃ s₃ ⟨passes₃, decides⟩
  refine .emit ⟨passes₁₂.trans passes₃, fun hosts fuel m mm ready => ?_⟩
  have hosts₁ := hosts.of_interns (passes₂.trans passes₃).interns
  refine Machine.Rounds.follows (fun m mm ready => ?_) ctx.loop (Nat.le_refl fuel) ready
  refine (follows hosts₁ fuel m mm ready).rounds
    (.trans (List.suffix_append c₃ _) (List.suffix_append c₂ _)) fun m mm ready => ?_
  refine .after (.label _ mm) (.after (silent mm) ?_)
  exact (decides hosts m mm ready).cases (P := M.Rounds _ _ fuel mm) trivial
    (fun mm' leads ready' => ⟨mm', leads.leave _, ready'⟩)
    fun mm' leads ready' => ⟨mm', leads.upTo _, ready'⟩

end Tested

/-- The test of a loop that may have none, and the code behind it. -/
theorem loopTest_ends {α : Type} {test' : Option Node} (laid : t.Laid) (small : t.Small)
    (isTest : (ctx.names t).loopTest? test line = some test') {st : State} {target : String}
    (valid : st.Valid) (interns : t.Interns st.table) (settled : st.deferred = [])
    {rest : Unit → Codegen α} {post : α → List Instr → State → Prop}
    (ends : ∀ code st', st.Passes st' →
      (M.Hosts st' → ∀ m mm, M.Ready m mm →
        M.Decides code (Statement.testValue? M.environment m test') target false m mm) →
      (rest ()).Ends ctx st' fun a code' st'' => post a (code ++ code') st'') :
    (if !test.isEmpty then condition test target false line >>= rest else rest ()).Ends ctx st
      post := by
  unfold Names.loopTest? at isTest
  cases isEmpty : test.isEmpty with
  | true =>
    obtain rfl : none = test' := by simpa [isEmpty] using isTest
    exact ends [] st ⟨valid, .refl _, settled⟩ fun _ m mm ready => .nothing ready
  | false =>
    obtain ⟨n, isCondition, rfl⟩ :
        ∃ n, (ctx.names t).test? test line = some n ∧ some n = test' := by
      simpa [isEmpty] using isTest
    refine .bind ((condition_ends (M := M) laid small isCondition valid interns settled).mono ?_)
    rintro _ code s₁ ⟨passes, decides⟩
    exact ends code s₁ passes decides

theorem forLoop_performs {init step : List Token} {test' : Option Node} {first last : Change}
    (laid : t.Laid) (small : t.Small) (isInit : (ctx.names t).change? init line = some first)
    (isTest : (ctx.names t).loopTest? test line = some test')
    (isStep : (ctx.names t).change? step line = some last)
    (allows : ctx.Allows first.isDirect ∧ ctx.Allows last.isDirect)
    (performs : ∀ label, Performs M t { ctx with loop := some label } (sentences body) run) :
    Performs M t ctx (sentence (.forLoop line init test step body)) fun fuel m =>
      (Run.ofChange (first.after? M.environment m)).andThen <| Run.loop (fun m =>
        .decide (Statement.testValue? M.environment m test') fun truth =>
        if truth then (run fuel m).afterBody fun m => .ofChange (last.after? M.environment m)
        else .ended .break_ m) fuel := by
  rw [sentence]
  refine .labelled fun id => .bind (phrase_performs laid small isInit allows.1)
    fun st valid interns settled => ?_
  refine .bind (.emit (loopTest_ends (M := M) laid small isTest valid interns settled ?_))
  intro c₁ s₁ passes₁ decides
  refine .bind (.emit (.bind (.within ((performs _ s₁ passes₁.valid
    (interns.trans passes₁.interns) passes₁.settled).mono ?_))))
  rintro _ c₂ s₂ ⟨passes₂, follows⟩
  have passes₁₂ := passes₁.trans passes₂
  refine .bind (.emit (.bind ((phrase_performs (M := M) laid small isStep allows.2 s₂
    passes₁₂.valid (interns.trans passes₁₂.interns) passes₁₂.settled).mono ?_)))
  rintro _ c₃ s₃ ⟨passes₃, makes⟩
  refine .bind (.emit (.emit ⟨passes₁₂.trans passes₃, fun hosts fuel m mm ready => ?_⟩))
  have hosts₂ := hosts.of_interns passes₃.interns
  have hosts₁ := hosts₂.of_interns passes₂.interns
  refine Machine.Rounds.follows (fun m mm ready => ?_) ctx.loop (Nat.le_refl fuel) ready
  have ends : [Instr.label ("__loop" ++ id ++ "_break")] <:+
      c₃ ++ ([.jump ("__loop" ++ id ++ "_condition")] ++ [.label _]) :=
    .trans (List.suffix_append _ _) (List.suffix_append _ _)
  refine .tested (ends.trans (.trans (List.suffix_append _ _) (List.suffix_append _ _)))
    (decides hosts₁ m mm ready) fun mm' ready' => ?_
  refine (follows hosts₂ fuel m mm' ready').rounds ends fun m mm ready => ?_
  refine .after (.label _ mm) ?_
  have made := makes hosts fuel m mm ready
  dsimp only at made
  cases applies : last.after? M.environment m with
  | none => trivial
  | some m' =>
    rw [applies] at made
    obtain ⟨_, mm'', ⟨⟩, leads, ready''⟩ := made
    exact ⟨mm'', leads.append ((Machine.Leads.jump _ mm'').leave _), ready''⟩

end Forms

mutual

/-- The code of a sentence does what the statement does that the sentence is. -/
theorem sentence_performs (laid : t.Laid) (small : t.Small) (ctx : Context) :
    ∀ (s : Sentence) (stmt : Statement), s.statement? (ctx.names t) = some stmt →
      ctx.Allows stmt.isDirect →
      Performs M t ctx (sentence s) fun fuel m => stmt.run M.environment fuel m
  | .phrase line isConst code, stmt, isStatement, allows => by
    rw [Sentence.statement?] at isStatement
    cases isConst with
    | true => cases isStatement
    | false =>
      rw [sentence]
      exact phrase_statement_performs laid small isStatement allows
  | .declaration d, stmt, isStatement, allows => by
    rw [Sentence.statement?] at isStatement
    cases isConst : d.isConst with
    | true => simp [isConst] at isStatement
    | false =>
      rw [isConst] at isStatement
      rw [sentence, isConst]
      exact initialValues_performs laid small isStatement allows
  | .block body, stmt, isStatement, allows => by
    rw [Sentence.statement?] at isStatement
    rw [sentence]
    exact sentences_performs laid small ctx body stmt isStatement allows
  | .ifThen line test yes, stmt, isStatement, allows => by
    rw [Sentence.statement?] at isStatement
    obtain ⟨n, isTest, isStatement⟩ := Option.bind_eq_some_iff.1 isStatement
    obtain ⟨s, isYes, isStatement⟩ := Option.bind_eq_some_iff.1 isStatement
    obtain rfl := Option.some.inj isStatement
    exact ifThen_performs laid small isTest (sentences_performs laid small ctx yes s isYes allows.and.1)
  | .ifElse line test yes no, stmt, isStatement, allows => by
    rw [Sentence.statement?] at isStatement
    obtain ⟨n, isTest, isStatement⟩ := Option.bind_eq_some_iff.1 isStatement
    obtain ⟨s, isYes, isStatement⟩ := Option.bind_eq_some_iff.1 isStatement
    obtain ⟨s', isNo, isStatement⟩ := Option.bind_eq_some_iff.1 isStatement
    obtain rfl := Option.some.inj isStatement
    exact ifElse_performs laid small isTest (sentences_performs laid small ctx yes s isYes allows.and.1)
      (sentences_performs laid small ctx no s' isNo allows.and.2)
  | .whileLoop line test body, stmt, isStatement, allows => by
    rw [Sentence.statement?] at isStatement
    obtain ⟨n, isTest, isStatement⟩ := Option.bind_eq_some_iff.1 isStatement
    obtain ⟨s, isBody, isStatement⟩ := Option.bind_eq_some_iff.1 isStatement
    obtain rfl := Option.some.inj isStatement
    exact whileLoop_performs laid small isTest fun label =>
      sentences_performs laid small { ctx with loop := some label } body s isBody allows
  | .doLoop line test body, stmt, isStatement, allows => by
    rw [Sentence.statement?] at isStatement
    obtain ⟨s, isBody, isStatement⟩ := Option.bind_eq_some_iff.1 isStatement
    obtain ⟨n, isTest, isStatement⟩ := Option.bind_eq_some_iff.1 isStatement
    obtain rfl := Option.some.inj isStatement
    exact doLoop_performs laid small isTest fun label =>
      sentences_performs laid small { ctx with loop := some label } body s isBody allows
  | .forLoop line init test step body, stmt, isStatement, allows => by
    rw [Sentence.statement?] at isStatement
    obtain ⟨first, isInit, isStatement⟩ := Option.bind_eq_some_iff.1 isStatement
    obtain ⟨test', isTest, isStatement⟩ := Option.bind_eq_some_iff.1 isStatement
    obtain ⟨last, isStep, isStatement⟩ := Option.bind_eq_some_iff.1 isStatement
    obtain ⟨s, isBody, isStatement⟩ := Option.bind_eq_some_iff.1 isStatement
    obtain rfl := Option.some.inj isStatement
    exact forLoop_performs laid small isInit isTest isStep allows.and.1.and fun label =>
      sentences_performs laid small { ctx with loop := some label } body s isBody allows.and.2

/-- The code of some sentences does what they do in turn. -/
theorem sentences_performs (laid : t.Laid) (small : t.Small) (ctx : Context) :
    ∀ (body : List Sentence) (stmt : Statement),
      Sentence.statements? (ctx.names t) body = some stmt → ctx.Allows stmt.isDirect →
      Performs M t ctx (sentences body) fun fuel m => stmt.run M.environment fuel m
  | [], stmt, isStatement, allows => by
    rw [Sentence.statements?] at isStatement
    obtain rfl := Option.some.inj isStatement
    rw [sentences]
    exact .pure
  | s :: rest, stmt, isStatement, allows => by
    rw [Sentence.statements?] at isStatement
    obtain ⟨s₁, isFirst, isStatement⟩ := Option.bind_eq_some_iff.1 isStatement
    obtain ⟨s₂, isRest, isStatement⟩ := Option.bind_eq_some_iff.1 isStatement
    obtain rfl := Option.some.inj isStatement
    rw [sentences]
    exact .bind (sentence_performs laid small ctx s s₁ isFirst allows.and.1)
      (sentences_performs laid small ctx rest s₂ isRest allows.and.2)

end

end ContractCompiler.Codegen
