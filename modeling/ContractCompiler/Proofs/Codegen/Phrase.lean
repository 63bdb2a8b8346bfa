import ContractCompiler.Codegen.Sentence
import ContractCompiler.Proofs.Bind
import ContractCompiler.Proofs.Bind.Interns
import ContractCompiler.Proofs.Evaluation
import ContractCompiler.Proofs.Machine.Follows

/-!
# Proofs.Codegen.Phrase — the code of phrases and conditions

A phrase that is a change of the memory is compiled to code that makes the change
(`phrase_performs`), and a condition to code that jumps by the word that the test denotes
(`condition_ends`). Phrases are bound in the table that is there when their code is made, which has
more constants than the one at the start, but means the same.
-/

namespace ContractCompiler

set_option autoImplicit false

namespace Codegen

variable {M : Machine} {t : SlotTable} {ctx : Context} {st st' st'' : State}

/-! ## Between phrases -/

/-- A later state, in which no steps are put off. -/
structure State.Passes (st st' : State) : Prop where
  valid : st'.Valid
  interns : st.table.Interns st'.table
  settled : st'.deferred = []

theorem State.Passes.trans (first : st.Passes st') (second : st'.Passes st'') : st.Passes st'' :=
  ⟨second.valid, first.interns.trans second.interns, second.settled⟩

theorem State.Takes.passes {holds : List Slot} (takes : st.Takes holds [] st')
    (settled : st.deferred = []) : st.Passes st' :=
  ⟨takes.valid, takes.interns, by rw [takes.deferred, settled, List.append_nil]⟩

variable (M t ctx) in
/-- From any state between phrases whose table has grown from `t`, the action makes code that does what
an execution does. -/
def Performs (action : Codegen Unit) (run : Nat → Memory → Run) : Prop :=
  ∀ st : State, st.Valid → t.Interns st.table → st.deferred = [] →
    action.Ends ctx st fun _ code st' => st.Passes st' ∧
      (M.Hosts st' → ∀ (fuel : Nat) (m mm : Memory), M.Ready m mm →
        M.Follows code ctx.loop fuel mm (run fuel m))

/-- One action after another. -/
theorem Performs.bind {first : Codegen Unit} {second : Unit → Codegen Unit}
    {run run' : Nat → Memory → Run} (performs : Performs M t ctx first run)
    (performs' : Performs M t ctx (second ()) run') :
    Performs M t ctx (first >>= second) fun fuel m => (run fuel m).andThen (run' fuel) := by
  intro st valid interns settled
  refine .bind ((performs st valid interns settled).mono ?_)
  rintro _ code s₁ ⟨passes, follows⟩
  refine (performs' s₁ passes.valid (interns.trans passes.interns) passes.settled).mono ?_
  rintro _ code' s₂ ⟨passes', follows'⟩
  refine ⟨passes.trans passes', fun hosts fuel m mm ready => ?_⟩
  exact (follows (hosts.of_interns passes'.interns) fuel m mm ready).append
    fun m' mm' ready' => follows' hosts fuel m' mm' ready'

/-- An action without code. -/
theorem Performs.pure : Performs M t ctx (Codegen.pure ()) fun _ m => .ended .next m := by
  intro st valid interns settled
  exact .pure ⟨⟨valid, .refl _, settled⟩, fun _ _ _ mm ready => .next (.nil mm) ready⟩

/-- A comment is made or not, and does nothing. -/
theorem comment_ends (M : Machine) (line : Nat) (valid : st.Valid) (settled : st.deferred = []) :
    (comment line).Ends ctx st fun _ code st' => st.Passes st' ∧ ∀ mm, M.Leads code none mm mm := by
  refine .bind (.of rfl (.bind (.of rfl ?_)))
  split
  · refine .bind (.emit (.modifyState ⟨⟨⟨valid.table, valid.pool⟩, .refl _, settled⟩, fun mm => ?_⟩))
    exact (Machine.Leads.comment _ mm).append (.nil mm)
  · exact .pure ⟨⟨valid, .refl _, settled⟩, fun mm => .nil mm⟩

/-- A new number for labels. -/
theorem State.Passes.labels (valid : st.Valid) (settled : st.deferred = []) (labels : Nat) :
    st.Passes { st with labels := labels } :=
  ⟨⟨valid.table, valid.pool⟩, .refl _, settled⟩

/-! ## Phrases -/

/-- What is evaluated for a step at the end of a phrase means what it means. -/
theorem eval_repeats {rules : Rules} (obeys : M.Obeys rules)
    (reuse : ctx.settings.reuseAssignedVar = (rules.reuse != .never)) :
    Repeats M t ctx Node.eval (Node.deed rules) :=
  fun _ bound => (Node.code_simulates obeys reuse bound).value_none

/-- A change is compiled for its value, which is dropped. -/
theorem effect_eq_value {n : Node} {c : Change} (isChange : (Command.value n).change? = some c) :
    n.code.effect = (do release (← n.code.value none).holds) := by
  cases Command.isChange isChange <;> rfl

/-- The parts of a change put nothing off. -/
theorem leak_eq_nil {n : Node} {c : Change} (rules : Rules)
    (isChange : (Command.value n).change? = some c) (bound : c.Bound t) :
    n.Bound t ∧ Meaning.leak (Node.deed rules) (n.means rules).pending = [] := by
  cases Command.isChange isChange with
  | @assign target value op line isPureT isPureV =>
    refine ⟨⟨bound.1, bound.2.2.2.1⟩, ?_⟩
    have none : ((Node.assign op target value line).means rules).pending = [] := by
      cases op <;> exact List.append_eq_nil_iff.2
        ⟨(Node.pending_eq_nil target isPureT).1, (Node.pending_eq_nil value isPureV).1⟩
    rw [none]
    rfl
  | @preStep target s line isPure =>
    refine ⟨bound.1, ?_⟩
    show Meaning.leak _ (target.meaning rules _).pending = []
    rw [(Node.pending_eq_nil target isPure).1]
    rfl
  | @postStep target s line isPure =>
    refine ⟨bound.1, ?_⟩
    have none : (target.means rules).pending = [] := (Node.pending_eq_nil target isPure).1
    show Meaning.leak _ ((s, target) :: (target.meaning rules _).pending) = []
    rw [(Node.pending_eq_nil target isPure).1]
    simp [Meaning.leak, Node.deed, none]

/-- The names of the laid out table, for code in that context. -/
def Context.names (ctx : Context) (t : SlotTable) : Names := ⟨t, ctx.functions, ctx.function⟩

/-- What a phrase is bound to at the start, it is bound to when its code is made. -/
theorem phrase_bound {α : Type} {tokens : List Token} {line : Nat} {found : Option Command}
    {rest : Option Command → Codegen α} {post : α → List Instr → State → Prop}
    (isPhrase : (ctx.names t).phrase tokens line = .ok found) (interns : t.Interns st.table)
    (ends : (rest found).Ends ctx st post) :
    (names >>= fun names => ofOutcome (names.phrase tokens line) >>= rest).Ends ctx st post := by
  have interns : (ctx.names t).table.Interns (ctx.names st.table).table := interns
  have same : (ctx.names st.table).phrase tokens line = .ok found :=
    Names.phrase_interns interns rfl rfl tokens line found isPhrase
  have gives : ofOutcome ((ctx.names st.table).phrase tokens line) ctx st = .done found [] st := by
    rw [same]
    rfl
  exact .bind (.of rfl (.bind (.of gives (by simpa using ends))))

/-- The code of a change, with the steps that are put off in it. -/
theorem change_ends {n : Node} {c : Change} {line : Nat}
    (isChange : (Command.value n).change? = some c) (bound : c.Bound t)
    (reuse : ctx.settings.reuseAssignedVar = false ∨ c.isDirect = true) (valid : st.Valid)
    (interns : t.Interns st.table) (settled : st.deferred = []) :
    (do command (.value n); applyDeferred Node.eval 0 line; checkRegisters line).Ends ctx st
      fun _ code st' => st.Passes st' ∧ (M.Hosts st' → ∀ m mm : Memory, M.Ready m mm →
        ∀ m', c.after? M.environment m = some m' →
          ∃ mm', M.Leads code none mm mm' ∧ M.Ready m' mm') := by
  have obeys := M.obeys_rules ctx.settings.reuse
  obtain ⟨boundN, none⟩ := leak_eq_nil (M.rules ctx.settings.reuse) isChange bound
  have simulates := Node.code_simulates_rules M ctx boundN
  show (n.code.effect >>= _).Ends ctx st _
  rw [effect_eq_value isChange]
  refine .bind (.bind ((simulates.value_none st valid interns).mono ?_))
  rintro o c₁ s₁ ⟨takes, -, run⟩
  have takes₁ := takes.releaseAll
  refine .release ?_
  refine .bind ((applyDeferred_ends obeys (eval_repeats obeys ctx.settings.reuse_ne_never)
    simulates.pending takes₁ (interns.trans takes₁.interns) (by rw [settled]; rfl)).mono ?_)
  rintro _ c₂ s₂ ⟨takes₂, later, finish⟩
  rw [none] at takes₂
  refine (checkRegisters_ends line).mono ?_
  rintro _ c₃ s₃ ⟨rfl, rfl⟩
  refine ⟨takes₂.passes settled, fun hosts m mm ready m' applies => ?_⟩
  have hosts₁ : M.Hosts s₁ := (later.hosts hosts).of_release
  have knows := hosts.knows (interns.trans takes₂.interns) ready.fixed ctx.settings.reuse
  have reuse' : (M.rules ctx.settings.reuse).reuse = .never ∨
      (M.rules ctx.settings.reuse).reuse = .always ∧ c.isDirect = true := by
    show ctx.settings.reuse = .never ∨ ctx.settings.reuse = .always ∧ c.isDirect = true
    unfold Settings.reuse
    rcases reuse with never | direct
    · simp [never]
    · cases ctx.settings.reuseAssignedVar <;> simp [direct]
  obtain ⟨r, m₁, ran, done⟩ :=
    Effect.bind_eq_some.1 (Node.effect_eq knows isChange bound reuse' applies)
  obtain ⟨mm₁, leads₁, ready₁, -, -⟩ := run hosts₁ ready ran
  obtain ⟨mm₂, leads₂, ready₂, -⟩ := finish hosts ready₁ done
  exact ⟨mm₂, by simpa using leads₁.append leads₂, ready₂⟩

/-- A phrase that is a change. -/
theorem phrase_performs {tokens : List Token} {line : Nat} {c : Change} (laid : t.Laid)
    (small : t.Small) (isChange : (ctx.names t).change? tokens line = some c)
    (reuse : ctx.settings.reuseAssignedVar = false ∨ c.isDirect = true) :
    Performs M t ctx (phrase tokens false line) fun _ m => .ofChange (c.after? M.environment m) := by
  intro st valid interns settled
  have bound : c.Bound t := (ctx.names t).change?_bound laid small isChange
  unfold Names.change? at isChange
  split at isChange
  · rename_i isPhrase
    cases isChange
    exact phrase_bound isPhrase interns (Performs.pure st valid interns settled)
  · rename_i command isPhrase
    obtain ⟨n, rfl⟩ : ∃ n, command = .value n := by
      cases Command.isChange isChange <;> exact ⟨_, rfl⟩
    refine phrase_bound isPhrase interns (.bind ((comment_ends M _ valid settled).mono ?_))
    rintro _ c₁ s₁ ⟨passes, silent⟩
    refine .bind (.capture ((change_ends (M := M) isChange bound reuse passes.valid
      (interns.trans passes.interns) passes.settled).mono ?_))
    rintro _ c₂ s₂ ⟨passes', makes⟩
    refine .emitAll ⟨passes.trans passes', fun hosts fuel m mm ready => ?_⟩
    dsimp only
    cases applies : c.after? M.environment m with
    | none => trivial
    | some m' =>
      obtain ⟨mm', leads, ready'⟩ := makes hosts m mm ready m' applies
      exact .next ((silent mm).append leads) ready'
  · cases isChange

/-- A keyword that leaves the loop or its body is one jump. -/
theorem leave_ends {word : Control} {line : Nat} {ending : String} (notReturn : word ≠ .return_)
    (leaves : control word none line = leaveLoop word ending line) (valid : st.Valid)
    (settled : st.deferred = []) :
    (do command (.control word none line); applyDeferred Node.eval 0 line; checkRegisters line).Ends
      ctx st fun _ code st' => st.Passes st' ∧
        ∃ label, ctx.loop = some label ∧ code = [Instr.jump (label ++ ending)] := by
  have noValue : (controlValue word none line).Ends ctx st fun value code s' =>
      value = none ∧ code = [] ∧ s' = st := by
    refine .bind (.of rfl ?_)
    dsimp only
    split
    · exact .pure ⟨rfl, rfl, rfl⟩
    · exact absurd rfl notReturn
    · exact .pure ⟨rfl, rfl, rfl⟩
  have jumps : (leaveLoop word ending line).Ends ctx st fun _ code s' =>
      s' = st ∧ ∃ label, ctx.loop = some label ∧ code = [Instr.jump (label ++ ending)] := by
    refine .bind (.of rfl ?_)
    split
    · rename_i label loop
      exact .emit ⟨rfl, label, loop, rfl⟩
    · exact .fail _
  refine .bind (.bind (noValue.mono ?_))
  rintro _ _ _ ⟨rfl, rfl, rfl⟩
  dsimp only
  rw [leaves]
  refine jumps.mono ?_
  rintro _ _ _ ⟨rfl, label, loop, rfl⟩
  refine .bind (.bind (.of rfl ?_))
  rw [settled]
  refine .pure ((checkRegisters_ends line).mono ?_)
  rintro _ _ _ ⟨rfl, rfl⟩
  exact ⟨⟨⟨valid.table, valid.pool⟩, .refl _, rfl⟩, label, loop, rfl⟩

/-- A phrase that leaves the loop or its body. -/
theorem phrase_leaves {tokens : List Token} {line line' : Nat} {word : Control}
    {value : Option Node} {flow : Flow} {ending : String}
    (isPhrase : (ctx.names t).phrase tokens line = .ok (some (.control word value line')))
    (noValue : word ≠ .return_ ∧ word ≠ .sleep)
    (leaves : control word none line' = leaveLoop word ending line')
    (exits : ∀ label, flow.exit? (some label) = some (some (label ++ ending))) :
    Performs M t ctx (phrase tokens false line) fun _ m => .ended flow m := by
  intro st valid interns settled
  obtain rfl : value = none :=
    ((ctx.names t).phrase_control tokens line _ isPhrase word value line' rfl).resolve_right
      fun takes => takes.elim noValue.1 noValue.2
  refine phrase_bound isPhrase interns (.bind ((comment_ends M _ valid settled).mono ?_))
  rintro _ c₁ s₁ ⟨passes, silent⟩
  refine .bind (.capture ((leave_ends noValue.1 leaves passes.valid passes.settled).mono ?_))
  rintro _ c₂ s₂ ⟨passes', label, loop, rfl⟩
  refine .emitAll ⟨passes.trans passes', fun _ fuel m mm ready => ?_⟩
  exact ⟨_, mm, loop ▸ exits label, (silent mm).append (.jump _ mm), ready⟩

/-- A phrase that is a statement. -/
theorem phrase_statement_performs {tokens : List Token} {line : Nat} {s : Statement} (laid : t.Laid)
    (small : t.Small) (isStatement : (ctx.names t).statement? tokens line = some s)
    (reuse : ctx.settings.reuseAssignedVar = false ∨ s.isDirect = true) :
    Performs M t ctx (phrase tokens false line) fun fuel m => s.run M.environment fuel m := by
  unfold Names.statement? at isStatement
  split at isStatement
  · rename_i isPhrase
    cases isStatement
    exact phrase_performs (c := .nothing) laid small (by simp [Names.change?, isPhrase]) (.inr rfl)
  · rename_i command isPhrase
    unfold Command.statement? at isStatement
    split at isStatement
    · cases isStatement
      exact phrase_leaves isPhrase (by decide) rfl fun _ => rfl
    · cases isStatement
      exact phrase_leaves isPhrase (by decide) rfl fun _ => rfl
    · obtain ⟨c, isChange, rfl⟩ := Option.map_eq_some_iff.1 isStatement
      exact phrase_performs laid small (by simp [Names.change?, isPhrase, isChange]) reuse
  · cases isStatement

/-! ## Conditions -/

/-- A condition jumps by the word that the test denotes. -/
theorem condition_ends {tokens : List Token} {line : Nat} {n : Node} {target : String} {when : Bool}
    (laid : t.Laid) (small : t.Small) (isTest : (ctx.names t).test? tokens line = some n)
    (valid : st.Valid) (interns : t.Interns st.table) (settled : st.deferred = []) :
    (condition tokens target when line).Ends ctx st fun _ code st' => st.Passes st' ∧
      (M.Hosts st' → ∀ m mm, M.Ready m mm →
        M.Decides code (n.value? M.arithmetic M.mayRead m) target when m mm) := by
  obtain ⟨bound, isPure⟩ := (ctx.names t).test?_bound laid small isTest
  have isCondition : (ctx.names t).condition tokens line = .ok n := by
    unfold Names.test? at isTest
    split at isTest
    · split at isTest
      · cases isTest
        assumption
      · cases isTest
    · cases isTest
  have interns' : (ctx.names t).table.Interns (ctx.names st.table).table := interns
  have same := Names.condition_interns interns' rfl rfl tokens line n isCondition
  have gives : ofOutcome ((ctx.names st.table).condition tokens line) ctx st = .done n [] st := by
    rw [same]
    rfl
  have simulates := Node.code_simulates_rules (t := t) M { ctx with inCondition := true } bound
  refine .bind (.of rfl (.bind (.of gives (.bind
    (.within ((simulates.jump target when st valid interns).mono ?_))))))
  rintro _ code s₁ ⟨takes, run⟩
  refine (checkRegisters_ends line).mono ?_
  rintro _ _ _ ⟨rfl, rfl⟩
  have none : (n.means (M.rules ctx.settings.reuse)).testPending = [] :=
    (Node.pending_eq_nil n isPure).2
  rw [none] at takes
  refine ⟨takes.passes settled, fun hosts m mm ready w denotes => ?_⟩
  have knows := hosts.knows (interns.trans takes.interns) ready.fixed ctx.settings.reuse
  have truth : (n.means (M.rules ctx.settings.reuse)).Gives (M.rules ctx.settings.reuse) m w :=
    Node.gives _ knows n isPure bound w denotes
  obtain ⟨mm', leads, ready', -⟩ := run hosts ready truth.test
  exact ⟨mm', by simpa using leads, ready'⟩

end Codegen

end ContractCompiler
