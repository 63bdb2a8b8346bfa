import ContractCompiler.Proofs.Bind.Relate
import ContractCompiler.Proofs.Sentence.Keep
import ContractCompiler.Proofs.Sentence.Steps

/-!
# Proofs.Sentence.Account — what a phrase calls and what it leaves to be done

A phrase evaluates its expression and then does the steps that are put off, those of earlier phrases
included. So its code makes the calls of two rounds, and leaves what the second one leaves
(`Codegen.phrase_does`). Nothing is left, and each call is made once, as long as nothing else than a
variable or a view of one is in the target of a step: the target is evaluated twice.
-/

namespace ContractCompiler

set_option autoImplicit false

open Codegen (Context State Does)

namespace Command

/-- The expression that a phrase evaluates. Outside of called functions, `return` does not evaluate
what stands behind it. -/
def evaluated (ctx : Context) : Command → Option Node
  | .control .return_ operand _ => if ctx.called.isSome then operand else none
  | .control _ operand _ => operand
  | .value n => some n

/-- The rounds of the expression that a phrase evaluates. -/
def rounds (ctx : Context) (c : Command) : Rounds := ((c.evaluated ctx).map Node.rounds).getD .nothing

variable {ctx : Context} {c : Command} {n : Node}

theorem node?_of_evaluated (isEvaluated : c.evaluated ctx = some n) : c.node? = some n := by
  cases c with
  | value n => exact isEvaluated
  | control word operand line =>
    cases word with
    | return_ =>
      rw [evaluated] at isEvaluated
      split at isEvaluated
      · exact isEvaluated
      · cases isEvaluated
    | break_ | continue_ | exit | halt | sleep => exact isEvaluated

theorem rounds_succ (ctx : Context) (c : Command) (k : Nat) :
    c.rounds ctx (k + 1) = Node.redo (c.rounds ctx k).left := by
  rw [rounds]
  cases c.evaluated ctx with
  | none => rfl
  | some n => exact n.rounds_succ k

/-- Nothing is left after the second round if the steps are not nested. -/
theorem left_eq_nil (flat : ∀ n, c.node? = some n → n.postDepth ≤ 1) : (c.rounds ctx 1).left = [] := by
  rw [rounds]
  cases isEvaluated : c.evaluated ctx with
  | none => rfl
  | some n => exact Node.left_eq_nil (flat n (node?_of_evaluated isEvaluated))

end Command

namespace Node

/-- Doing steps calls nothing if their targets do not. -/
theorem redo_calls_eq_nil {steps : List (Step × Node)} (quiet : ∀ p ∈ steps, p.2.callees = []) :
    (redo steps).calls = [] := by
  refine List.eq_nil_iff_forall_not_mem.2 fun c mem => ?_
  obtain ⟨p, listed, mem⟩ := mem_calls_redo.1 mem
  rw [calls_eq_nil (quiet p listed)] at mem
  cases mem

end Node

/-- What is fixed at the start calls nothing. -/
theorem SlotTable.freeze_calls_nothing {t : SlotTable} {line : Nat} {code directives : List Instr}
    (frozen : (t.freeze line code).2 = .ok directives) :
    Instr.callees code = [] ∧ Instr.callees directives = [] := by
  constructor
  · refine List.filterMap_eq_nil_iff.2 fun i mem => ?_
    obtain ⟨t', load, loads⟩ := (freeze_sets frozen).1 i mem
    cases i with
    | call _ | host _ _ _ => cases loads
    | _ => rfl
  · refine List.filterMap_eq_nil_iff.2 fun i mem => ?_
    obtain ⟨-, -, -, dest, hex, -, rfl⟩ := (freeze_sets frozen).2 _ mem
    rfl

namespace Codegen

variable {ctx : Context} {functions : List Signature}

/-! ## Phrases -/

section Phrases

variable (line : Nat)

theorem comment_does : Does .nothing (comment line) := by
  intro ctx s
  refine .bind (.of rfl (.bind (.of rfl ?_)))
  split
  · exact .bind (.emit (.modifyState ⟨rfl, by simp, fun _ => rfl⟩))
  · exact .pure ⟨rfl, by simp, fun _ => rfl⟩

theorem control_does (word : Control) (value : Option Slot) : Does .nothing (control word value line) := by
  have leaves : ∀ ending, Does .nothing (leaveLoop word ending line) := by
    intro ending
    refine .after .context fun ctx => ?_
    split
    · exact .emit rfl
    · exact .fail _
  have resolved : ∀ (s : Slot) (i : String → Instr), (∀ x, Instr.callees [i x] = []) →
      Does .nothing (resolve s line >>= fun o => emit (i o.slot.asmName) >>= fun _ => release o.holds) :=
    fun s i calls => .after (resolve_straight line s) fun o =>
      .behind (.emit (calls _)) fun _ => .of_straight (.release _)
  cases word with
  | return_ =>
    refine .after (.bind .context fun _ => .pure _) fun function => ?_
    split
    · exact .emit rfl
    · cases value with
      | none => exact .after (.pure _) fun _ => .emit rfl
      | some s => exact .behind (resolved s .push fun _ => rfl) fun _ => .emit rfl
  | break_ | continue_ => exact leaves _
  | exit | halt => exact .emit rfl
  | sleep =>
    cases value with
    | none => exact .fail _
    | some s => exact resolved s .sleep fun _ => rfl

/-- The value that is evaluated for a keyword of control. -/
theorem controlValue_evaluated (word : Control) (value : Option Node) (s : State) :
    (controlValue word value line).Ends ctx s fun found code s' =>
      code = [] ∧ s' = s ∧ found = (Command.control word value line).evaluated ctx := by
  refine .bind (.of rfl ?_)
  split
  · rename_i notCalled
    have isNone : ctx.called = none := notCalled
    exact .pure ⟨rfl, rfl, by simp [Command.evaluated, isNone]⟩
  · rename_i function isCalled
    have isSome : ctx.called = some function := isCalled
    refine .bind (.of rfl ?_)
    dsimp only
    split
    · exact .fail _
    · exact .fail _
    · exact .pure ⟨rfl, rfl, by simp [Command.evaluated, isSome]⟩
  · rename_i word _ _ notMain notReturn
    refine .pure ⟨rfl, rfl, ?_⟩
    cases word with
    | return_ =>
      cases called : ctx.called with
      | none => exact absurd called (notMain rfl)
      | some function => exact (notReturn function rfl called).elim
    | break_ | continue_ | exit | halt | sleep => rfl

/-- The code of a bound phrase, without the steps put off. -/
theorem command_does (c : Command) (s : State) : (command c).Ends ctx s fun _ code s' =>
    Instr.callees code = (c.rounds ctx 0).calls ∧
      s'.deferred = s.deferred ++ (c.rounds ctx 0).left := by
  cases c with
  | value n =>
    refine ((n.code_settles []).effect.does ctx s).mono ?_
    intro _ code s' ⟨calls, deferred, _⟩
    exact ⟨calls, deferred⟩
  | control word value line =>
    refine .bind ((controlValue_evaluated line word value s).mono ?_)
    intro found _ s₁ ⟨isNil, same, isFound⟩
    rw [isNil, same, Command.rounds, ← isFound]
    cases found with
    | none =>
      refine (control_does line word none ctx s).mono ?_
      intro _ code s' ⟨calls, deferred, _⟩
      exact ⟨calls, deferred⟩
    | some n =>
      have evaluates : Does (n.rounds 0) (n.eval >>= fun o => control word (some o.slot) line >>= fun _ =>
          release o.holds) :=
        ((Node.eval_settles []).settles n).does.followed fun o => (control_does line word _).andThen fun _ => .release _
      refine (evaluates ctx s).mono ?_
      intro _ code s' ⟨calls, deferred, _⟩
      exact ⟨calls, deferred⟩

/-- A phrase without tokens does nothing. -/
theorem phrase_ends_of_bound {tokens : List Token} {isConst : Bool} {s : State}
    {post : Unit → List Instr → State → Prop} (empty : post () [] s)
    (bound : ∀ c, (ctx.names s.table).phrase tokens line = .ok (some c) →
      (phrase tokens isConst line).Ends ctx s post) : (phrase tokens isConst line).Ends ctx s post := by
  cases isPhrase : (ctx.names s.table).phrase tokens line with
  | error e =>
    refine .bind (.of rfl (.bind (.ofOutcome fun found isFound => ?_)))
    cases isPhrase.symm.trans isFound
  | ok found =>
    cases found with
    | none =>
      refine .bind (.of rfl (.bind (.ofOutcome fun found isFound => ?_)))
      obtain rfl := Except.ok.inj (isPhrase.symm.trans isFound)
      exact .pure empty
    | some c => exact bound c isPhrase

/-- The code of a phrase makes the calls of its first two rounds and of the steps put off before it, and
leaves what the second round leaves. -/
theorem phrase_does {tokens : List Token} {c : Command} {s : State}
    (isPhrase : (ctx.names s.table).phrase tokens line = .ok (some c)) (isConst : Bool) :
    (phrase tokens isConst line).Ends ctx s fun _ code s' =>
      Instr.callees code =
        (c.rounds ctx 0).calls ++ ((Node.redo s.deferred).calls ++ (c.rounds ctx 1).calls) ∧
      s'.deferred = (Node.redo s.deferred).left ++ (c.rounds ctx 1).left := by
  have inner : ∀ s₁ : State, s₁.deferred = s.deferred →
      (do command c; applyDeferred Node.eval 0 c.line; checkRegisters c.line : Codegen Unit).Ends ctx s₁
        fun _ code s' =>
          Instr.callees code =
            (c.rounds ctx 0).calls ++ ((Node.redo s.deferred).calls ++ (c.rounds ctx 1).calls) ∧
          s'.deferred = (Node.redo s.deferred).left ++ (c.rounds ctx 1).left := by
    intro s₁ same
    refine .bind ((command_does c s₁).mono ?_)
    rintro _ code s₂ ⟨calls, deferred⟩
    have queue : s₂.deferred = [] ++ (s.deferred ++ (c.rounds ctx 0).left) := by rw [deferred, same]; rfl
    refine .bind ((applyDeferred_settles (Node.eval_settles []) c.line ctx queue).mono ?_)
    rintro _ code' s₃ ⟨⟨calls', deferred', -⟩, -⟩
    refine (Does.of_straight (checkRegisters_straight c.line) ctx s₃).mono ?_
    rintro _ code'' s₄ ⟨calls'', deferred'', -⟩
    rw [c.rounds_succ ctx 0]
    constructor
    · simp [calls, calls', calls'', Due.ofSteps]
    · simp [deferred', deferred'', Due.ofSteps]
  refine .bind (.of rfl (.bind (.ofOutcome fun found isFound => ?_)))
  obtain rfl : some c = found := Except.ok.inj (isPhrase.symm.trans isFound)
  refine .bind ((comment_does c.line ctx s).mono ?_)
  rintro _ lead s₁ ⟨noCall, same, -⟩
  refine .bind (.capture ((inner s₁ (by simpa using same)).mono ?_))
  rintro _ code s₂ ⟨calls, deferred⟩
  dsimp only
  split
  · -- a phrase that is fixed at the start calls nothing, and so does its expression
    refine .bind (.of rfl (.bind (.modifyState (.bind (.ofOutcome fun directives frozen => ?_)))))
    obtain ⟨nothing, nothing'⟩ := SlotTable.freeze_calls_nothing frozen
    refine .emitAll ⟨?_, deferred⟩
    rw [← calls, nothing]
    simp [noCall, nothing']
  · exact .emitAll ⟨by simp [noCall, calls], deferred⟩

/-- A condition does its steps at once, or is refused. -/
theorem condition_ends_deferred (tokens : List Token) (target : String) (when : Bool) (s : State) :
    (condition tokens target when line).Ends ctx s fun _ _ s' => s'.deferred = s.deferred := by
  refine .bind (.of rfl (.bind (.ofOutcome fun n _ => ?_)))
  refine .bind (.within (((n.code_settles []).jump_does target when { ctx with inCondition := true } s).mono ?_))
  intro _ code s₁ ⟨_, deferred, empty⟩
  rw [empty rfl, List.append_nil] at deferred
  refine (checkRegisters_ends line).mono ?_
  rintro _ _ _ ⟨rfl, -⟩
  exact deferred

end Phrases

/-! ## What is left to be done -/

/-- No step after a use stands in the operand of another. -/
def IsFlat (q : List Token × Nat) : Prop :=
  ∀ p, Phrase.ofTokens q.1 q.2 = .ok (some p) → p.postDepth ≤ 1

/-- The code leaves no step if none was left before it. -/
def Finishes (s : State) (_ : List Instr) (s' : State) : Prop := s.deferred = [] → s'.deferred = []

theorem finishes_composes : Composes Finishes where
  marks _ _ _ same none := same.trans none
  trans first second none := second (first none)

theorem condition_finishes (tokens : List Token) (target : String) (when : Bool) (line : Nat) :
    Keeps functions Finishes (condition tokens target when line) :=
  fun _ _ s => (condition_ends_deferred line tokens target when s).mono
    fun _ _ _ same none => same.trans none

theorem phrase_finishes {q : List Token × Nat} (flat : IsFlat q) (isConst : Bool) :
    Keeps functions Finishes (phrase q.1 isConst q.2) := by
  intro ctx _ s
  refine phrase_ends_of_bound q.2 id fun c isPhrase => ?_
  refine (phrase_does q.2 isPhrase isConst).mono ?_
  intro _ _ s' ⟨_, deferred⟩ none
  have nothing : (c.rounds ctx 1).left = [] := by
    refine Command.left_eq_nil fun n isNode => ?_
    obtain ⟨p, isRead, le⟩ := Names.phrase_postDepth isPhrase isNode
    exact Nat.le_trans le (flat p isRead)
  rw [deferred, none, nothing]
  rfl

/-- What the code leaves to be done. A phrase leaves what its second round leaves, and that of the steps
put off before it. A jump and a branch of a conditional leave what they found and what is left of their
own, and a condition leaves what it found. All of them leave nothing of their own if steps after a use
are not nested, and so do the sentences and the contracts that are made of such phrases. -/
theorem steps_left_behind (ctx : Context) (s : State) :
    (∀ tokens isConst line c, (ctx.names s.table).phrase tokens line = .ok (some c) →
      (phrase tokens isConst line).Ends ctx s fun _ _ s' =>
        s'.deferred = (Node.redo s.deferred).left ++ (c.rounds ctx 1).left ∧
        (s.deferred = [] → c.postDepth ≤ 1 → s'.deferred = [])) ∧
    (∀ (n : Node) depth target when,
      ((n.plan (Node.evalBelow depth)).jump target when).Ends ctx s fun _ _ s' =>
        s'.deferred = s.deferred ++ (n.rounds.jumped n.isTest 0).left ∧
        (n.postDepth ≤ 1 → s'.deferred = s.deferred)) ∧
    (∀ (n : Node) depth result line,
      (ternaryArm (Node.evalBelow depth) ((n.plan (Node.evalBelow depth)).value none) result line).Ends
        ctx s fun _ _ s' =>
        s'.deferred = s.deferred ++ (n.rounds 1).left ∧ (n.postDepth ≤ 1 → s'.deferred = s.deferred)) ∧
    (∀ tokens target when line, (condition tokens target when line).Ends ctx s fun _ _ s' =>
      s'.deferred = s.deferred) ∧
    (∀ ss, (∀ q ∈ Sentence.allPhrases ss, IsFlat q) → s.deferred = [] →
      (sentences ss).Ends ctx s fun _ _ s' => s'.deferred = []) ∧
    (∀ p : Program, (∀ q ∈ p.phrases, IsFlat q) → s.deferred = [] →
      (blocks p).Ends ctx s fun _ _ s' => s'.deferred = []) := by
  refine ⟨?_, ?_, ?_, ?_, ?_, ?_⟩
  · intro tokens isConst line c isPhrase
    refine (phrase_does line isPhrase isConst).mono ?_
    intro _ _ s' ⟨_, deferred⟩
    refine ⟨deferred, fun none flat => ?_⟩
    have nothing : (c.rounds ctx 1).left = [] := by
      refine Command.left_eq_nil fun n isNode => ?_
      cases c with
      | value _ =>
        cases isNode
        exact flat
      | control _ operand _ =>
        obtain rfl : operand = some n := isNode
        exact flat
    rw [deferred, none, nothing]
    rfl
  · intro n depth target when
    have below : EvalSettles [] (Node.evalBelow depth) := Node.evalBelow_settles depth
    refine ((n.plan_settles below).jump_does target when ctx s).mono ?_
    intro _ _ s' ⟨_, deferred, _⟩
    refine ⟨deferred, fun flat => ?_⟩
    rw [deferred, n.left_jumped_eq_nil flat, List.append_nil]
  · intro n depth result line
    have below : EvalSettles [] (Node.evalBelow depth) := Node.evalBelow_settles depth
    have arm := ternaryArm_settles below line ((n.plan_settles below).value none) (n.due_queued []) result
    refine (arm.does ctx s).mono ?_
    intro _ _ s' ⟨_, deferred, _⟩
    have left : s'.deferred = s.deferred ++ (n.rounds 1).left := by
      rw [deferred, n.rounds_succ]
      rfl
    refine ⟨left, fun flat => ?_⟩
    rw [left, Node.left_eq_nil flat, List.append_nil]
  · exact fun tokens target when line => condition_ends_deferred line tokens target when s
  · intro ss flat none
    have keeps : Keeps ctx.functions Finishes (sentences ss) :=
      sentences_keep finishes_composes condition_finishes ss
        fun q mem isConst => phrase_finishes (flat q mem) isConst
    exact (keeps ctx rfl s).mono fun _ _ _ finishes => finishes none
  · intro p flat none
    have keeps : (blocks p).Ends ctx s fun blocks _ s' => Finishes s blocks.flatten s' :=
      blocks_keep finishes_composes condition_finishes (fun _ _ _ _ _ none => none) rfl
        (fun q mem isConst => phrase_finishes (flat q mem) isConst) s
    exact keeps.mono fun _ _ _ finishes => finishes none

end Codegen

namespace Sample

def stepped : String := "long a[2], x, y; void main(void) \x7b \x7d"

/-- Both phrases are compiled, and only the first has a step within a step. -/
theorem stepped_leaves : (Contract.read stepped settings).Succeeds fun c =>
    (Compiles c "a[x++]++" fun nested _ _ => (nested.rounds (inMain c) 1).left.length = 1) ∧
    Compiles c "y = a[x]++" fun flat _ _ => flat.postDepth ≤ 1 := by
  decide +kernel

end Sample

/-- The step of the index is put off twice and done once, so that it is left to the phrase that follows.
Without the inner step nothing is left. -/
theorem Codegen.steps_left_behind_nested : ∃ (c : Contract) (nested flat : List Token)
    (code code' : List Instr) (s s' : Codegen.State),
    Contract.read Sample.stepped Sample.settings = .ok c ∧ tokenize "a[x++]++" = .ok nested ∧
    tokenize "y = a[x]++" = .ok flat ∧
    Codegen.phrase nested false 1
      ⟨c.settings, c.layout.functions, LabelId.scrambled 0, some "main", none, false⟩
      (.ofLayout c.layout) = .done () code s ∧ s.deferred.length = 1 ∧
    Codegen.phrase flat false 1
      ⟨c.settings, c.layout.functions, LabelId.scrambled 0, some "main", none, false⟩
      (.ofLayout c.layout) = .done () code' s' ∧ s'.deferred = [] := by
  obtain ⟨c, isContract,
    ⟨nested, isNested, _, boundNested, _, rfl, _, code, s, done, one⟩,
    ⟨flat, isFlat, _, boundFlat, _, rfl, _, code', s', done', depth⟩⟩ := Sample.stepped_leaves
  obtain ⟨phrases, -⟩ := Codegen.steps_left_behind (Sample.inMain c) (.ofLayout c.layout)
  obtain ⟨left, -⟩ := phrases nested false 1 _ boundNested _ _ _ done
  obtain ⟨-, settled⟩ := phrases flat false 1 _ boundFlat _ _ _ done'
  refine ⟨c, nested, flat, code, code', s, s', isContract, isNested, isFlat, done, ?_, done',
    settled rfl depth⟩
  rw [left]
  exact one

/-! ## What is called -/

namespace Sample

/-- Two functions with a value. -/
def answering : String :=
  "long x, y, a[2]; long f(void) \x7b return 1; \x7d long g(long a, long b) \x7b return a; \x7d " ++
    "void main(void) \x7b \x7d"

/-- A step is put off in the phrase, no call stands in its target, and the calls are these. -/
theorem answering_calls : (Contract.read answering settings).Succeeds fun c =>
    Compiles c "y = x++ < g(f(), Get_A1()) ? f() : 2" fun command _ _ =>
      ∃ n ∈ command.evaluated (inMain c), (∀ p ∈ n.postSteps, p.2.callees = []) ∧ n.callees =
        [.host "get_A1", .function "__fn_f", .function "__fn_g", .function "__fn_f"] := by
  decide +kernel

end Sample

/-- One call is written in each phrase. In the target of a step that is put off it is made twice, and behind
a `return` of the main function it is dropped. -/
theorem Codegen.calls_repeated_and_dropped : (Contract.read Sample.answering Sample.settings).Succeeds fun c =>
    (Sample.Compiles c "a[f()]++" fun command code _ =>
      (∃ n ∈ command.node?, n.callees = [.function "__fn_f"]) ∧
        Instr.callees code = [.function "__fn_f", .function "__fn_f"]) ∧
    Sample.Compiles c "return f()" fun command code _ =>
      (∃ n ∈ command.node?, n.callees = [.function "__fn_f"]) ∧ Instr.callees code = [] := by
  decide +kernel

/-- The calls in the code of a phrase are those of its first two rounds and of the steps put off before
it. If no call stands in the target of a step after a use, these are the calls of the expression that
the phrase evaluates, each of them once and in order. -/
theorem Codegen.phrase_calls_once {ctx : Context} {tokens : List Token} {line : Nat} {isConst : Bool}
    {c : Command} {s s' : State} {code : List Instr}
    (isPhrase : (ctx.names s.table).phrase tokens line = .ok (some c))
    (done : phrase tokens isConst line ctx s = .done () code s') :
    Instr.callees code =
      (c.rounds ctx 0).calls ++ ((Node.redo s.deferred).calls ++ (c.rounds ctx 1).calls) ∧
    ((∀ n, c.evaluated ctx = some n → ∀ p ∈ n.postSteps, p.2.callees = []) →
      (∀ p ∈ s.deferred, p.2.callees = []) →
      Instr.callees code = ((c.evaluated ctx).map Node.callees).getD []) := by
  obtain ⟨calls, -⟩ := phrase_does line isPhrase isConst _ _ _ done
  refine ⟨calls, fun quiet quietBefore => ?_⟩
  rw [calls, Node.redo_calls_eq_nil quietBefore, Command.rounds]
  cases isEvaluated : c.evaluated ctx with
  | none => rfl
  | some n =>
    have first : (n.rounds 0).calls = n.callees := n.calls_eq (quiet n isEvaluated)
    have second : (n.rounds 1).calls = [] := Node.calls_succ_eq_nil (quiet n isEvaluated) 0
    simp [first, second]

/-- The arguments of the outer call make calls of their own, the last one first, and a step is put off
beside them. -/
theorem Codegen.phrase_calls_once_nested : ∃ (c : Contract) (tokens : List Token) (code : List Instr)
    (s' : Codegen.State),
    Contract.read Sample.answering Sample.settings = .ok c ∧
    tokenize "y = x++ < g(f(), Get_A1()) ? f() : 2" = .ok tokens ∧
    Codegen.phrase tokens false 1
      ⟨c.settings, c.layout.functions, LabelId.scrambled 0, some "main", none, false⟩
      (.ofLayout c.layout) = .done () code s' ∧
    Instr.callees code =
      [.host "get_A1", .function "__fn_f", .function "__fn_g", .function "__fn_f"] := by
  obtain ⟨c, isContract, tokens, isTokens, _, isPhrase, command, rfl, _, code, s', done, n, isEvaluated, quiet,
    callees⟩ := Sample.answering_calls
  have isEvaluated : command.evaluated _ = some n := isEvaluated
  obtain ⟨-, once⟩ := Codegen.phrase_calls_once isPhrase done
  refine ⟨c, tokens, code, s', isContract, isTokens, done, ?_⟩
  rw [once (fun n' same => Option.some.inj (isEvaluated.symm.trans same) ▸ quiet)
    (by simp [Codegen.State.ofLayout]), isEvaluated]
  exact callees

end ContractCompiler
