import ContractCompiler.Proofs.Program
import ContractCompiler.Proofs.Sentence.Balance

/-!
# Proofs.Sentence.Steps — steps are done before a phrase is left

A step after the use of a variable is put off to the end of the phrase, or to the next jump. The code of
a phrase has one line for each such step, and every way out of the code comes by each of these lines once
(`Codegen.phrase_steps_once`). This leaves out `return`, which leaves the code before the steps that
were put off, and steps in the target of another, which is evaluated twice.
-/

namespace ContractCompiler

set_option autoImplicit false

namespace Command

def stepLines : Command → List Instr
  | .control _ operand _ => (operand.map Node.stepLines).getD []
  | .value node => node.stepLines

def postDepth : Command → Nat
  | .control _ operand _ => (operand.map Node.postDepth).getD 0
  | .value node => node.postDepth

/-- The lines of steps change a variable in place. -/
theorem stepLines_inPlace (c : Command) : ∀ i ∈ c.stepLines, ∃ x, i = .increment x ∨ i = .decrement x := by
  have inPlace : ∀ (n : Node), ∀ i ∈ n.stepLines, ∃ x, i = .increment x ∨ i = .decrement x := by
    intro n i mem
    obtain ⟨step, target, -, isLine⟩ := n.postStep_of_stepLine mem
    obtain ⟨x, -, rfl⟩ := Option.map_eq_some_iff.1 isLine
    cases step with
    | up => exact ⟨_, .inl rfl⟩
    | down => exact ⟨_, .inr rfl⟩
  cases c with
  | value node => exact inPlace node
  | control word operand line =>
    cases operand with
    | none => simp [stepLines]
    | some node => exact inPlace node

end Command

/-- The lines that code comes by are in it. -/
theorem Meets.subset {lines code : List Instr} (comesBy : Meets lines code) : lines ⊆ code := by
  induction comesBy with
  | part _ => exact List.nil_subset _
  | line _ => exact List.Subset.refl _
  | append _ _ ih ih' =>
    exact List.append_subset.2
      ⟨List.Subset.trans ih (List.subset_append_left ..),
        List.Subset.trans ih' (List.subset_append_right ..)⟩

namespace Codegen

variable {ctx : Context}

/-- A phrase that computes or sleeps. -/
theorem command_settles {c : Command} (calls : c.CallsOf ctx.functions)
    (goesOn : ∀ word operand line, c = .control word operand line → word = .sleep) :
    ∃ n : Node, n.CallsOf ctx.functions ∧ n.postDepth = c.postDepth ∧ n.stepLines = c.stepLines ∧
      Settles ctx.functions (n.due ctx.functions) 0 (command c) := by
  cases c with
  | value node => exact ⟨node, calls, rfl, rfl, (node.code_settles _).effect⟩
  | control word operand line =>
    obtain rfl := goesOn _ _ _ rfl
    cases operand with
    | none =>
      refine ⟨.slot (.literal 0) 0, trivial, rfl, rfl, fun ctx' s => ?_⟩
      refine .bind ((controlValue_ends line .sleep none s).mono ?_)
      rintro found _ s₁ ⟨rfl, rfl, -, same, -⟩
      obtain rfl := same nofun
      exact .fail _
    | some node =>
      have sleeps : ∀ o : Operand, Straight (control .sleep (some o.slot) line >>= fun _ =>
          release o.holds) :=
        fun o => .bind (.bind (resolve_straight line _) fun _ => .bind .emit fun _ => .release _)
          fun _ => .release _
      refine ⟨node, calls node rfl, rfl, rfl, fun ctx' s => ?_⟩
      refine .bind ((controlValue_ends line .sleep (some node) s).mono ?_)
      rintro found _ s₁ ⟨rfl, rfl, -, same, -⟩
      obtain rfl := same nofun
      exact (((Node.eval_settles _).settles node).andThen sleeps) ctx' s₁

/-- The code of a phrase, with the steps that it puts off. -/
theorem inner_ends {c : Command} (calls : c.CallsOf ctx.functions) (flat : c.postDepth ≤ 1)
    (goesOn : ∀ word operand line, c = .control word operand line → word = .sleep) {s : State}
    (settled : s.deferred = []) (line : Nat) :
    (do command c; applyDeferred Node.eval 0 line; checkRegisters line : Codegen Unit).Ends ctx s
      fun _ code s' => s'.deferred = [] ∧ ∃ lines, Meets lines code ∧ lines.Perm c.stepLines := by
  obtain ⟨n, calls, sameDepth, sameLines, settles⟩ := command_settles calls goesOn
  have queued := n.due_queued ctx.functions
  have flat : (n.due ctx.functions).flat := show n.postDepth ≤ 1 from sameDepth ▸ flat
  refine .bind ((settles ctx s).mono ?_)
  rintro _ code s₁ paid
  have flushed := applyDeferred_flushes (Node.eval_settles ctx.functions) line queued paid
  rw [settled] at flushed
  refine .bind (flushed.mono ?_)
  rintro _ code' s₂ paid
  refine (((checkRegisters_straight line).accounted ctx s₂).mono ?_)
  rintro _ code'' s₃ ⟨plain, same⟩
  obtain ⟨accounted, holds⟩ := paid.plain plain same
  obtain ⟨lines, comesBy, -, counted⟩ := holds calls
  have nothing := queued.left_eq_nil flat
  refine ⟨by rw [accounted.deferred, settled, nothing, List.append_nil], lines, by simpa using comesBy, ?_⟩
  have counted := counted flat
  rw [nothing, pendingLines_nil, List.append_nil] at counted
  exact sameLines ▸ counted

/-- A phrase that leaves its code at once puts no step off. -/
theorem inner_ends_leaving {word : Control} {line line' : Nat}
    (leaves : word ≠ .return_ ∧ word ≠ .sleep) {s : State} (settled : s.deferred = []) :
    (do command (.control word none line'); applyDeferred Node.eval 0 line; checkRegisters line :
      Codegen Unit).Ends ctx s fun _ _ s' => s'.deferred = [] := by
  have leavesLoop : ∀ ending s, (leaveLoop word ending line').Ends ctx s fun _ _ s' =>
      s'.deferred = s.deferred := by
    intro ending s
    refine .bind (.of rfl ?_)
    split
    · exact .emit rfl
    · exact .fail _
  have controls : ∀ s, (control word none line').Ends ctx s fun _ _ s' =>
      s'.deferred = s.deferred := by
    intro s
    cases word with
    | return_ => exact absurd rfl leaves.1
    | sleep => exact absurd rfl leaves.2
    | break_ => exact leavesLoop _ s
    | continue_ => exact leavesLoop _ s
    | exit => exact .emit rfl
    | halt => exact .emit rfl
  refine .bind (.bind ((controlValue_ends line' word none s).mono ?_))
  rintro found _ s₁ ⟨-, rfl, -, same, -⟩
  obtain rfl := same leaves.1
  refine (controls s₁).mono fun _ _ s₂ same₂ => ?_
  have settled₂ : s₂.deferred = [] := same₂.trans settled
  refine .bind (.bind (.of rfl ?_))
  rw [settled₂]
  refine .pure ((checkRegisters_ends line).mono ?_)
  rintro _ _ _ ⟨rfl, -⟩
  rfl

/-- A phrase other than `return` comes by the lines of its steps, unless it has none. -/
theorem phrase_ends_settled {tokens : List Token} {line : Nat} {isConst : Bool} {c : Command}
    {s : State} (isPhrase : (ctx.names s.table).phrase tokens line = .ok (some c))
    (notReturn : ∀ operand line, c ≠ .control .return_ operand line) (flat : c.postDepth ≤ 1)
    (settled : s.deferred = []) :
    (phrase tokens isConst line).Ends ctx s fun _ code s' => s'.deferred = [] ∧
      (c.stepLines = [] ∨ ∃ lines, Meets lines code ∧ lines.Perm c.stepLines) := by
  have calls := Names.phrase_callsOf tokens line _ isPhrase c rfl
  have inner : ∀ s₁ : State, s₁.deferred = [] →
      (do command c; applyDeferred Node.eval 0 c.line; checkRegisters c.line : Codegen Unit).Ends ctx s₁
        fun _ code s' => s'.deferred = [] ∧
          (c.stepLines = [] ∨ ∃ lines, Meets lines code ∧ lines.Perm c.stepLines) := by
    intro s₁ settled₁
    by_cases goesOn : ∀ word operand line, c = .control word operand line → word = .sleep
    · refine (inner_ends calls flat goesOn settled₁ c.line).mono ?_
      rintro _ code s' ⟨none, comesBy⟩
      exact ⟨none, .inr comesBy⟩
    · cases c with
      | value node => exact absurd nofun goesOn
      | control word operand line' =>
        have notReturn' : word ≠ .return_ := by
          rintro rfl
          exact notReturn _ _ rfl
        have notSleep : word ≠ .sleep := by
          rintro rfl
          refine goesOn ?_
          rintro _ _ _ ⟨⟩
          rfl
        obtain rfl : operand = none := by
          rcases Names.phrase_control _ tokens line _ isPhrase word operand line' rfl with
            isNone | isReturn | isSleep
          · exact isNone
          · exact absurd isReturn notReturn'
          · exact absurd isSleep notSleep
        refine (inner_ends_leaving ⟨notReturn', notSleep⟩ settled₁).mono ?_
        exact fun _ _ _ none => ⟨none, .inl rfl⟩
  refine .bind (.of rfl (.bind (.ofOutcome fun found isFound => ?_)))
  obtain rfl : some c = found := Except.ok.inj (isPhrase.symm.trans isFound)
  refine .bind ((comment_ends_plain _ s).mono ?_)
  rintro _ lead s₁ ⟨plain, same⟩
  refine .bind (.capture ((inner s₁ (same.trans settled)).mono ?_))
  rintro _ code s₂ ⟨none, comesBy⟩
  dsimp only
  split
  · -- what is fixed at the start has no steps in it
    refine .bind (.of rfl (.bind (.modifyState (.bind (.ofOutcome fun directives frozen => ?_)))))
    refine .emitAll ⟨none, .inl ?_⟩
    rcases comesBy with isNil | ⟨lines, comesBy, same⟩
    · exact isNil
    · refine List.eq_nil_iff_forall_not_mem.2 fun i mem => ?_
      obtain ⟨t', load, loads⟩ := (SlotTable.freeze_sets frozen).1 i (comesBy.subset (same.mem_iff.2 mem))
      obtain ⟨x, rfl | rfl⟩ := c.stepLines_inPlace i mem <;> cases loads
  · refine .emitAll ⟨none, comesBy.imp_right ?_⟩
    rintro ⟨lines, comesBy, same⟩
    refine ⟨lines, ?_, same⟩
    have whole := (Meets.part (.of_plain plain)).append comesBy
    simpa using whole

/-- The code of a phrase other than `return`, in which no step stands in the target of another, has one
line for each step after the use of a variable that is evaluated in any case. Every way out of the code
comes by each of these lines once, and no step is left for later. -/
theorem phrase_steps_once {tokens : List Token} {line : Nat} {isConst : Bool} {c : Command}
    {s s' : State} {code : List Instr}
    (isPhrase : (ctx.names s.table).phrase tokens line = .ok (some c))
    (notReturn : ∀ operand line, c ≠ .control .return_ operand line) (flat : c.postDepth ≤ 1)
    (valid : s.Valid) (settled : s.deferred = [])
    (done : phrase tokens isConst line ctx s = .done () code s')
    (distinct : LabelId.Distinct ctx.settings ctx.randomId s'.labels) :
    s'.deferred = [] ∧ ∃ places : List Nat,
      (places.map (code[·]?)).Perm (c.stepLines.map some) ∧ places.Nodup ∧
      ∀ visited q, Path code 0 visited q → LeavesAt code q → ∀ k ∈ places, visited.count k = 1 := by
  have nodup := (phrase_tame line tokens isConst ctx s valid _ _ _ done).numbered.nodup distinct
  obtain ⟨none, comesBy⟩ := phrase_ends_settled isPhrase notReturn flat settled _ _ _ done
  refine ⟨none, ?_⟩
  rcases comesBy with isNil | ⟨lines, comesBy, same⟩
  · exact ⟨[], by simp [isNil], by simp, by simp⟩
  · obtain ⟨places, atPlaces, nodupPlaces, once⟩ := comesBy.once nodup
    exact ⟨places, atPlaces ▸ same.map some, nodupPlaces, once⟩

end Codegen

namespace Sample

def counters : String := "long x, y, z; void main(void) \x7b \x7d"

/-- One step is put off to the end, and one is done before the jump of the comparison. -/
def counting : String := "y = x++ + (z-- < 3)"

/-- Phrases of the main function are compiled with these settings and names. -/
abbrev inMain (c : Contract) : Codegen.Context :=
  ⟨c.settings, c.layout.functions, LabelId.scrambled 0, some "main", none, false⟩

/-- The phrase is compiled in the main function, and `post` holds of what it is and of its code. -/
def Compiles (c : Contract) (text : String) (post : Command → List Instr → Codegen.State → Prop) : Prop :=
  (tokenize text).Succeeds fun tokens =>
    (((inMain c).names (Codegen.State.ofLayout c.layout).table).phrase tokens 1).Succeeds fun found =>
      ∃ command ∈ found, (Codegen.phrase tokens false 1).Succeeds (inMain c) (.ofLayout c.layout)
        fun _ => post command

instance (c : Contract) (text : String) (post : Command → List Instr → Codegen.State → Prop)
    [∀ command code s, Decidable (post command code s)] : Decidable (Compiles c text post) :=
  inferInstanceAs (Decidable (Outcome.Succeeds _ _))

def isValue : Command → Bool
  | .value _ => true
  | .control _ _ _ => false

/-- The phrase puts off one step up and one step down. -/
theorem counting_steps : (Contract.read counters settings).Succeeds fun c =>
    Compiles c counting fun command _ s => isValue command = true ∧
      command.stepLines = [.increment "x", .decrement "z"] ∧ command.postDepth ≤ 1 ∧
      (Codegen.State.ofLayout c.layout).Valid ∧ s.labels < LabelId.count := by
  decide +kernel

end Sample

/-- Both variables are stepped once, whether the comparison holds or not. -/
theorem Codegen.phrase_steps_once_counting : ∃ (c : Contract) (tokens : List Token)
    (code : List Instr) (s' : Codegen.State),
    Contract.read Sample.counters Sample.settings = .ok c ∧ tokenize Sample.counting = .ok tokens ∧
    Codegen.phrase tokens false 1
      ⟨c.settings, c.layout.functions, LabelId.scrambled 0, some "main", none, false⟩
      (.ofLayout c.layout) = .done () code s' ∧
    s'.deferred = [] ∧ ∃ places : List Nat,
      (places.map (code[·]?)).Perm [some (.increment "x"), some (.decrement "z")] ∧ places.Nodup ∧
      ∀ visited q, Path code 0 visited q → LeavesAt code q → ∀ k ∈ places, visited.count k = 1 := by
  obtain ⟨c, isContract, tokens, isTokens, _, isPhrase, command, rfl, _, code, s', done, isValue, steps, flat,
    valid, few⟩ := Sample.counting_steps
  have notReturn : ∀ operand line, command ≠ .control .return_ operand line := by
    rintro operand line rfl
    cases isValue
  obtain ⟨settled, places, atPlaces, nodup, once⟩ := Codegen.phrase_steps_once isPhrase notReturn flat valid
    rfl done (LabelId.scrambled_distinct c.settings 0 few)
  refine ⟨c, tokens, code, s', isContract, isTokens, done, settled, places, ?_, nodup, once⟩
  rw [steps] at atPlaces
  exact atPlaces

end ContractCompiler
