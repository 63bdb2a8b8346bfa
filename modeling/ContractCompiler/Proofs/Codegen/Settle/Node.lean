import ContractCompiler.Proofs.Codegen.Settle

/-!
# Proofs.Codegen.Settle.Node — every expression does what is due

The operators one by one, and then all expressions by induction: the code of an expression calls and
puts off what its rounds say, keeps the height of the stack and comes by the lines of its steps
(`Node.code_settles`).
-/

namespace ContractCompiler

set_option autoImplicit false

/-- Two ways from one jump to the same end. -/
theorem Rises.diamond {calls : Calls} {test yes no : List Instr} {otherwise : String} (done : String)
    (testRises : Rises calls [otherwise] 0 test) (yesRises : Rises calls [] 0 yes)
    (noRises : Rises calls [] 0 no) :
    Rises calls [] 0 (test ++ (yes ++ (.jump done :: .label otherwise :: (no ++ [.label done])))) := by
  have jump : Rises calls [otherwise, done] 0 [.jump done] := .jump rfl (by simp)
  have front : Rises calls [otherwise, done] 0 (test ++ (yes ++ [.jump done])) :=
    .append (testRises.widen (by simp)) (.append yesRises.ofNone jump)
  have back : Rises calls [otherwise, done] 0 (.label otherwise :: (no ++ [.label done])) :=
    .append (.label otherwise) (.append noRises.ofNone (.label done))
  have left : Rises calls [done] 0
      ((test ++ (yes ++ [.jump done])) ++ .label otherwise :: (no ++ [.label done])) :=
    .close front (front.append back)
  have middle : Rises calls [otherwise, done] 0
      ((test ++ (yes ++ [.jump done])) ++ (.label otherwise :: no)) :=
    front.append (.append (.label otherwise) noRises.ofNone)
  have closed : Rises calls [] 0
      (((test ++ (yes ++ [.jump done])) ++ (.label otherwise :: no)) ++ .label done :: []) := by
    refine .close middle ?_
    simpa using left
  simpa using closed


namespace Codegen

variable {functions : List Signature}

/-! ## Connectives -/

section Connectives

variable {p q : Due}

theorem Decides.does {target : String} {m : Codegen Unit} (decides : Decides functions p target m) :
    Does p.account m :=
  fun ctx s => (decides ctx s).mono fun _ _ _ holds => holds.1

/-- The same lines are due, if more is known. -/
theorem Decides.of {target : String} {m : Codegen Unit} (decides : Decides functions p target m)
    (known : q.known → p.known) (flat : q.flat → p.flat) (account : p.account = q.account := by rfl)
    (steps : p.steps = q.steps := by rfl) : Decides functions q target m := by
  intro ctx s
  refine (decides ctx s).mono ?_
  rintro _ code s' ⟨accounted, holds⟩
  refine ⟨account ▸ accounted, fun isKnown => ?_⟩
  obtain ⟨first, second, settled, same, comesBy, rises, rises', counted⟩ := holds (known isKnown)
  exact ⟨first, second, settled, same, comesBy, rises, rises', fun isFlat => steps ▸ counted (flat isFlat)⟩

theorem Decides.labelId {target : String} {line : Nat} {f : String → Codegen Unit}
    (rest : ∀ id, Decides functions p target (f id)) :
    Decides functions p target (Codegen.labelId line >>= f) :=
  fun ctx s => .bind (.of rfl ((rest _ ctx { s with labels := s.labels + 1 }).mono
    fun _ _ _ ⟨accounted, holds⟩ => ⟨⟨accounted.calls, accounted.deferred, accounted.none⟩, holds⟩))

/-- Two jumps to one label. -/
theorem Decides.seq {target : String} {left right : Codegen Unit}
    (leftDecides : Decides functions p target left) (rightDecides : Decides functions q target right) :
    Decides functions (p.before q) target (left >>= fun _ => right) := by
  intro ctx s
  refine .bind ((leftDecides ctx s).mono ?_)
  rintro _ _ s₁ ⟨accounted, holds⟩
  refine (rightDecides ctx s₁).mono ?_
  rintro _ _ s₂ ⟨accounted', holds'⟩
  refine ⟨accounted.append accounted', fun known => ?_⟩
  obtain ⟨first, second, settled, rfl, comesBy, rises, rises', counted⟩ := holds known.1
  obtain ⟨first', second', _, rfl, -, risesRight, risesRight', -⟩ := holds' known.2
  exact ⟨first, second ++ (first' ++ second'), settled, by simp, comesBy, rises,
    rises'.append (risesRight.ofNone.append risesRight'), fun flat => counted flat.1⟩

/-- A jump past another one. -/
theorem Decides.past {target next : String} {left right : Codegen Unit}
    (leftDecides : Decides functions p next left) (rightDecides : Decides functions q target right) :
    Decides functions (p.before q) target
      (left >>= fun _ => right >>= fun _ => emit (.label next)) := by
  intro ctx s
  refine .bind ((leftDecides ctx s).mono ?_)
  rintro _ _ s₁ ⟨accounted, holds⟩
  refine .bind ((rightDecides ctx s₁).mono ?_)
  rintro _ _ s₂ ⟨accounted', holds'⟩
  refine .emit ⟨accounted.append (accounted'.quiet rfl rfl), fun known => ?_⟩
  obtain ⟨first, second, settled, rfl, comesBy, rises, rises', counted⟩ := holds known.1
  obtain ⟨first', second', _, rfl, -, risesRight, risesRight', -⟩ := holds' known.2
  refine ⟨first, second ++ (first' ++ second') ++ [.label next], settled, by simp, comesBy, rises, ?_,
    fun flat => counted flat.1⟩
  have before : Rises (Signature.calls functions) [next, target] 0 (second ++ (first' ++ second')) :=
    .append (rises'.widen (by simp)) (.append risesRight.ofNone (risesRight'.widen (by simp)))
  exact .close before (before.append (.label next))

variable {left right : String → Bool → Codegen Unit} (line : Nat)
  (leftDecides : ∀ target when, Decides functions p target (left target when))
include leftDecides

theorem jumpOnBoth_decides (rightDecides : ∀ target when, Decides functions q target (right target when))
    (target : String) (when : Bool) :
    Decides functions (p.before q) target (jumpOnBoth left right line target when) := by
  unfold jumpOnBoth
  split
  · exact .labelId fun _ => .past (leftDecides _ _) (rightDecides _ _)
  · exact .seq (leftDecides _ _) (rightDecides _ _)

theorem jumpOnEither_decides (rightDecides : ∀ target when, Decides functions q target (right target when))
    (target : String) (when : Bool) :
    Decides functions (p.before q) target (jumpOnEither left right line target when) := by
  unfold jumpOnEither
  split
  · exact .seq (leftDecides _ _) (rightDecides _ _)
  · exact .labelId fun _ => .past (leftDecides _ _) (rightDecides _ _)

theorem truth_settles (nothing : p.flat → p.account.left = []) :
    Settles functions p 0 (truth left line) := by
  refine .labelId fun id ctx s => ?_
  refine .bind ((leftDecides _ _ ctx s).mono ?_)
  rintro _ _ s₁ ⟨accounted, holds⟩
  have set : ∀ r : Slot, Straight (assign r (.literal 1) line) := fun r => assign_straight line _ _
  refine .bind (((Straight.allocate line).accounted ctx s₁).mono ?_)
  rintro r lines s₂ ⟨plain, accounted₁⟩
  refine .bind (((set r).accounted ctx s₂).mono ?_)
  rintro _ lines' s₃ ⟨plain', accounted₂⟩
  refine .bind (.emit (.bind (.emit (.bind (.emit (.bind (.emit (.pure ⟨?_, fun known => ?_⟩))))))))
  · have quiet := (accounted₁.append accounted₂).calls
    refine accounted.quiet (by simpa [Instr.callees, Instr.callee?] using quiet) ?_
    rw [accounted₂.deferred, accounted₁.deferred]
    simp
  · obtain ⟨first, second, settled, rfl, comesBy, rises, rises', counted⟩ := holds known
    have plains : ∀ i ∈ lines ++ lines', i.isPlain = true :=
      fun i mem => (List.mem_append.1 mem).elim (plain i) (plain' i)
    have isFalse : Rises (Signature.calls functions) [] 0 [.clear r.asmName] :=
      .of_plain (by simp [Instr.isPlain])
    have diamond := rises'.diamond ("__CMP" ++ id ++ "_end") (.of_plain plains) isFalse
    have front : Settled functions p 0 settled first :=
      ⟨comesBy, rises, fun flat => by simpa [nothing flat] using counted flat⟩
    exact ⟨settled, by simpa using front.before diamond⟩

end Connectives

/-! ## Operators -/

section Values

variable {p q : Due} (line : Nat) {operand : Codegen Operand} (settles : Settles functions p 0 operand)
include settles

theorem binaryValue_settles {op : BinaryOp} {right : Codegen Operand}
    (rightSettles : Settles functions q 0 right) (dest : Option Slot) :
    Settles functions (p ++ q) 0 (binaryValue op operand right dest line) := by
  have finish : ∀ p : Operand × Operand, Straight (operate op p.1.slot p.2.slot line >>= fun _ =>
      release p.2.holds >>= fun _ => Codegen.pure p.1) :=
    fun p => .bind (operate_straight line _ _ _) fun _ => .bind (.release _) fun _ => .pure _
  refine settles.both fun l => rightSettles.andThen fun r => ?_
  dsimp only
  split
  · exact .bind (.pure _) finish
  · split
    · exact .bind (.pure _) finish
    · split
      · exact .bind (assign_straight line _ _) fun _ => .bind (.release _) fun _ =>
          .bind (.pure _) finish
      · exact .bind (toTemp_straight line _) fun _ => .bind (.pure _) finish

theorem negateValue_settles : Settles functions p 0 (negateValue operand line) :=
  settles.andThen fun _ => .bind (direct_straight line _) fun _ => .bind (.allocate line) fun _ =>
    .bind .emit fun _ => .bind (operate_straight line _ _ _) fun _ => .bind (.release _) fun _ => .pure _

theorem complementValue_settles : Settles functions p 0 (complementValue operand line) :=
  settles.andThen fun _ => .bind (toTemp_straight line _) fun _ =>
    .bind (update_straight line _ _) fun _ => .pure _

theorem preStepValue_settles (step : Step) : Settles functions p 0 (preStepValue step operand line) :=
  settles.andThen fun _ => .bind (update_straight line _ _) fun _ => .pure _

/-- A step after the use is put off before the operand is evaluated, and refused in a condition. -/
theorem postStepValue_settles (step : Step) (target : Node) :
    Settles functions ⟨p.known, p.flat, ⟨[], [(step, target)]⟩ ++ p.account,
      (Node.stepLine? step target).toList ++ p.steps⟩ 0 (postStepValue step target operand line) := by
  intro ctx s
  refine .bind (.of rfl ?_)
  split
  · exact .fail _
  · rename_i outside
    refine .bind (.of rfl ((settles ctx _).mono ?_))
    rintro _ code s' ⟨accounted, holds⟩
    refine ⟨⟨by simp [accounted.calls], by simp [accounted.deferred], fun inside => absurd inside outside⟩,
      fun known => ?_⟩
    obtain ⟨settled, comesBy, rises, counted⟩ := holds known
    refine ⟨settled, comesBy, rises, fun flat => ?_⟩
    show (settled ++ pendingLines ([(step, target)] ++ p.account.left)).Perm _
    rw [pendingLines_append, pendingLines_singleton]
    exact (List.perm_append_comm_assoc ..).trans ((counted flat).append_left _)

theorem derefValue_settles (type : ValueType) : Settles functions p 0 (derefValue operand type line) :=
  settles.andThen fun _ => .bind (direct_straight line _) fun _ => .pure _

theorem lookupValue_settles {index : Codegen Operand} {fixed : Option Word}
    (indexSettles : Settles functions q 0 index)
    (literal : fixed.isSome → q.account = .nothing ∧ q.steps = []) (type : ValueType) :
    Settles functions (p ++ q) 0 (lookupValue operand fixed index type line) := by
  cases fixed with
  | some distance =>
    obtain ⟨nothing, noSteps⟩ := literal rfl
    have value : Settles functions p 0 (lookupValue operand (some distance) index type line) :=
      settles.andThen fun _ => .bind (direct_straight line _) fun _ => .pure _
    refine value.of And.left And.left ?_ fun _ => ?_
    · show p.account = p.account ++ q.account
      rw [nothing, Account.append_nothing]
    · show p.steps.Perm (p.steps ++ q.steps)
      rw [noSteps, List.append_nil]
  | none =>
    refine settles.both fun b => .after (direct_straight line _) fun _ => ?_
    exact indexSettles.andThen fun _ => .bind (direct_straight line _) fun _ => .pure _

theorem assignValue_settles {value : Option Slot → Codegen Operand}
    (valueSettles : ∀ dest, Settles functions q 0 (value dest)) (right : Option Node) (hasCall : Bool) :
    Settles functions (p ++ q) 0 (assignValue operand value right hasCall line) := by
  have finish : ∀ (t : Operand) (early : Bool), Settles functions q 0
      (value (if early then some t.slot else none) >>= fun v => assign t.slot v.slot line >>= fun _ =>
        release v.holds >>= fun _ => Codegen.pure t) :=
    fun t early => (valueSettles _).andThen fun _ => .bind (assign_straight line _ _) fun _ =>
      .bind (.release _) fun _ => .pure _
  refine settles.both fun t => ?_
  dsimp only
  split
  · refine .after (.bind .context fun _ => .bind .state fun _ => .pure _) fun _ => ?_
    exact .after (.pure _) (finish t)
  · exact .after (.pure _) (finish t)

theorem operateValue_settles {value : Codegen Operand} (valueSettles : Settles functions q 0 value)
    (op : BinaryOp) : Settles functions (p ++ q) 0 (operateValue op operand value line) :=
  settles.both fun _ => valueSettles.andThen fun _ => .bind (operate_straight line _ _ _) fun _ =>
    .bind (.release _) fun _ => .pure _

end Values

/-! ## Conditional values -/

section Ternary

variable {eval : Node → Codegen Operand} (evalSettles : EvalSettles functions eval) (line : Nat)
include evalSettles

/-- A branch of a conditional does its own steps. -/
theorem ternaryArm_settles {p : Due} {value : Codegen Operand} (settles : Settles functions p 0 value)
    (queued : p.Queued functions) (result : Slot) :
    Settles functions p.settle 0 (ternaryArm eval value result line) := by
  intro ctx s
  refine .bind (.of rfl ?_)
  refine .bind ((settles ctx s).mono ?_)
  rintro v code s₁ paid
  refine .bind (((assign_straight line result v.slot).accounted ctx s₁).mono ?_)
  rintro _ lines s₂ ⟨plain, same⟩
  have front : p.Paid functions 0 ctx s (code ++ lines) (s₂.release v.holds) :=
    paid.plain plain ⟨same.calls, same.deferred, same.none⟩
  refine .bind (.release ((applyDeferred_flushes evalSettles line queued front).mono ?_))
  rintro _ code' s₃ flushed
  simpa using flushed

theorem ternaryValue_settles {p q r : Due} {condition : String → Bool → Codegen Unit}
    {yes no : Codegen Operand} (nothing : p.flat → p.account.left = [])
    (decides : ∀ target when, Decides functions p target (condition target when))
    (yesSettles : Settles functions q 0 yes) (yesQueued : q.Queued functions)
    (noSettles : Settles functions r 0 no) (noQueued : r.Queued functions) :
    Settles functions (p.before (q.settle ++ r.settle)) 0 (ternaryValue eval condition yes no line) := by
  refine .labelId fun id ctx s => ?_
  refine .bind ((decides _ _ ctx s).mono ?_)
  rintro _ _ s₁ ⟨accounted, holds⟩
  refine .bind (((Straight.allocate line).accounted ctx s₁).mono ?_)
  rintro result lines s₂ ⟨plain, accounted₁⟩
  refine .bind ((ternaryArm_settles evalSettles line yesSettles yesQueued result ctx s₂).mono ?_)
  rintro _ codeYes s₃ ⟨accounted₂, holdsYes⟩
  refine .bind (.emit (.bind (.emit ?_)))
  refine .bind ((ternaryArm_settles evalSettles line noSettles noQueued result ctx s₃).mono ?_)
  rintro _ codeNo s₄ ⟨accounted₃, holdsNo⟩
  refine .bind (.emit (.pure ⟨?_, fun known => ?_⟩))
  · have jumps : Accounted .nothing ctx s₃ [.jump ("__TER" ++ id ++ "_end"), .label ("__TER" ++ id ++ "_else")] s₃ :=
      .of_same rfl rfl
    have ends : Accounted .nothing ctx s₄ [.label ("__TER" ++ id ++ "_end")] s₄ := .of_same rfl rfl
    show Accounted (p.account ++ (q.settle.account ++ r.settle.account)) ..
    have whole := accounted.append (accounted₁.append (accounted₂.append
      (jumps.append (accounted₃.append ends))))
    simpa using whole
  · obtain ⟨first, second, settled, rfl, comesBy, rises, rises', counted⟩ := holds known.1
    obtain ⟨_, holdsYes⟩ := holdsYes known.2.1
    obtain ⟨_, holdsNo⟩ := holdsNo known.2.2
    have diamond := rises'.diamond ("__TER" ++ id ++ "_end")
      (.append (.of_plain plain) holdsYes.rises) holdsNo.rises
    have front : Settled functions (p.before (q.settle ++ r.settle)) 0 settled first := by
      refine ⟨comesBy, rises, fun flat => ?_⟩
      show (settled ++ pendingLines (p.account.left ++ (q.settle.account.left ++
        r.settle.account.left))).Perm p.steps
      rw [nothing flat.1, yesQueued.left_eq_nil flat.2.1, noQueued.left_eq_nil flat.2.2]
      simpa using counted flat.1
    exact ⟨settled, by simpa using front.before diamond⟩

end Ternary

/-! ## Calls -/

section Calls

/-- Arguments of a call that do what is due. -/
abbrev ArgsSettle (functions : List Signature) : List Node → List (Codegen Operand) → Prop :=
  List.Forall₂ fun n arg => Settles functions (n.due functions) 0 arg

/-- What is due of arguments, in an order of their evaluation. -/
def Due.ofArgs (functions : List Signature) (args : List Node) (rounds : List Rounds) : Due :=
  ⟨Node.AllCallsOf functions args, Node.maxPostDepth args ≤ 1, Rounds.join rounds 0, Node.allStepLines args⟩

/-- A call comes last. -/
def Due.calling (p : Due) (callee : Callee) : Due := { p with account := p.account ++ ⟨[callee], []⟩ }

variable (line : Nat) {nodes : List Node} {args : List (Codegen Operand)}

theorem push_settles (slot : Slot) : Settles functions .nothing 1 (push slot line) := by
  intro ctx s
  refine .bind (((resolve_straight line slot).accounted ctx s).mono ?_)
  rintro found lines s₁ ⟨plain, accounted⟩
  refine .bind (.emit (.release ⟨accounted.quiet rfl rfl, fun _ => ?_⟩))
  have pushes : Rises (Signature.calls functions) [] 1 [.push found.slot.asmName] :=
    ⟨.of_forall (by simp [Instr.stops, Instr.target?]), fun result h above => .push _ above⟩
  have rises : Rises (Signature.calls functions) [] 1 (lines ++ [.push found.slot.asmName]) :=
    .append (.of_plain plain) pushes
  exact ⟨[], .part rises.closed, rises, fun _ => .refl _⟩

/-- The last argument is evaluated first. -/
theorem pushArgs_settles (argsSettle : ArgsSettle functions nodes args) :
    Settles functions (.ofArgs functions nodes (Node.allRounds nodes).reverse) args.length
      (pushArgs line args) := by
  induction argsSettle with
  | nil => exact (Settles.of_straight (.pure _)).of (fun _ => trivial) fun _ => trivial
  | @cons n arg nodes rest first _ ih =>
    have one : Settles functions (n.due functions ++ .nothing) (0 + 1)
        (arg >>= fun o => push o.slot line >>= fun _ => release o.holds) :=
      first.bind fun o => (push_settles line o.slot).andThen fun _ => .release _
    have both := ih.bind fun _ => one
    rw [Nat.zero_add] at both
    refine both.of (fun known => ⟨known.2, known.1, trivial⟩) (fun flat => ?_) ?_ fun _ => ?_
    · obtain ⟨flat, flatRest⟩ := Nat.max_le.1 flat
      exact ⟨flatRest, flat, trivial⟩
    · show _ = Rounds.join (n.rounds :: Node.allRounds nodes).reverse 0
      rw [List.reverse_cons, Rounds.join_append]
      rfl
    · rw [Due.append_nothing]
      exact List.perm_append_comm

theorem directAll_settles (argsSettle : ArgsSettle functions nodes args) :
    Settles functions (.ofArgs functions nodes (Node.allRounds nodes)) 0 (directAll line args) := by
  induction argsSettle with
  | nil => exact (Settles.of_straight (.pure _)).of (fun _ => trivial) fun _ => trivial
  | cons first _ ih =>
    have both : Settles functions (_ ++ _) 0 (directAll line (_ :: _)) :=
      first.both fun _ => .after (direct_straight line _) fun _ => ih.andThen fun _ => .pure _
    exact both.of id Nat.max_le.1

variable {p : Due}

section

variable (settles : Settles functions p args.length (pushArgs line args)) {function : String}
  {returns : ValueType} (called : p.known → ∃ f, Signature.find? functions function = some f ∧
    f.params.length = args.length ∧ f.returns = returns)
include settles called

/-- A call finds its arguments on the stack, and behind it the stack is as before the arguments. -/
theorem callFunction_settles :
    Settles functions (p.calling (.function (functionLabel function))) 0
      (callFunction function args returns line) := by
  intro ctx s
  refine .bind (.of rfl (.bind (.emitAll ?_)))
  refine .bind ((settles ctx s).mono ?_)
  rintro _ code s₁ ⟨accounted, holds⟩
  refine .bind (.emit ?_)
  -- what is left of the stack once the call has come back
  have whole : ∀ (back : List Instr) (gives : Nat) (s₂ : State), Instr.callees back = [] →
      (∀ i ∈ back, i.stops = false ∧ i.target? = none) → s₂.deferred = s₁.deferred →
      gives = (if returns = .void then 0 else 1) →
      (∀ (result h : Int), 0 ≤ h → Level (Signature.calls functions) result noExit (h + gives) back h) →
      (p.calling (.function (functionLabel function))).Paid functions 0 ctx s (s.pool.live.map .push ++
        (code ++ (.call (functionLabel function) :: (back ++ s.pool.live.reverse.map .pop)))) s₂ := by
    intro back gives s₂ quiet inside same isGiven level
    refine ⟨⟨?_, ?_, fun inCondition => ?_⟩, fun known => ?_⟩
    · have pushes : Instr.callees (s.pool.live.map .push) = [] := List.filterMap_eq_nil_iff.2 (by simp [Instr.callee?])
      have pops : Instr.callees (s.pool.live.reverse.map .pop) = [] :=
        List.filterMap_eq_nil_iff.2 (by simp [Instr.callee?])
      have call : ∀ rest, Instr.callees (.call (functionLabel function) :: rest) =
          .function (functionLabel function) :: Instr.callees rest := fun _ => rfl
      simp only [Instr.callees_append, call, pushes, pops, quiet, accounted.calls]
      simp [Due.calling]
    · simp [same, accounted.deferred, Due.calling]
    · simp [accounted.none inCondition, Due.calling]
    obtain ⟨f, found, count, sameReturns⟩ := called known
    obtain ⟨settled, holds⟩ := holds known
    have called := Signature.calls_functionLabel found
    rw [count] at called
    have pushes : Closed [] (s.pool.live.map Instr.push) :=
      .of_forall (by simp [Instr.stops, Instr.target?])
    have rest : Closed [] (.call (functionLabel function) ::
        (back ++ s.pool.live.reverse.map Instr.pop)) := by
      refine .of_forall (List.forall_mem_cons.2 ⟨⟨rfl, rfl⟩, fun i mem => ?_⟩)
      rcases List.mem_append.1 mem with mem | mem
      · exact inside i mem
      · obtain ⟨r, -, rfl⟩ := List.mem_map.1 mem
        exact ⟨rfl, rfl⟩
    refine ⟨settled, ?_, ⟨?_, fun result h above => ?_⟩, fun flat => ?_⟩
    · simpa using (Meets.part pushes).append (holds.comesBy.append (.part rest))
    · exact pushes.append (holds.rises.closed.append rest)
    · have saves : Level (Signature.calls functions) result (exitsAt [] h) h
          (s.pool.live.map Instr.push) (h + s.pool.live.length) := .pushes _ above
      have argsLevel := holds.rises.levelWith (exitsAt [] h) result
        (show 0 ≤ h + s.pool.live.length by omega)
      have callLevel : Level (Signature.calls functions) result (exitsAt [] h)
          (h + s.pool.live.length + args.length) [.call (functionLabel function)]
          (h + s.pool.live.length + gives) := by
        have single : Level (Signature.calls functions) result (exitsAt [] h)
            (h + s.pool.live.length + args.length) [.call (functionLabel function)] _ :=
          .single rfl (by simp) (by simp only [Instr.takes, called]; omega)
        have grows : h + s.pool.live.length + args.length +
            (Instr.call (functionLabel function)).growth (Signature.calls functions) =
            h + s.pool.live.length + gives := by
          simp only [Instr.growth, Instr.gives, Instr.takes, called, isGiven, Signature.returnsValue, sameReturns]
          by_cases isVoid : returns = .void <;> simp [isVoid]
        rwa [grows] at single
      have backLevel : Level (Signature.calls functions) result (exitsAt [] h) _ back
          (h + s.pool.live.length) := (level result (h + s.pool.live.length) (by omega)).ofNoExit
      have restores : Level (Signature.calls functions) result (exitsAt [] h)
          (h + s.pool.live.length) (s.pool.live.reverse.map Instr.pop) h := by
        simpa using Level.pops s.pool.live.reverse above
      simpa using saves.append (argsLevel.append (callLevel.append (backLevel.append restores)))
    · simpa [Due.calling] using holds.counted flat
  dsimp only
  split
  · rename_i isVoid
    refine .bind (.pure (.bind (.emitAll (.pure ?_))))
    simpa using whole [] 0 s₁ rfl (by simp) rfl (by simp [isVoid]) fun result h above => by
      simpa using Level.nil noExit h
  · rename_i notVoid
    refine .bind (((Straight.allocate line).accounted ctx s₁).mono ?_)
    rintro r lines s₂ ⟨plain, accounted'⟩
    refine .bind (.emit (.bind (.pure (.bind (.emitAll (.pure ?_))))))
    have holds' := whole (lines ++ [.pop r.asmName]) 1 s₂ (by simp [accounted'.calls]; rfl) ?_
      (accounted'.deferred.trans (List.append_nil _)) (by simp [notVoid]) ?_
    · simpa using holds'
    · intro i mem
      rcases List.mem_append.1 mem with mem | mem
      · exact ⟨Instr.IsPlain.stops_eq_false (plain i mem), Instr.IsPlain.target?_eq_none (plain i mem)⟩
      · obtain rfl := List.mem_singleton.1 mem
        exact ⟨rfl, rfl⟩
    · intro result h above
      exact (Level.of_plain plain (by omega)).append (.pop _ above)

theorem callValue_settles :
    Settles functions (p.calling (.function (functionLabel function))) 0
      (callValue function args returns line) := by
  refine (callFunction_settles line settles called).andThen fun result => ?_
  split
  · exact .pure _
  · exact .fail _

theorem callEffect_settles :
    Settles functions (p.calling (.function (functionLabel function))) 0
      (callEffect function args returns line) := by
  refine (callFunction_settles line settles called).andThen fun result => ?_
  split
  · exact .release _
  · exact .pure _

end

variable (settles : Settles functions p 0 (directAll line args))
include settles

/-- A host call behind its arguments. -/
theorem host_settles (call : HostCall) {α : Type} {result : List String → Codegen α}
    (rest : ∀ names, Settles functions ⟨True, True, ⟨[.host call.asmName], []⟩, []⟩ 0 (result names)) :
    Settles functions (p.calling (.host call.asmName)) 0 (hostArgs args line >>= result) := by
  have front : Settles functions p 0 (hostArgs args line) :=
    settles.andThen fun _ => .bind (.release _) fun _ => .pure _
  refine (front.both rest).of (fun known => ⟨known, trivial⟩) (fun flat => ⟨flat, trivial⟩) rfl fun _ => ?_
  show (p.steps ++ []).Perm p.steps
  rw [List.append_nil]

omit settles in
theorem emitHost_settles (result : Option String) (operation : String) (names : List String) :
    Settles functions ⟨True, True, ⟨[.host operation], []⟩, []⟩ 0 (emit (.host result operation names)) := by
  intro ctx s
  have plain : ∀ i ∈ [Instr.host result operation names], i.isPlain = true := by simp [Instr.isPlain]
  exact .emit ⟨⟨rfl, by simp, fun _ => rfl⟩, fun _ =>
    ⟨[], .part (.of_plain plain), .of_plain plain, fun _ => .refl _⟩⟩

theorem hostValue_settles (call : HostCall) :
    Settles functions (p.calling (.host call.asmName)) 0 (hostValue call args line) := by
  refine host_settles line settles call fun names => ?_
  split
  · exact .after (.allocate line) fun _ => (emitHost_settles _ _ _).andThen fun _ => .pure _
  · exact .fail _

theorem hostEffect_settles (call : HostCall) :
    Settles functions (p.calling (.host call.asmName)) 0 (hostEffect call args line) :=
  host_settles line settles call fun _ => emitHost_settles _ _ _

end Calls

end Codegen

/-! ## All expressions -/

open Codegen (Settles Decides EvalSettles ArgsSettle Due)

/-- What is due of a jump on a node. -/
def Node.jumpDue (functions : List Signature) (n : Node) : Due :=
  { n.due functions with account := n.rounds.jumped n.isTest 0 }

/-- The three ways to compile a node do what is due. -/
structure Plan.Settles (functions : List Signature) (n : Node) (plan : Plan) : Prop where
  value : ∀ dest, Codegen.Settles functions (n.due functions) 0 (plan.value dest)
  jump : ∀ target when, Decides functions (n.jumpDue functions) target (plan.jump target when)
  effect : Codegen.Settles functions (n.due functions) 0 plan.effect

namespace Plan.Settles

variable {functions : List Signature} {n : Node} {eval : Node → Codegen Operand} {line : Nat}

theorem jump_does {plan : Plan} (settles : plan.Settles functions n) (target : String) (when : Bool) :
    Codegen.Does (n.rounds.jumped n.isTest 0) (plan.jump target when) :=
  (settles.jump target when).does

theorem ofValue (evalSettles : EvalSettles functions eval) (isValue : n.isTest = false)
    {value : Option Slot → Codegen Operand}
    (settles : ∀ dest, Codegen.Settles functions (n.due functions) 0 (value dest)) :
    (Plan.ofValue eval line value).Settles functions n where
  value := settles
  jump target when := by
    rw [Node.jumpDue, isValue, Rounds.jumped, if_neg Bool.false_ne_true, ← n.settle_rounds]
    exact Codegen.jumpOnValue_decides evalSettles line (settles none) (n.due_queued functions) target when
  effect := (settles none).andThen fun _ => .release _

theorem ofJump (isTest : n.isTest = true) {jump : String → Bool → Codegen Unit}
    (decides : ∀ target when, Decides functions (n.due functions) target (jump target when)) :
    (Plan.ofJump line jump).Settles functions n := by
  have same : n.rounds.jumped n.isTest = n.rounds := by rw [isTest, Rounds.jumped, if_pos rfl]
  have truth : Codegen.Settles functions (n.due functions) 0 (Codegen.truth jump line) :=
    Codegen.truth_settles line decides fun flat => by
      have nothing := n.left_jumped_eq_nil flat
      rwa [same] at nothing
  refine ⟨fun _ => truth, fun target when => ?_, truth.andThen fun _ => .release _⟩
  rw [Node.jumpDue, same]
  exact decides target when

theorem ofLiteral (s : Slot) (w : Word) : (Plan.ofLiteral s w).Settles functions (.slot s line) := by
  have pure : ∀ {α : Type} (a : α), Codegen.Settles functions (Node.due functions (.slot s line)) 0
      (Codegen.pure a) := fun a => (Codegen.Settles.of_straight (.pure a)).of (fun _ => trivial) fun _ => trivial
  refine ⟨fun _ => pure _, fun target when => ?_, pure _⟩
  intro ctx s
  have nothing : Rises (Signature.calls functions) [] 0 [] := .nil
  unfold Plan.ofLiteral
  dsimp only
  split
  · exact .emit ⟨.of_same rfl rfl, fun _ =>
      ⟨[], _, [], rfl, .part nothing.closed, nothing, .jump rfl (by simp), fun _ => .refl _⟩⟩
  · exact .pure ⟨.of_same rfl rfl, fun _ => ⟨[], [], [], rfl, .part nothing.closed, nothing, .nil, fun _ => .refl _⟩⟩

end Plan.Settles

namespace Node

variable {functions : List Signature} {eval : Node → Codegen Operand}

theorem literal_due {n : Node} (isLiteral : n.literal?.isSome) :
    (n.due functions).account = .nothing ∧ (n.due functions).steps = [] := by
  cases n with
  | slot _ _ => exact ⟨rfl, rfl⟩
  | _ => cases isLiteral

theorem values_settle {ns : List Node} (settles : ∀ n ∈ ns, (n.plan eval).Settles functions n) :
    ArgsSettle functions ns (values eval ns) := by
  rw [values_eq]
  exact List.forall₂_map_right_iff.2 (List.forall₂_same.2 fun n mem => (settles n mem).value none)

theorem plan_settles (evalSettles : EvalSettles functions eval) (n : Node) :
    (n.plan eval).Settles functions n := by
  induction n with
  | slot s line =>
    rw [plan]
    split
    · exact .ofLiteral _ _
    · exact .ofValue evalSettles rfl fun _ =>
        (Codegen.Settles.of_straight (.pure _)).of (fun _ => trivial) fun _ => trivial
  | deref base type line ih =>
    rw [plan]
    exact .ofValue evalSettles rfl fun _ =>
      Codegen.derefValue_settles line (ih.value none) type
  | lookup base index type line ihBase ihIndex =>
    rw [plan]
    exact .ofValue evalSettles rfl fun _ =>
      (Codegen.lookupValue_settles line (ihBase.value none) (ihIndex.value none) literal_due type).of id Nat.max_le.1
  | assign op target value line targetSettles valueSettles =>
    cases op with
    | none =>
      rw [plan]
      exact .ofValue evalSettles rfl fun _ => (Codegen.assignValue_settles line (targetSettles.value none)
        valueSettles.value _ _).of id Nat.max_le.1
    | some op =>
      rw [plan]
      exact .ofValue evalSettles rfl fun _ => (Codegen.operateValue_settles line (targetSettles.value none)
        (valueSettles.value none) op).of id Nat.max_le.1
  | binary op left right line ihL ihR =>
    rw [plan]
    exact .ofValue evalSettles rfl fun _ =>
      (Codegen.binaryValue_settles line (ihL.value none) (ihR.value none) _).of id Nat.max_le.1
  | unary op operand line ih =>
    cases op with
    | negate =>
      rw [plan]
      exact .ofValue evalSettles rfl fun _ => Codegen.negateValue_settles line (ih.value none)
    | complement =>
      rw [plan]
      exact .ofValue evalSettles rfl fun _ => Codegen.complementValue_settles line (ih.value none)
    | not =>
      rw [plan]
      exact .ofJump rfl fun label when => ih.jump label !when
    | preStep step =>
      rw [plan]
      exact .ofValue evalSettles rfl fun _ => Codegen.preStepValue_settles line (ih.value none) step
    | postStep step =>
      rw [plan]
      exact .ofValue evalSettles rfl fun _ =>
        (Codegen.postStepValue_settles line (ih.value none) step operand).of id Nat.le_of_succ_le
  | compare relation left right line ihL ihR =>
    rw [plan]
    refine .ofJump rfl fun target when => ?_
    exact (Codegen.jumpOnRelation_decides evalSettles line (ihL.value none) (ihR.value none)
      (left.due_queued functions) (right.due_queued functions) target when).of id Nat.max_le.1 (settle_both left right)
  | logic connective left right line leftSettles rightSettles =>
    cases connective with
    | and =>
      rw [plan]
      exact .ofJump rfl fun target when => (Codegen.jumpOnBoth_decides line leftSettles.jump
        rightSettles.jump target when).of id Nat.max_le.1
    | or =>
      rw [plan]
      exact .ofJump rfl fun target when => (Codegen.jumpOnEither_decides line leftSettles.jump
        rightSettles.jump target when).of id Nat.max_le.1
  | ternary condition yes no line decides ihYes ihNo =>
    rw [plan]
    refine .ofValue evalSettles rfl fun _ => (Codegen.ternaryValue_settles evalSettles line
      condition.left_jumped_eq_nil decides.jump (ihYes.value none) (yes.due_queued functions)
      (ihNo.value none) (no.due_queued functions)).of id (fun flat => ?_) ?_
    · obtain ⟨flat, arms⟩ := Nat.max_le.1 flat
      exact ⟨flat, Nat.max_le.1 arms⟩
    · show _ ++ ((yes.rounds 0).settle ++ (no.rounds 0).settle) = _
      rw [yes.settle_rounds, no.settle_rounds]
      rfl
  | call function args returns line ih =>
    rw [plan]
    have pushed := Codegen.pushArgs_settles line (values_settle ih)
    have called : (∃ f, Signature.find? functions function = some f ∧
        f.params.length = args.length ∧ f.returns = returns) → ∃ f,
        Signature.find? functions function = some f ∧
          f.params.length = (values eval args).length ∧ f.returns = returns := by
      rw [values_eq, List.length_map]
      exact id
    have known := pushed.of (q := { Due.ofArgs functions args (allRounds args).reverse with
      known := (call function args returns line).CallsOf functions }) And.right id
    have value := Codegen.callValue_settles line known fun calls => called calls.1
    have plan : (Plan.ofValue eval line fun _ => Codegen.callValue function (values eval args) returns
        line).Settles functions (.call function args returns line) := .ofValue evalSettles rfl fun _ => value
    exact ⟨plan.value, plan.jump, Codegen.callEffect_settles line known fun calls => called calls.1⟩
  | host operation args line ih =>
    rw [plan]
    have direct := (Codegen.directAll_settles line (values_settle ih)).of
      (q := { Due.ofArgs functions args (allRounds args) with
        known := (host operation args line).CallsOf functions }) And.right id
    have value : (Plan.ofValue eval line fun _ => Codegen.hostValue operation (values eval args)
        line).Settles functions (.host operation args line) :=
      .ofValue evalSettles rfl fun _ => Codegen.hostValue_settles line direct operation
    exact ⟨value.value, value.jump, Codegen.hostEffect_settles line direct operation⟩

theorem evalBelow_settles (depth : Nat) : EvalSettles functions (evalBelow depth) := by
  induction depth with
  | zero => exact ⟨fun _ => .fail _, fun _ _ _ _ _ => .fail _⟩
  | succ depth ih =>
    refine ⟨fun n => (plan_settles ih n).value none, ?_⟩
    intro n x isVar ctx s
    cases n with
    | slot y line =>
      simp only [var?, Option.ite_none_right_eq_some, Option.some.injEq, Bool.and_eq_true] at isVar
      obtain ⟨⟨-, assignable⟩, rfl⟩ := isVar
      have notLiteral : y.literal? = none := by
        unfold isAssignable at assignable
        cases kind : y.kind <;> simp_all [Slot.literal?, Slot.constant?]
      rw [evalBelow, plan, notLiteral]
      exact .pure ⟨rfl, rfl, rfl⟩
    | _ => cases isVar

variable (functions)

/-- The code of an expression does what is due of it. -/
theorem code_settles (n : Node) : n.code.Settles functions n := plan_settles (evalBelow_settles _) n

theorem eval_settles : EvalSettles functions Node.eval where
  settles n := (n.code_settles functions).value none
  atVar n x isVar ctx s := by
    have below : EvalSettles functions (evalBelow (n.postDepth + 1)) := evalBelow_settles _
    exact below.atVar n x isVar ctx s

end Node

end ContractCompiler
