import ContractCompiler.Codegen.Node
import ContractCompiler.Proofs.Codegen.Straight
import ContractCompiler.Proofs.Node

/-!
# Proofs.Account — what the code of an expression calls and what it leaves to be done

An `Account` lists what some code calls and the steps that it puts off. Doing the steps that were put
off evaluates their targets once more, which may call again and put other steps off. So an expression
has an account for each round (`Node.rounds`): the first round is its evaluation, and every other one
does the steps that the round before it left (`Node.rounds_succ`). A jump on a value, a comparison and
the branches of a conditional do two rounds at once (`Rounds.settled`).

What holds of the rounds of every expression is shown once for all ways to put rounds together
(`Node.rounds_stable`). Every round is deeper inside of the targets of steps, so that nothing is left
after the second one unless a step stands in the target of another (`Node.left_eq_nil`); and a call is
made once unless it stands in such a target (`Node.calls_eq`).
-/

namespace ContractCompiler

set_option autoImplicit false

open Codegen (functionLabel)

/-! ## Calls and steps of expressions -/

/-- What the calls of functions do to the stack, by their signatures. -/
def Signature.calls (functions : List Signature) : Calls := fun label =>
  match functions.find? (functionLabel ·.name == label) with
  | some f => (f.params.length, if f.returnsValue then 1 else 0)
  | none => (0, 0)

theorem Codegen.functionLabel_inj {name name' : String} :
    functionLabel name = functionLabel name' ↔ name = name' := by
  simp [functionLabel]

theorem Signature.calls_functionLabel {functions : List Signature} {name : String} {f : Signature}
    (found : Signature.find? functions name = some f) :
    Signature.calls functions (functionLabel name) =
      (f.params.length, if f.returnsValue then 1 else 0) := by
  have same : (fun g : Signature => functionLabel g.name == functionLabel name) =
      fun g => g.name == name := by
    funext g
    rw [Bool.eq_iff_iff, beq_iff_eq, beq_iff_eq, Codegen.functionLabel_inj]
  unfold Signature.calls
  rw [same, show functions.find? (fun g => g.name == name) = some f from found]

namespace Node

/-- The variable that the node is, if a step can change it in place. -/
def var? (n : Node) : Option Slot :=
  match n with
  | slot s _ => if s.isDirect && n.isAssignable then some s else none
  | _ => none

/-- The line of a step on a node, if that is a variable. -/
def stepLine? (step : Step) (target : Node) : Option Instr :=
  target.var?.map fun x => (Update.step step).instr x.asmName

mutual

/-- Every call in the node is one of a known function, with as many arguments as this has parameters, or one
that the host offers. -/
def CallsOf (functions : List Signature) : Node → Prop
  | slot _ _ => True
  | deref base _ _ => base.CallsOf functions
  | lookup base index _ _ => base.CallsOf functions ∧ index.CallsOf functions
  | assign _ target value _ => target.CallsOf functions ∧ value.CallsOf functions
  | binary _ left right _ => left.CallsOf functions ∧ right.CallsOf functions
  | unary _ operand _ => operand.CallsOf functions
  | compare _ left right _ => left.CallsOf functions ∧ right.CallsOf functions
  | logic _ left right _ => left.CallsOf functions ∧ right.CallsOf functions
  | ternary condition yes no _ =>
    condition.CallsOf functions ∧ yes.CallsOf functions ∧ no.CallsOf functions
  | call function args returns _ =>
    (∃ f, Signature.find? functions function = some f ∧ f.params.length = args.length ∧
      f.returns = returns) ∧ AllCallsOf functions args
  | host operation args _ => operation ∈ HostCall.catalogue ∧ AllCallsOf functions args

def AllCallsOf (functions : List Signature) : List Node → Prop
  | [] => True
  | n :: rest => n.CallsOf functions ∧ AllCallsOf functions rest

end

mutual

/-- The lines of the steps that are done after a use of a variable. Operands that are evaluated only on
a condition are left out. -/
def stepLines : Node → List Instr
  | slot _ _ => []
  | deref base _ _ => base.stepLines
  | lookup base index _ _ => base.stepLines ++ index.stepLines
  | assign _ target value _ => target.stepLines ++ value.stepLines
  | binary _ left right _ => left.stepLines ++ right.stepLines
  | unary op operand _ =>
    match op with
    | .postStep step => (stepLine? step operand).toList ++ operand.stepLines
    | _ => operand.stepLines
  | compare _ left right _ => left.stepLines ++ right.stepLines
  | logic _ left _ _ => left.stepLines
  | ternary condition _ _ _ => condition.stepLines
  | call _ args _ _ => allStepLines args
  | host _ args _ => allStepLines args

def allStepLines : List Node → List Instr
  | [] => []
  | n :: rest => n.stepLines ++ allStepLines rest

end

end Node

/-- What some code calls, and the steps that are put off when it ends. -/
structure Account where
  calls : List Callee
  left : List (Step × Node)

namespace Account

def nothing : Account := ⟨[], []⟩

instance : Append Account := ⟨fun a b => ⟨a.calls ++ b.calls, a.left ++ b.left⟩⟩

@[simp] theorem calls_nothing : nothing.calls = [] := rfl

@[simp] theorem left_nothing : nothing.left = [] := rfl

@[simp] theorem calls_append (a b : Account) : (a ++ b).calls = a.calls ++ b.calls := rfl

@[simp] theorem left_append (a b : Account) : (a ++ b).left = a.left ++ b.left := rfl

theorem eq_of_fields {a b : Account} (calls : a.calls = b.calls) (left : a.left = b.left) : a = b := by
  cases a
  cases b
  simp_all

@[simp] theorem nothing_append (a : Account) : nothing ++ a = a := eq_of_fields rfl rfl

@[simp] theorem append_nothing (a : Account) : a ++ nothing = a :=
  eq_of_fields (List.append_nil _) (List.append_nil _)

@[simp] theorem append_assoc (a b c : Account) : a ++ b ++ c = a ++ (b ++ c) :=
  eq_of_fields (List.append_assoc ..) (List.append_assoc ..)

end Account

/-! ## Rounds -/

/-- An account for each round, from the evaluation on. -/
abbrev Rounds := Nat → Account

namespace Rounds

def nothing : Rounds := fun _ => .nothing

instance : Append Rounds := ⟨fun f g k => f k ++ g k⟩

@[simp] theorem append_apply (f g : Rounds) (k : Nat) : (f ++ g) k = f k ++ g k := rfl

/-- One evaluation after the other. -/
def join : List Rounds → Rounds
  | [] => nothing
  | f :: rest => f ++ join rest

theorem join_append (fs gs : List Rounds) : join (fs ++ gs) = join fs ++ join gs := by
  induction fs with
  | nil =>
    funext k
    exact (Account.nothing_append _).symm
  | cons f fs ih =>
    funext k
    show (f ++ join (fs ++ gs)) k = _
    rw [ih]
    exact (Account.append_assoc ..).symm

theorem calls_join (fs : List Rounds) (k : Nat) :
    (join fs k).calls = (fs.map fun f => (f k).calls).flatten := by
  induction fs with
  | nil => rfl
  | cons f fs ih => simp [join, ih]

/-- A call is made by the evaluation. -/
def calling (callee : Callee) : Rounds
  | 0 => ⟨[callee], []⟩
  | _ + 1 => .nothing

/-- A step is put off, and its target is evaluated with the others and once more when it is done. -/
def stepping (step : Step × Node) (target : Rounds) : Rounds
  | 0 => ⟨[], [step]⟩ ++ target 0
  | k + 1 => target k ++ target (k + 1)

/-- The steps put off by the evaluation are done at once. -/
def settled (f : Rounds) : Rounds
  | 0 => ⟨(f 0).calls ++ (f 1).calls, (f 1).left⟩
  | k + 1 => f (k + 2)

/-- A jump settles the steps of a value, unless there is no value. -/
def jumped (isTest : Bool) (f : Rounds) : Rounds := if isTest then f else f.settled

/-- A property that is kept where rounds are put together. -/
structure Stable (P : Rounds → Prop) : Prop where
  nothing : P nothing
  append : ∀ {f g : Rounds}, P f → P g → P (f ++ g)
  settled : ∀ {f : Rounds}, P f → P f.settled

namespace Stable

variable {P : Rounds → Prop} (stable : Stable P)
include stable

theorem jumped {f : Rounds} (holds : P f) (isTest : Bool) : P (f.jumped isTest) := by
  cases isTest with
  | true => exact holds
  | false => exact stable.settled holds

theorem join {fs : List Rounds} (holds : ∀ f ∈ fs, P f) : P (.join fs) := by
  induction fs with
  | nil => exact stable.nothing
  | cons f fs ih =>
    obtain ⟨first, rest⟩ := List.forall_mem_cons.1 holds
    exact stable.append first (ih rest)

end Stable

end Rounds

/-! ## The rounds of an expression -/

namespace Node

/-- The node is compiled for a jump, and only then for its value. -/
def isTest : Node → Bool
  | unary .not _ _ => true
  | compare _ _ _ _ => true
  | logic _ _ _ _ => true
  | _ => false

mutual

/-- What is called and left when the node is evaluated, and then when the steps left by the round before
are done. -/
def rounds : Node → Rounds
  | slot _ _ => .nothing
  | deref base _ _ => base.rounds
  | lookup base index _ _ => base.rounds ++ index.rounds
  | assign _ target value _ => target.rounds ++ value.rounds
  | binary _ left right _ => left.rounds ++ right.rounds
  | unary op operand _ =>
    match op with
    | .not => operand.rounds.jumped operand.isTest
    | .postStep step => .stepping (step, operand) operand.rounds
    | _ => operand.rounds
  | compare _ left right _ => (left.rounds ++ right.rounds).settled
  | logic _ left right _ => left.rounds.jumped left.isTest ++ right.rounds.jumped right.isTest
  | ternary condition yes no _ =>
    condition.rounds.jumped condition.isTest ++ (yes.rounds.settled ++ no.rounds.settled)
  -- the last argument is evaluated first
  | call function args _ _ => .join (allRounds args).reverse ++ .calling (.function (functionLabel function))
  | host operation args _ => .join (allRounds args) ++ .calling (.host operation.asmName)

def allRounds : List Node → List Rounds
  | [] => []
  | n :: rest => n.rounds :: allRounds rest

end

mutual

/-- What the node calls, one entry for each call that it has, in the order of their evaluation. -/
def callees : Node → List Callee
  | slot _ _ => []
  | deref base _ _ => base.callees
  | lookup base index _ _ => base.callees ++ index.callees
  | assign _ target value _ => target.callees ++ value.callees
  | binary _ left right _ => left.callees ++ right.callees
  | unary _ operand _ => operand.callees
  | compare _ left right _ => left.callees ++ right.callees
  | logic _ left right _ => left.callees ++ right.callees
  | ternary condition yes no _ => condition.callees ++ (yes.callees ++ no.callees)
  | call function args _ _ => (allCallees args).reverse.flatten ++ [.function (functionLabel function)]
  | host operation args _ => (allCallees args).flatten ++ [.host operation.asmName]

def allCallees : List Node → List (List Callee)
  | [] => []
  | n :: rest => n.callees :: allCallees rest

end

mutual

/-- The steps after a use that are written in the node. -/
def postSteps : Node → List (Step × Node)
  | slot _ _ => []
  | deref base _ _ => base.postSteps
  | lookup base index _ _ => base.postSteps ++ index.postSteps
  | assign _ target value _ => target.postSteps ++ value.postSteps
  | binary _ left right _ => left.postSteps ++ right.postSteps
  | unary op operand _ =>
    match op with
    | .postStep step => (step, operand) :: operand.postSteps
    | _ => operand.postSteps
  | compare _ left right _ => left.postSteps ++ right.postSteps
  | logic _ left right _ => left.postSteps ++ right.postSteps
  | ternary condition yes no _ => condition.postSteps ++ (yes.postSteps ++ no.postSteps)
  | call _ args _ _ => allPostSteps args
  | host _ args _ => allPostSteps args

def allPostSteps : List Node → List (Step × Node)
  | [] => []
  | n :: rest => n.postSteps ++ allPostSteps rest

end

theorem allRounds_eq (ns : List Node) : allRounds ns = ns.map rounds := by
  induction ns with
  | nil => rfl
  | cons n rest ih => rw [allRounds, ih, List.map_cons]

theorem allCallees_eq (ns : List Node) : allCallees ns = ns.map callees := by
  induction ns with
  | nil => rfl
  | cons n rest ih => rw [allCallees, ih, List.map_cons]

theorem mem_allPostSteps {p : Step × Node} {ns : List Node} :
    p ∈ allPostSteps ns ↔ ∃ n ∈ ns, p ∈ n.postSteps := by
  induction ns with
  | nil => simp [allPostSteps]
  | cons n rest ih => simp [allPostSteps, ih]

/-- A stable property of the calls and the steps of a node is one of the node. -/
theorem rounds_stable {P : Rounds → Prop} (stable : Rounds.Stable P) (n : Node)
    (calls : ∀ c ∈ n.callees, P (.calling c))
    (steps : ∀ p ∈ n.postSteps, P p.2.rounds → P (.stepping p p.2.rounds)) : P n.rounds := by
  induction n with
  | slot _ _ => exact stable.nothing
  | deref _ _ _ ih => exact ih calls steps
  | unary op operand _ ih =>
    cases op with
    | not => exact stable.jumped (ih calls steps) _
    | postStep step =>
      obtain ⟨first, steps⟩ := List.forall_mem_cons.1 steps
      exact first (ih calls steps)
    | negate | complement | preStep _ => exact ih calls steps
  | ternary condition yes no _ ihC ihY ihN =>
    simp only [callees, postSteps, List.forall_mem_append] at calls steps
    exact stable.append (stable.jumped (ihC calls.1 steps.1) _)
      (stable.append (stable.settled (ihY calls.2.1 steps.2.1)) (stable.settled (ihN calls.2.2 steps.2.2)))
  | call _ args _ _ ih | host _ args _ ih =>
    obtain ⟨calls, here⟩ := List.forall_mem_append.1 calls
    refine stable.append (stable.join fun f mem => ?_) (here _ (List.mem_singleton_self _))
    obtain ⟨n, listed, rfl⟩ : ∃ n ∈ args, n.rounds = f := by simpa [allRounds_eq] using mem
    refine ih n listed (fun c mem => calls c ?_) fun p mem => steps p (mem_allPostSteps.2 ⟨n, listed, mem⟩)
    simpa [allCallees_eq] using ⟨n, listed, mem⟩
  | lookup _ _ _ _ ihL ihR | assign _ _ _ _ ihL ihR | binary _ _ _ _ ihL ihR
  | compare _ _ _ _ ihL ihR | logic _ _ _ _ ihL ihR =>
    simp only [callees, postSteps, List.forall_mem_append] at calls steps
    have left := ihL calls.1 steps.1
    have right := ihR calls.2 steps.2
    first
      | exact stable.append left right
      | exact stable.settled (stable.append left right)
      | exact stable.append (stable.jumped left _) (stable.jumped right _)

/-! ## One round after the other -/

/-- Doing steps evaluates their targets. -/
def redo : List (Step × Node) → Account
  | [] => .nothing
  | p :: steps => p.2.rounds 0 ++ redo steps

@[simp] theorem redo_nil : redo [] = .nothing := rfl

@[simp] theorem redo_cons (p : Step × Node) (steps : List (Step × Node)) :
    redo (p :: steps) = p.2.rounds 0 ++ redo steps := rfl

@[simp] theorem redo_append (steps steps' : List (Step × Node)) :
    redo (steps ++ steps') = redo steps ++ redo steps' := by
  induction steps with
  | nil => simp
  | cons p steps ih => simp [ih]

theorem mem_calls_redo {steps : List (Step × Node)} {c : Callee} :
    c ∈ (redo steps).calls ↔ ∃ q ∈ steps, c ∈ (q.2.rounds 0).calls := by
  induction steps with
  | nil => simp
  | cons q steps ih => simp [ih]

theorem mem_left_redo {steps : List (Step × Node)} {p : Step × Node} :
    p ∈ (redo steps).left ↔ ∃ q ∈ steps, p ∈ (q.2.rounds 0).left := by
  induction steps with
  | nil => simp
  | cons q steps ih => simp [ih]

/-- Each round does what the round before it left. -/
theorem rounds_succ (n : Node) (k : Nat) : n.rounds (k + 1) = redo (n.rounds k).left := by
  have stable : Rounds.Stable fun f => ∀ k, f (k + 1) = redo (f k).left := by
    refine ⟨fun _ => rfl, fun first second k => ?_, fun continues k => ?_⟩
    · simp [first k, second k]
    · cases k with
      | zero => exact continues 1
      | succ k => exact continues (k + 2)
  refine rounds_stable stable n (fun c _ k => ?_) (fun p _ continues k => ?_) k
  · cases k <;> rfl
  · cases k with
    | zero => simp [Rounds.stepping, ← continues 0]
    | succ k => simp [Rounds.stepping, ← continues k, ← continues (k + 1)]

/-! ## How long steps are left -/

theorem postDepth_of_postStep (n : Node) : ∀ p ∈ n.postSteps, p.2.postDepth < n.postDepth := by
  induction n with
  | slot _ _ => simp [postSteps]
  | unary op operand _ ih =>
    cases op with
    | postStep step =>
      exact List.forall_mem_cons.2 ⟨Nat.lt_succ_self _, fun p mem => Nat.lt_succ_of_lt (ih p mem)⟩
    | negate | complement | not | preStep _ => exact ih
  | call _ args _ _ ih | host _ args _ ih =>
    intro p mem
    obtain ⟨n, listed, mem⟩ := mem_allPostSteps.1 mem
    exact Nat.lt_of_lt_of_le (ih n listed p mem) (le_maxPostDepth listed)
  | _ => grind [postSteps, postDepth]

/-- The steps that are left in a node are written in it. -/
theorem mem_postSteps_of_left (n : Node) (k : Nat) : ∀ p ∈ (n.rounds k).left, p ∈ n.postSteps := by
  have stable : Rounds.Stable fun f => ∀ k, ∀ p ∈ (f k).left, p ∈ n.postSteps := by
    refine ⟨nofun, fun first second k => List.forall_mem_append.2 ⟨first k, second k⟩, fun holds k => ?_⟩
    cases k with
    | zero => exact holds 1
    | succ k => exact holds (k + 2)
  refine rounds_stable stable n (fun c _ k => ?_) (fun p mem holds k => ?_) k
  · cases k <;> exact nofun
  · cases k with
    | zero => exact List.forall_mem_cons.2 ⟨mem, holds 0⟩
    | succ k => exact List.forall_mem_append.2 ⟨holds k, holds (k + 1)⟩

/-- A step is left after some rounds only if it stands in the targets of as many others. -/
theorem postDepth_add_lt (n : Node) (k : Nat) :
    ∀ p ∈ (n.rounds k).left, p.2.postDepth + k < n.postDepth := by
  induction k with
  | zero => exact fun p mem => n.postDepth_of_postStep p (n.mem_postSteps_of_left 0 p mem)
  | succ k ih =>
    intro p mem
    rw [rounds_succ] at mem
    obtain ⟨q, listed, mem⟩ := mem_left_redo.1 mem
    have inner := q.2.postDepth_of_postStep p (q.2.mem_postSteps_of_left 0 p mem)
    have outer := ih q listed
    omega

theorem left_eq_nil {n : Node} {k : Nat} (flat : n.postDepth ≤ k) : (n.rounds k).left = [] := by
  refine List.eq_nil_iff_forall_not_mem.2 fun p mem => ?_
  have := n.postDepth_add_lt k p mem
  omega

/-- A jump leaves nothing if the steps are not nested. -/
theorem left_jumped_eq_nil : (n : Node) → n.postDepth ≤ 1 → (n.rounds.jumped n.isTest 0).left = []
  | unary .not operand _, flat => left_jumped_eq_nil operand flat
  | compare _ left right _, flat => by
    obtain ⟨flatLeft, flatRight⟩ := Nat.max_le.1 flat
    show (left.rounds 1).left ++ (right.rounds 1).left = []
    rw [left_eq_nil flatLeft, left_eq_nil flatRight]
    rfl
  | logic _ left right _, flat => by
    obtain ⟨flatLeft, flatRight⟩ := Nat.max_le.1 flat
    show (left.rounds.jumped left.isTest 0).left ++ (right.rounds.jumped right.isTest 0).left = []
    rw [left_jumped_eq_nil left flatLeft, left_jumped_eq_nil right flatRight]
    rfl
  | slot _ _, flat | deref _ _ _, flat | lookup _ _ _ _, flat | assign _ _ _ _, flat
  | binary _ _ _ _, flat | unary .negate _ _, flat | unary .complement _ _, flat
  | unary (.preStep _) _ _, flat | unary (.postStep _) _ _, flat | ternary _ _ _ _, flat
  | call _ _ _ _, flat | host _ _ _, flat => left_eq_nil flat

theorem allCallsOf_iff {functions : List Signature} {ns : List Node} :
    AllCallsOf functions ns ↔ ∀ n ∈ ns, n.CallsOf functions := by
  induction ns with
  | nil => simp [AllCallsOf]
  | cons n rest ih => simp [AllCallsOf, ih]

theorem callsOf_postStep {functions : List Signature} (n : Node) (calls : n.CallsOf functions) :
    ∀ p ∈ n.postSteps, p.2.CallsOf functions := by
  induction n with
  | unary op operand _ ih =>
    cases op with
    | postStep step => exact List.forall_mem_cons.2 ⟨calls, ih calls⟩
    | negate | complement | not | preStep _ => exact ih calls
  | call _ args _ _ ih | host _ args _ ih =>
    intro p mem
    obtain ⟨n, listed, mem⟩ := mem_allPostSteps.1 mem
    exact ih n listed (allCallsOf_iff.1 calls.2 n listed) p mem
  | _ => grind [postSteps, CallsOf]

theorem mem_allStepLines {i : Instr} {ns : List Node} : i ∈ allStepLines ns ↔ ∃ n ∈ ns, i ∈ n.stepLines := by
  induction ns with
  | nil => simp [allStepLines]
  | cons n rest ih => simp [allStepLines, ih]

/-- The lines of steps are those of steps that stand in the node. -/
theorem postStep_of_stepLine {i : Instr} (n : Node) (mem : i ∈ n.stepLines) :
    ∃ step target, (step, target) ∈ n.postSteps ∧ stepLine? step target = some i := by
  induction n with
  | unary op operand _ ih =>
    cases op with
    | postStep step => grind [stepLines, postSteps]
    | negate | complement | not | preStep _ => exact ih mem
  | call _ args _ _ ih | host _ args _ ih =>
    obtain ⟨n, listed, mem⟩ := mem_allStepLines.1 mem
    obtain ⟨step, target, isStep, line⟩ := ih n listed mem
    exact ⟨step, target, mem_allPostSteps.2 ⟨n, listed, isStep⟩, line⟩
  | _ => grind [stepLines, postSteps]

theorem stepLines_eq_nil (n : Node) (flat : n.postDepth = 0) : n.stepLines = [] := by
  refine List.eq_nil_iff_forall_not_mem.2 fun i mem => ?_
  obtain ⟨step, target, isStep, -⟩ := n.postStep_of_stepLine mem
  have := n.postDepth_of_postStep _ isStep
  omega

/-! ## How often calls are made -/

/-- Nothing is called but what the node calls. -/
theorem mem_callees_of_round (n : Node) (k : Nat) : ∀ c ∈ (n.rounds k).calls, c ∈ n.callees := by
  have stable : Rounds.Stable fun f => ∀ k, ∀ c ∈ (f k).calls, c ∈ n.callees := by
    refine ⟨nofun, fun first second k => List.forall_mem_append.2 ⟨first k, second k⟩, fun holds k => ?_⟩
    cases k with
    | zero => exact List.forall_mem_append.2 ⟨holds 0, holds 1⟩
    | succ k => exact holds (k + 2)
  refine rounds_stable stable n (fun c mem k => ?_) (fun p _ holds k => ?_) k
  · cases k with
    | zero => exact List.forall_mem_singleton.2 mem
    | succ k => exact nofun
  · cases k with
    | zero => exact holds 0
    | succ k => exact List.forall_mem_append.2 ⟨holds k, holds (k + 1)⟩

theorem calls_eq_nil {n : Node} (none : n.callees = []) (k : Nat) : (n.rounds k).calls = [] := by
  refine List.eq_nil_iff_forall_not_mem.2 fun c mem => ?_
  have := n.mem_callees_of_round k c mem
  simp [none] at this

/-- Doing the steps of a node calls nothing if their targets do not. -/
theorem calls_succ_eq_nil {n : Node} (quiet : ∀ p ∈ n.postSteps, p.2.callees = []) (k : Nat) :
    (n.rounds (k + 1)).calls = [] := by
  have stable : Rounds.Stable fun f => ∀ k, (f (k + 1)).calls = [] := by
    refine ⟨fun _ => rfl, fun first second k => ?_, fun holds k => holds (k + 1)⟩
    simp [first k, second k]
  refine rounds_stable stable n (fun _ _ _ => rfl) (fun p mem _ k => ?_) k
  simp [Rounds.stepping, calls_eq_nil (quiet p mem)]

theorem calls_jumped {n : Node} (quiet : ∀ p ∈ n.postSteps, p.2.callees = []) (isTest : Bool) :
    (n.rounds.jumped isTest 0).calls = (n.rounds 0).calls := by
  cases isTest with
  | true => rfl
  | false => simp [Rounds.jumped, Rounds.settled, calls_succ_eq_nil quiet 0]

/-- The evaluation of a node makes each call of it once, if none stands in the target of a step. -/
theorem calls_eq (n : Node) (quiet : ∀ p ∈ n.postSteps, p.2.callees = []) :
    (n.rounds 0).calls = n.callees := by
  induction n with
  | slot _ _ => rfl
  | deref _ _ _ ih => exact ih quiet
  | unary op operand _ ih =>
    cases op with
    | not => exact (calls_jumped (n := operand) quiet operand.isTest).trans (ih quiet)
    | postStep step => exact ih (List.forall_mem_cons.1 quiet).2
    | negate | complement | preStep _ => exact ih quiet
  | ternary condition yes no _ ihC ihY ihN =>
    simp only [postSteps, List.forall_mem_append] at quiet
    simp [rounds, callees, Rounds.settled, calls_jumped quiet.1, ihC quiet.1, ihY quiet.2.1, ihN quiet.2.2,
      calls_succ_eq_nil quiet.2.1, calls_succ_eq_nil quiet.2.2]
  | call _ args _ _ ih | host _ args _ ih =>
    have each : args.map (fun n => (n.rounds 0).calls) = args.map callees :=
      List.map_congr_left fun n listed => ih n listed fun p mem => quiet p (mem_allPostSteps.2 ⟨n, listed, mem⟩)
    simp [rounds, callees, Rounds.calling, Rounds.calls_join, allRounds_eq, allCallees_eq, List.map_reverse,
      Function.comp_def, each]
  | lookup _ _ _ _ ihL ihR | assign _ _ _ _ ihL ihR | binary _ _ _ _ ihL ihR
  | compare _ _ _ _ ihL ihR | logic _ _ _ _ ihL ihR =>
    obtain ⟨quietL, quietR⟩ := List.forall_mem_append.1 quiet
    simp [rounds, callees, Rounds.settled, ihL quietL, ihR quietR, calls_jumped quietL, calls_jumped quietR,
      calls_succ_eq_nil quietL, calls_succ_eq_nil quietR]

end Node

/-! ## What is called -/

/-- An operation of the host, or a function of the contract by its label. -/
def Callee.Known (functions : List Signature) : Callee → Prop
  | .function label => ∃ f ∈ functions, label = functionLabel f.name
  | .host name => ∃ operation ∈ HostCall.catalogue, name = operation.asmName

theorem Node.callees_known {functions : List Signature} (n : Node) (calls : n.CallsOf functions) :
    ∀ c ∈ n.callees, c.Known functions := by
  induction n with
  | call function args _ _ ih =>
    obtain ⟨⟨f, found, -, -⟩, calls⟩ := calls
    have name : f.name = function := by simpa using List.find?_some found
    refine List.forall_mem_append.2 ⟨fun c mem => ?_, List.forall_mem_singleton.2 ?_⟩
    · obtain ⟨n, listed, mem⟩ : ∃ n ∈ args, c ∈ n.callees := by simpa [allCallees_eq] using mem
      exact ih n listed (allCallsOf_iff.1 calls n listed) c mem
    · exact ⟨f, List.mem_of_find?_eq_some found, by rw [name]⟩
  | host operation args _ ih =>
    refine List.forall_mem_append.2 ⟨fun c mem => ?_, List.forall_mem_singleton.2 ⟨operation, calls.1, rfl⟩⟩
    obtain ⟨n, listed, mem⟩ : ∃ n ∈ args, c ∈ n.callees := by simpa [allCallees_eq] using mem
    exact ih n listed (allCallsOf_iff.1 calls.2 n listed) c mem
  | _ => grind [callees, CallsOf]

end ContractCompiler
