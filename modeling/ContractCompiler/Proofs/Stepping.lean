import ContractCompiler.Proofs.Account
import ContractCompiler.Proofs.PostStep

/-!
# Proofs.Stepping — expressions in which variables are stepped after their use

Where only variables are stepped and each of them stands once, nothing that an expression is read from
changes while it is evaluated. So it has the word that it has in the memory at the start (`Node.word`),
whether a step is done at once or put off, and a step is done if the evaluation comes by it
(`Node.reached`, `Node.evaluates`). For an assignment of such an expression this is what its code does
(`Codegen.stepping_assignment`).
-/

namespace ContractCompiler

set_option autoImplicit false

open List (Perm Forall₂)
open Codegen (State Context)

/-! ## Steps on cells -/

namespace Memory

/-- The memory with steps done on cells, one after the other. -/
def stepped (m : Memory) (steps : List (Step × Int)) : Memory :=
  steps.foldl (fun m p => m.set p.2 (p.1.apply (m p.2))) m

variable {m : Memory} {steps : List (Step × Int)} {a : Int}

theorem stepped_append (m : Memory) (steps steps' : List (Step × Int)) :
    m.stepped (steps ++ steps') = (m.stepped steps).stepped steps' := List.foldl_append

theorem stepped_of_notMem (other : a ∉ steps.map (·.2)) : m.stepped steps a = m a := by
  induction steps generalizing m with
  | nil => rfl
  | cons p steps ih =>
    obtain ⟨notP, rest⟩ : a ≠ p.2 ∧ a ∉ steps.map (·.2) := by simpa using other
    exact (ih rest).trans (set_of_ne notP ..)

theorem stepped_of_mem {p : Step × Int} (nodup : (steps.map (·.2)).Nodup) (mem : p ∈ steps) :
    m.stepped steps p.2 = p.1.apply (m p.2) := by
  induction steps generalizing m with
  | nil => cases mem
  | cons q steps ih =>
    obtain ⟨notQ, rest⟩ := List.nodup_cons.1 nodup
    rcases List.mem_cons.1 mem with rfl | mem
    · exact (stepped_of_notMem notQ).trans (set_self ..)
    · have other : p.2 ≠ q.2 := fun same => notQ (List.mem_map.2 ⟨p, mem, same⟩)
      rw [← set_of_ne other m]
      exact ih rest mem

theorem stepped_set (other : a ∉ steps.map (·.2)) (w : Word) :
    (m.set a w).stepped steps = (m.stepped steps).set a w := by
  induction steps generalizing m with
  | nil => rfl
  | cons p steps ih =>
    obtain ⟨notP, rest⟩ : a ≠ p.2 ∧ a ∉ steps.map (·.2) := by simpa using other
    have swap : (m.set a w).set p.2 (p.1.apply (m.set a w p.2)) =
        (m.set p.2 (p.1.apply (m p.2))).set a w := by
      rw [set_of_ne notP.symm]
      funext b
      by_cases isA : b = a
      · rw [isA, set_of_ne notP, set_self, set_self]
      · by_cases isP : b = p.2
        · rw [isP, set_self, set_of_ne notP.symm, set_self]
        · rw [set_of_ne isP, set_of_ne isA, set_of_ne isA, set_of_ne isP]
    show ((m.set a w).set p.2 _).stepped steps = _
    rw [swap, ih rest]
    rfl

end Memory

/-! ## Words and steps of expressions -/

namespace Node

/-- Numbers, variables, and variables that are stepped after their use, under operators that change
nothing. -/
def isStepping : Node → Bool
  | slot s _ => s.isDirect
  | binary _ left right _ => left.isStepping && right.isStepping
  | unary op operand _ =>
    match op with
    | .preStep _ => false
    | .postStep _ => operand.var?.isSome
    | _ => operand.isStepping
  | compare _ left right _ => left.isStepping && right.isStepping
  | logic _ left right _ => left.isStepping && right.isStepping
  | ternary condition yes no _ => condition.isStepping && (yes.isStepping && no.isStepping)
  | _ => false

/-- The word of an expression in which variables are stepped: a step leaves the word that was used. -/
def word (a : Arithmetic) (m : Memory) : Node → Word
  | slot s _ => s.value m
  | binary op left right _ => op.apply a (left.word a m) (right.word a m)
  | unary op operand _ =>
    match op with
    | .negate => 0 - operand.word a m
    | .complement => ~~~ operand.word a m
    | .not => Word.ofBool (operand.word a m == 0)
    | .preStep _ | .postStep _ => operand.word a m
  | compare relation left right _ => Word.ofBool (relation.holds (left.word a m) (right.word a m))
  | logic connective left right _ =>
    if (left.word a m != 0) = (connective == .or) then Word.ofBool (left.word a m != 0)
    else Word.ofBool (right.word a m != 0)
  | ternary condition yes no _ => if condition.word a m != 0 then yes.word a m else no.word a m
  | _ => 0

/-- The steps that the evaluation comes by, with the cells of their variables. The second operand of `&&`
and `||` is looked at only if the first does not decide, and of the conditional operator only the branch
that is taken. -/
def reached (a : Arithmetic) (m : Memory) : Node → List (Step × Int)
  | binary _ left right _ => left.reached a m ++ right.reached a m
  | unary op operand _ =>
    match op with
    | .postStep step => (operand.var?.map fun x => (step, x.address)).toList
    | _ => operand.reached a m
  | compare _ left right _ => left.reached a m ++ right.reached a m
  | logic connective left right _ => left.reached a m ++
    if (left.word a m != 0) = (connective == .or) then [] else right.reached a m
  | ternary condition yes no _ => condition.reached a m ++
    if condition.word a m != 0 then yes.reached a m else no.reached a m
  | _ => []

/-- The cells of the variables that stand in an expression, as often as they do. -/
def cells : Node → List Int
  | slot s _ => [s.address]
  | binary _ left right _ => left.cells ++ right.cells
  | unary _ operand _ => operand.cells
  | compare _ left right _ => left.cells ++ right.cells
  | logic _ left right _ => left.cells ++ right.cells
  | ternary condition yes no _ => condition.cells ++ (yes.cells ++ no.cells)
  | _ => []

/-- The variables of the steps stand once among the cells. -/
def Once (steps : List (Step × Node)) (cells : List Int) : Prop :=
  ∀ p ∈ steps, ∀ x, p.2.var? = some x → cells.count x.address ≤ 1

instance (steps : List (Step × Node)) (cells : List Int) : Decidable (Once steps cells) :=
  inferInstanceAs (Decidable (∀ p ∈ steps, ∀ x ∈ p.2.var?, cells.count x.address ≤ 1))

variable {a : Arithmetic} {m m' : Memory}

/-- The word and the steps depend on the variables alone that stand in the expression. -/
theorem word_congr (n : Node) (stepping : n.isStepping = true) (agree : ∀ c ∈ n.cells, m' c = m c) :
    n.word a m' = n.word a m ∧ n.reached a m' = n.reached a m := by
  induction n with
  | slot s line =>
    have direct : s.offset = none := by simpa [isStepping, Slot.isDirect] using stepping
    have same : m' s.address = m s.address := agree _ (by simp [cells])
    exact ⟨by simp [word, Slot.value, Slot.cell_direct direct, same], rfl⟩
  | unary op operand line ih =>
    cases op with
    | preStep step => cases stepping
    | postStep step =>
      obtain ⟨x, isVar⟩ := Option.isSome_iff_exists.1 stepping
      obtain ⟨_, rfl, direct, -⟩ := var?_eq_some isVar
      exact ⟨(ih (by simp [isStepping, Slot.isDirect, direct]) agree).1, rfl⟩
    | _ =>
      have ih := ih stepping agree
      simp only [word, reached, ih, and_self]
  | binary _ left right _ ihL ihR | compare _ left right _ ihL ihR | logic _ left right _ ihL ihR =>
    simp only [isStepping, Bool.and_eq_true] at stepping
    obtain ⟨agreeL, agreeR⟩ := List.forall_mem_append.1 agree
    simp only [word, reached, ihL stepping.1 agreeL, ihR stepping.2 agreeR, and_self]
  | ternary condition yes no line ihC ihY ihN =>
    simp only [isStepping, Bool.and_eq_true] at stepping
    obtain ⟨agreeC, agree⟩ := List.forall_mem_append.1 agree
    obtain ⟨agreeY, agreeN⟩ := List.forall_mem_append.1 agree
    simp only [word, reached, ihC stepping.1 agreeC, ihY stepping.2.1 agreeY, ihN stepping.2.2 agreeN,
      and_self]
  | _ => cases stepping

theorem hasCall_of_isStepping (n : Node) (stepping : n.isStepping = true) : n.hasCall = false := by
  induction n with
  | slot s line => rfl
  | unary op operand line ih =>
    cases op with
    | preStep step => cases stepping
    | postStep step =>
      obtain ⟨x, isVar⟩ := Option.isSome_iff_exists.1 stepping
      obtain ⟨_, rfl, -⟩ := var?_eq_some isVar
      rfl
    | _ => exact ih stepping
  | binary _ left right _ ihL ihR | compare _ left right _ ihL ihR | logic _ left right _ ihL ihR =>
    obtain ⟨steppingL, steppingR⟩ := Bool.and_eq_true_iff.1 stepping
    simp [hasCall, ihL steppingL, ihR steppingR]
  | ternary condition yes no _ ihC ihY ihN =>
    simp only [isStepping, Bool.and_eq_true] at stepping
    simp [hasCall, ihC stepping.1, ihY stepping.2.1, ihN stepping.2.2]
  | _ => cases stepping

theorem mentions_of_mem {c : Int} (n : Node) (mem : c ∈ n.cells) : n.mentions c = true := by
  induction n with
  | slot s line => simpa [cells, mentions] using .inl (List.mem_singleton.1 mem).symm
  | unary op operand line ih => exact ih mem
  | binary | compare | logic | ternary =>
    simp only [cells, mentions, List.mem_append, Bool.or_eq_true] at mem ⊢
    grind
  | _ => cases mem

/-- Steps are reached in the order in which their variables are written. -/
theorem reached_sublist (n : Node) : ((n.reached a m).map (·.2)).Sublist n.cells := by
  induction n with
  | binary _ left right _ ihL ihR | compare _ left right _ ihL ihR =>
    simpa only [reached, cells, List.map_append] using ihL.append ihR
  | unary op operand _ ih =>
    cases op with
    | postStep step =>
      show ((operand.var?.map fun x => (step, x.address)).toList.map (·.2)).Sublist operand.cells
      cases isVar : operand.var? with
      | none => exact List.nil_sublist _
      | some x =>
        obtain ⟨_, rfl, -⟩ := var?_eq_some isVar
        exact List.Sublist.refl _
    | _ => exact ih
  | logic connective left right _ ihL ihR =>
    rw [reached, cells, List.map_append]
    refine ihL.append ?_
    split
    · exact List.nil_sublist _
    · exact ihR
  | ternary condition yes no _ ihC ihY ihN =>
    rw [reached, cells, List.map_append]
    refine ihC.append ?_
    split
    · exact ihY.trans (List.sublist_append_left ..)
    · exact ihN.trans (List.sublist_append_right ..)
  | _ => exact List.nil_sublist _

/-- What is reached are steps of the expression on variables. -/
theorem mem_postSteps_of_reached {t : SlotTable} (n : Node) (bound : n.Bound t) {q : Step × Int}
    (mem : q ∈ n.reached a m) : ∃ p ∈ n.postSteps, ∃ x, p.2.var? = some x ∧ q = (p.1, x.address) ∧
      p.2.Bound t := by
  induction n with
  | unary op operand _ ih =>
    cases op with
    | postStep step =>
      obtain ⟨x, isVar, rfl⟩ : ∃ x, operand.var? = some x ∧ (step, x.address) = q := by
        simpa [reached] using mem
      exact ⟨(step, operand), by simp [postSteps], x, isVar, rfl, bound⟩
    | _ => exact ih bound mem
  | binary | compare | logic | ternary =>
    simp only [reached, postSteps, Bound, List.mem_append] at mem bound ⊢
    grind
  | _ => cases mem

theorem Once.mono {steps steps' : List (Step × Node)} {cells cells' : List Int}
    (once : Once steps' cells') (fewer : steps ⊆ steps') (sub : cells.Sublist cells') :
    Once steps cells :=
  fun p mem x isVar => Nat.le_trans (sub.count_le _) (once p (fewer mem) x isVar)

/-- No variable is stepped twice. -/
theorem Once.nodup {t : SlotTable} {n : Node} (once : Once n.postSteps n.cells) (bound : n.Bound t)
    (m : Memory) : ((n.reached a m).map (·.2)).Nodup := by
  refine List.nodup_iff_count_le_one.2 fun c => ?_
  by_cases mem : c ∈ (n.reached a m).map (·.2)
  · obtain ⟨q, isReached, rfl⟩ := List.mem_map.1 mem
    obtain ⟨p, found, x, isVar, rfl, -⟩ := mem_postSteps_of_reached n bound isReached
    exact Nat.le_trans (n.reached_sublist.count_le _) (once p found x isVar)
  · rw [List.count_eq_zero_of_not_mem mem]
    exact Nat.zero_le 1

/-- What one operand steps does not stand in the other. -/
theorem Once.both {t : SlotTable} {left right : Node} (boundL : left.Bound t) (boundR : right.Bound t)
    (once : Once (left.postSteps ++ right.postSteps) (left.cells ++ right.cells)) :
    (∀ m, ∀ q ∈ left.reached a m, q.2 ∉ right.cells) ∧
      ∀ m, ∀ q ∈ right.reached a m, q.2 ∉ left.cells := by
  have apart : ∀ {n other : Node} {m : Memory}, n.Bound t →
      (∀ p ∈ n.postSteps, ∀ x, p.2.var? = some x →
        n.cells.count x.address + other.cells.count x.address ≤ 1) →
      ∀ q ∈ n.reached a m, q.2 ∉ other.cells := by
    intro n other m bound once q mem there
    obtain ⟨p, found, x, isVar, rfl, -⟩ := mem_postSteps_of_reached n bound mem
    have here : x.address ∈ n.cells := n.reached_sublist.subset (List.mem_map_of_mem mem)
    have := once p found x isVar
    have := List.count_pos_iff.2 here
    have : x.address ∈ other.cells := there
    have := List.count_pos_iff.2 this
    omega
  refine ⟨fun m => apart boundL fun p mem x isVar => ?_, fun m => apart boundR fun p mem x isVar => ?_⟩
  · rw [← List.count_append]
    exact once p (List.mem_append_left _ mem) x isVar
  · rw [Nat.add_comm, ← List.count_append]
    exact once p (List.mem_append_right _ mem) x isVar

end Node

/-! ## Evaluation -/

namespace Meaning

variable {rules : Rules} {again : Node → Deed} {pending : List (Step × Node)} {m : Memory} {w x y : Word}
  {μ ν : Meaning} {late reached reached' : List (Step × Int)} {cells cells' : List Int}

/-- The step is one of a variable, which is evaluated to its own cell. -/
def Reaches (again : Node → Deed) (p : Step × Node) (q : Step × Int) : Prop :=
  ∃ x, p.2.var? = some x ∧ q = (p.1, x.address) ∧ (again p.2).run = pure (.cell x.address) ∧
    (again p.2).pending = []

theorem steps_of_reaches (vars : Forall₂ (Reaches again) pending late) (m : Memory) :
    steps rules again pending m = some ((), m.stepped late) := by
  induction vars generalizing m with
  | nil => rfl
  | @cons p q _ _ first _ ih =>
    obtain ⟨x, -, rfl, runs, -⟩ := first
    exact Effect.bind_eq_some.2 ⟨.cell x.address, m, by rw [runs]; rfl,
      Effect.bind_eq_some.2 ⟨(), _, rfl, ih _⟩⟩

theorem leak_of_reaches (vars : Forall₂ (Reaches again) pending late) : leak again pending = [] := by
  induction vars with
  | nil => rfl
  | cons first _ ih =>
    obtain ⟨_, -, -, -, none⟩ := first
    exact List.append_eq_nil_iff.2 ⟨none, ih⟩

/-- An expression has a word, and comes by some steps. Those that are not done when it has been evaluated
are put off, and the word can be read while the cells that stand in the expression are left alone. -/
structure Evaluates (rules : Rules) (again : Node → Deed) (cells : List Int) (μ : Meaning) (m : Memory)
    (w : Word) (reached : List (Step × Int)) : Prop where
  value : ∃ r done late, (done ++ late).Perm reached ∧ Forall₂ (Reaches again) μ.pending late ∧
    μ.value none m = some (r, m.stepped done) ∧
    ∀ m', (∀ c ∈ cells, m' c = m.stepped done c) → r.value? rules m' = some w
  test : ∃ all, all.Perm reached ∧ μ.test m = some (w != 0, m.stepped all)
  testPending : μ.testPending = []

/-- Steps of other cells leave the cells as they are. -/
theorem stepped_apart {done : List (Step × Int)} (some : done ⊆ reached)
    (apart : ∀ q ∈ reached, q.2 ∉ cells) : ∀ c ∈ cells, m.stepped done c = m c := by
  intro c mem
  refine Memory.stepped_of_notMem fun stepped => ?_
  obtain ⟨q, isDone, rfl⟩ := List.mem_map.1 stepped
  exact apart q (some isDone) mem

namespace Evaluates

theorem settled_value {value : Effect Ref} {r : Ref} {done : List (Step × Int)}
    (perm : (done ++ late).Perm reached) (vars : Forall₂ (Reaches again) pending late)
    (runs : value m = some (r, m.stepped done)) (reads : r.value? rules (m.stepped done) = some w) :
    ∃ all, all.Perm reached ∧ settled rules again value pending m = some (w, m.stepped all) :=
  ⟨_, perm, settled_eq_some.2 ⟨r, _, runs, reads, by rw [steps_of_reaches vars, Memory.stepped_append]⟩⟩

theorem settled (evaluates : Evaluates rules again cells μ m w reached) :
    ∃ all, all.Perm reached ∧
      Meaning.settled rules again (μ.value none) μ.pending m = some (w, m.stepped all) := by
  obtain ⟨r, done, late, perm, vars, runs, reads⟩ := evaluates.value
  exact settled_value perm vars runs (reads _ fun _ _ => rfl)

theorem ofValue {value : Option Int → Effect Ref} {r : Ref} (done : List (Step × Int))
    (perm : (done ++ late).Perm reached) (vars : Forall₂ (Reaches again) pending late)
    (runs : value none m = some (r, m.stepped done))
    (reads : ∀ m', (∀ c ∈ cells, m' c = m.stepped done c) → r.value? rules m' = some w) :
    Evaluates rules again cells (Meaning.ofValue rules again pending value) m w reached where
  value := ⟨r, done, late, perm, vars, runs, reads⟩
  test := by
    obtain ⟨all, perm, settles⟩ := settled_value perm vars runs (reads _ fun _ _ => rfl)
    exact ⟨all, perm, Effect.bind_eq_some.2 ⟨w, _, settles, rfl⟩⟩
  testPending := leak_of_reaches vars

theorem ofTest {test : Effect Bool} {truth : Bool} {all : List (Step × Int)} (perm : all.Perm reached)
    (runs : test m = some (truth, m.stepped all)) :
    Evaluates rules again cells (Meaning.ofTest [] test) m (Word.ofBool truth) reached where
  value := ⟨.temp (Word.ofBool truth), all, [], by rwa [List.append_nil], .nil,
    Effect.bind_eq_some.2 ⟨truth, _, runs, rfl⟩, fun _ _ => rfl⟩
  test := ⟨all, perm, by rw [Word.ofBool_ne_zero]; exact runs⟩
  testPending := rfl

/-- Two operands, one after the other. -/
theorem both (first : Evaluates rules again cells μ m x reached)
    (second : ∀ m', (∀ c ∈ cells', m' c = m c) → Evaluates rules again cells' ν m' y reached')
    (apart : ∀ q ∈ reached, q.2 ∉ cells') (apart' : ∀ q ∈ reached', q.2 ∉ cells) :
    ∃ l m₁ r done late, (done ++ late).Perm (reached ++ reached') ∧
      Forall₂ (Reaches again) (μ.pending ++ ν.pending) late ∧ μ.value none m = some (l, m₁) ∧
      ν.value none m₁ = some (r, m.stepped done) ∧
      (∀ m', (∀ c ∈ cells, m' c = m.stepped done c) → l.value? rules m' = some x) ∧
      ∀ m', (∀ c ∈ cells', m' c = m.stepped done c) → r.value? rules m' = some y := by
  obtain ⟨l, done, late, perm, vars, runs, reads⟩ := first.value
  have isDone : done ⊆ reached := fun _ mem => perm.subset (List.mem_append_left _ mem)
  obtain ⟨r, done', late', perm', vars', runs', reads'⟩ :=
    (second (m.stepped done) (stepped_apart isDone apart)).value
  have isDone' : done' ⊆ reached' := fun _ mem => perm'.subset (List.mem_append_left _ mem)
  refine ⟨l, _, r, done ++ done', late ++ late', ?_, List.rel_append vars vars', runs, ?_, ?_, ?_⟩
  · refine .trans ?_ (perm.append perm')
    rw [List.append_assoc, List.append_assoc]
    exact .append_left _ (List.perm_append_comm_assoc ..)
  · rw [Memory.stepped_append]
    exact runs'
  · intro m' agree
    refine reads m' fun c mem => ?_
    rw [agree c mem, Memory.stepped_append, stepped_apart isDone' apart' c mem]
  · rw [Memory.stepped_append]
    exact reads'

/-- What is evaluated after a test, in the memory that the test leaves. -/
theorem after {α : Type} {effect : Effect α} {result : α} {all : List (Step × Int)}
    (perm : all.Perm reached) (runs : ∃ all', all'.Perm reached' ∧
      effect (m.stepped all) = some (result, (m.stepped all).stepped all')) :
    ∃ all', all'.Perm (reached ++ reached') ∧
      effect (m.stepped all) = some (result, m.stepped all') := by
  obtain ⟨all', perm', runs⟩ := runs
  exact ⟨all ++ all', perm.append perm', by rw [Memory.stepped_append]; exact runs⟩

end Evaluates

end Meaning

section Evaluation

variable {rules : Rules} {again : Node → Meaning.Deed} {t : SlotTable} {left right : Node}

open Meaning (Evaluates Reaches)

/-- An expression in which variables are stepped, each of which stands once in it. -/
structure Node.Steps (again : Node → Meaning.Deed) (t : SlotTable) (n : Node) : Prop where
  bound : n.Bound t
  stepping : n.isStepping = true
  vars : ∀ p ∈ n.postSteps, ∀ x, p.2.var? = some x → Reaches again p (p.1, x.address)
  once : Node.Once n.postSteps n.cells

/-- The same for the operands, of which neither steps what stands in the other. -/
theorem Node.Steps.both (bound : left.Bound t ∧ right.Bound t)
    (stepping : (left.isStepping && right.isStepping) = true)
    (vars : ∀ p ∈ left.postSteps ++ right.postSteps, ∀ x, p.2.var? = some x →
      Reaches again p (p.1, x.address))
    (once : Node.Once (left.postSteps ++ right.postSteps) (left.cells ++ right.cells)) :
    left.Steps again t ∧ right.Steps again t ∧
      (∀ a m, ∀ q ∈ left.reached a m, q.2 ∉ right.cells) ∧
        ∀ a m, ∀ q ∈ right.reached a m, q.2 ∉ left.cells := by
  obtain ⟨steppingL, steppingR⟩ := Bool.and_eq_true_iff.1 stepping
  obtain ⟨varsL, varsR⟩ := List.forall_mem_append.1 vars
  exact ⟨⟨bound.1, steppingL, varsL, once.mono (by simp) (List.sublist_append_left ..)⟩,
    ⟨bound.2, steppingR, varsR, once.mono (by simp) (List.sublist_append_right ..)⟩,
    fun _ => (once.both bound.1 bound.2).1, fun _ => (once.both bound.1 bound.2).2⟩

/-- The evaluation in another memory that has the same words in the variables of the expression. -/
theorem Meaning.Evaluates.moved {n : Node} (stepping : n.isStepping = true)
    (evaluates : ∀ m, Evaluates rules again n.cells (n.meaning rules again) m
      (n.word rules.arithmetic m) (n.reached rules.arithmetic m)) (m m' : Memory)
    (agree : ∀ c ∈ n.cells, m' c = m c) :
    Evaluates rules again n.cells (n.meaning rules again) m' (n.word rules.arithmetic m)
      (n.reached rules.arithmetic m) := by
  obtain ⟨sameWord, sameSteps⟩ := n.word_congr stepping agree
  rw [← sameWord, ← sameSteps]
  exact evaluates m'

/-- The evaluation of an expression in which variables are stepped gives the word that it has, and comes
by the steps that are reached. -/
theorem Node.evaluates (rules : Rules) (n : Node) (steps : n.Steps again t) (m : Memory) :
    Evaluates rules again n.cells (n.meaning rules again) m (n.word rules.arithmetic m)
      (n.reached rules.arithmetic m) := by
  induction n generalizing m with
  | slot s line =>
    have direct : s.offset = none := by simpa [isStepping, Slot.isDirect] using steps.stepping
    show Evaluates _ _ _ _ m (s.value m) []
    rw [meaning]
    cases isLiteral : s.literal? with
    | some w =>
      rw [Slot.value_of_literal isLiteral]
      exact ⟨⟨.literal w, [], [], .refl _, .nil, rfl, fun _ _ => rfl⟩, ⟨[], .refl _, rfl⟩, rfl⟩
    | none =>
      refine .ofValue [] (.refl _) .nil rfl fun m' agree => ?_
      have same : m' s.address = m s.address := agree s.address (by simp [cells])
      rw [Slot.value_of_not_literal isLiteral, Slot.cell_direct direct, ← same]
      unfold Slot.leaf
      rw [direct]
      dsimp only
      split <;> rfl
  | binary op left right line ihL ihR =>
    obtain ⟨stepsL, stepsR, apart, apart'⟩ :=
      Steps.both steps.bound steps.stepping steps.vars steps.once
    obtain ⟨l, m₁, r, done, late, perm, vars, runsL, runsR, readsL, readsR⟩ := (ihL stepsL m).both
      (.moved stepsR.stepping (ihR stepsR) m) (apart _ m) (apart' _ m)
    refine .ofValue done perm vars (Meaning.binary_eq_some.2 ⟨l, m₁, r, _, _, runsL, runsR,
      readsL _ fun _ _ => rfl, .inl ⟨.inl rfl, Meaning.inRegister_eq_some.2
        ⟨_, readsR _ fun _ _ => rfl, rfl, rfl⟩⟩⟩) fun _ _ => rfl
  | unary op operand line ih =>
    cases op with
    | negate | complement =>
      obtain ⟨r, done, late, perm, vars, runs, reads⟩ :=
        (ih ⟨steps.bound, steps.stepping, steps.vars, steps.once⟩ m).value
      exact .ofValue done perm vars (Effect.bind_eq_some.2 ⟨r, _, runs, Effect.bind_eq_some.2
        ⟨_, _, Ref.read_eq_some.2 ⟨reads _ fun _ _ => rfl, rfl⟩, rfl⟩⟩) fun _ _ => rfl
    | not =>
      have evaluates := ih ⟨steps.bound, steps.stepping, steps.vars, steps.once⟩ m
      obtain ⟨all, perm, runs⟩ := evaluates.test
      rw [meaning, evaluates.testPending]
      show Evaluates _ _ _ _ m (Word.ofBool (operand.word rules.arithmetic m == 0)) _
      rw [← Bool.not_not (_ == _)]
      exact .ofTest perm (Effect.bind_eq_some.2 ⟨_, _, runs, rfl⟩)
    | preStep step => exact absurd steps.stepping Bool.false_ne_true
    | postStep step =>
      obtain ⟨x, isVar⟩ := Option.isSome_iff_exists.1 steps.stepping
      have isReached : (unary (.postStep step) operand line).reached rules.arithmetic m =
          [(step, x.address)] := by simp [reached, isVar]
      obtain ⟨runs, none⟩ := meaning_of_var? isVar rules again
      have vars := steps.vars (step, operand) (by simp [postSteps]) x isVar
      rw [isReached, meaning, none, runs]
      refine .ofValue [] (.refl _) (.cons vars .nil) rfl fun m' agree => ?_
      obtain ⟨_, rfl, direct, notLiteral, -⟩ := var?_eq_some isVar
      have same : m' x.address = m x.address := agree x.address (by simp [cells])
      simp [word, Ref.value?, same, Slot.value_of_not_literal notLiteral, Slot.cell_direct direct]
  | compare relation left right line ihL ihR =>
    obtain ⟨stepsL, stepsR, apart, apart'⟩ :=
      Steps.both steps.bound steps.stepping steps.vars steps.once
    obtain ⟨l, m₁, r, done, late, perm, vars, runsL, runsR, readsL, readsR⟩ := (ihL stepsL m).both
      (.moved stepsR.stepping (ihR stepsR) m) (apart _ m) (apart' _ m)
    rw [meaning, Meaning.leak_of_reaches vars]
    refine .ofTest perm (Meaning.relation_eq_some.2 ⟨l, m₁, r, _, _, _, runsL, runsR,
      readsL _ fun _ _ => rfl, readsR _ fun _ _ => rfl, ?_, rfl⟩)
    rw [Meaning.steps_of_reaches vars, Memory.stepped_append]
  | logic connective left right line ihL ihR =>
    obtain ⟨stepsL, stepsR, apart, -⟩ :=
      Steps.both steps.bound steps.stepping steps.vars steps.once
    have first := ihL stepsL m
    obtain ⟨all, perm, runs⟩ := first.test
    obtain ⟨all', perm', runs'⟩ := Evaluates.after perm (Evaluates.moved stepsR.stepping (ihR stepsR) m _
      (Meaning.stepped_apart perm.subset (apart _ m))).test
    have isLogic : (logic connective left right line).meaning rules again = .ofTest []
        (Meaning.shortcut (connective == .or) (left.meaning rules again).test
          (right.meaning rules again).test) := by
      cases connective <;> rw [meaning, first.testPending, (ihR stepsR m).testPending] <;> rfl
    rw [isLogic, word, reached]
    split
    · rename_i decided
      rw [List.append_nil]
      refine .ofTest perm (Meaning.shortcut_eq_some.2 (.inl ⟨?_, decided⟩))
      rw [runs, decided]
    · rename_i open'
      refine .ofTest perm' (Meaning.shortcut_eq_some.2 (.inr ⟨_, ?_, runs'⟩))
      rw [runs, Bool.eq_not.2 open']
  | ternary condition yes no line ihC ihY ihN =>
    obtain ⟨boundC, boundY, boundN⟩ := steps.bound
    obtain ⟨steppingC, stepping⟩ := Bool.and_eq_true_iff.1 steps.stepping
    obtain ⟨steppingY, steppingN⟩ := Bool.and_eq_true_iff.1 stepping
    have vars := steps.vars
    have once := steps.once
    rw [postSteps] at vars once
    have branch : ∀ n ∈ [yes, no], n.Bound t → n.isStepping = true →
        condition.Steps again t ∧ n.Steps again t ∧
          ∀ a m, ∀ q ∈ condition.reached a m, q.2 ∉ n.cells := by
      intro n mem bound stepping
      have fewer : condition.postSteps ++ n.postSteps ⊆
          condition.postSteps ++ (yes.postSteps ++ no.postSteps) := by
        rcases List.mem_pair.1 mem with rfl | rfl <;> simp
      have sub : (condition.cells ++ n.cells).Sublist (condition.cells ++ (yes.cells ++ no.cells)) := by
        rcases List.mem_pair.1 mem with rfl | rfl <;> simp
      obtain ⟨stepsC, stepsN, apart, -⟩ := Steps.both ⟨boundC, bound⟩
        (Bool.and_eq_true_iff.2 ⟨steppingC, stepping⟩) (fun p mem => vars p (fewer mem))
        (once.mono fewer sub)
      exact ⟨stepsC, stepsN, apart⟩
    obtain ⟨stepsC, stepsY, apartY⟩ := branch yes (by simp) boundY steppingY
    obtain ⟨-, stepsN, apartN⟩ := branch no (by simp) boundN steppingN
    have first := ihC stepsC m
    obtain ⟨all, perm, runs⟩ := first.test
    obtain ⟨_, _, _, -, varsY, -⟩ := (ihY stepsY m).value
    obtain ⟨_, _, _, -, varsN, -⟩ := (ihN stepsN m).value
    rw [meaning, first.testPending, Meaning.leak_of_reaches varsY, Meaning.leak_of_reaches varsN, word,
      reached]
    split
    · rename_i taken
      obtain ⟨all', perm', runs'⟩ := Evaluates.after perm (Evaluates.moved steppingY (ihY stepsY) m _
        (Meaning.stepped_apart perm.subset (apartY _ m))).settled
      exact .ofValue all' (by rwa [List.append_nil]) .nil (Effect.bind_eq_some.2
        ⟨true, _, taken ▸ runs, Effect.bind_eq_some.2 ⟨_, _, runs', rfl⟩⟩) fun _ _ => rfl
    · rename_i notTaken
      obtain ⟨all', perm', runs'⟩ := Evaluates.after perm (Evaluates.moved steppingN (ihN stepsN) m _
        (Meaning.stepped_apart perm.subset (apartN _ m))).settled
      exact .ofValue all' (by rwa [List.append_nil]) .nil (Effect.bind_eq_some.2
        ⟨false, _, Bool.eq_false_iff.2 notTaken ▸ runs, Effect.bind_eq_some.2 ⟨_, _, runs', rfl⟩⟩) fun _ _ => rfl
  | _ => exact absurd steps.stepping Bool.false_ne_true

/-- The same for a binary operation that is computed in a variable, if the right operand does not
mention it. -/
theorem Node.evaluates_into {n : Node} {a : Int} (steps : n.Steps again t) (m : Memory)
    (isRight : n.right? = some right) (notMentions : right.mentions a = false) :
    ∃ r m₁ done late, (done ++ late).Perm (n.reached rules.arithmetic m) ∧
      Forall₂ (Reaches again) (n.meaning rules again).pending late ∧
      (n.meaning rules again).value (some a) m = some (r, m₁) ∧
      r.value? rules m₁ = some (n.word rules.arithmetic m) ∧
      ∀ w, m₁.set a w = (m.stepped done).set a w := by
  cases n with
  | binary op left right line =>
    obtain rfl := Option.some.inj isRight
    obtain ⟨stepsL, stepsR, apart, apart'⟩ :=
      Steps.both steps.bound steps.stepping steps.vars steps.once
    obtain ⟨l, m₁, r, done, late, perm, vars, runsL, runsR, readsL, readsR⟩ :=
      (left.evaluates rules stepsL m).both (.moved stepsR.stepping (right.evaluates rules stepsR) m)
        (apart _ m) (apart' _ m)
    have valueL := readsL _ fun _ _ => rfl
    have valueR := readsR _ fun _ _ => rfl
    rw [value_binary]
    cases temp : Meaning.anyTemp op l r with
    | true =>
      exact ⟨_, _, done, late, perm, vars, Meaning.binary_eq_some.2 ⟨l, m₁, r, _, _, runsL, runsR, valueL,
        .inl ⟨.inr temp, Meaning.inRegister_eq_some.2 ⟨_, valueR, rfl, rfl⟩⟩⟩, rfl, fun _ => rfl⟩
    | false =>
      have valueR' := readsR ((m.stepped done).set a (left.word rules.arithmetic m)) fun c mem =>
        Memory.set_of_ne (by rintro rfl; simp [mentions_of_mem right mem] at notMentions) ..
      refine ⟨.cell a, _, done, late, perm, vars, Meaning.binary_eq_some.2 ⟨l, m₁, r, _, _, runsL, runsR,
        valueL, .inr ⟨a, rfl, temp, Meaning.inVariable_eq_some.2 ⟨fun _ => ?_, _, valueR', rfl, rfl⟩⟩⟩,
          by simp [Ref.value?, word], by simp⟩
      rw [Meaning.Undisturbed, valueR, valueR']
  | _ => cases isRight

/-- The effect of an assignment of an expression in which variables are stepped. -/
theorem Node.effect_stepping {target value : Node} {x : Slot} (line : Nat) (isVar : target.var? = some x)
    (bound : value.Bound t) (stepping : value.isStepping = true)
    (once : Node.Once value.postSteps (x.address :: value.cells)) (m : Memory) :
    ∃ all, all.Perm (value.reached rules.arithmetic m) ∧ x.address ∉ all.map (·.2) ∧
      (assign none target value line).effect rules m =
        some ((), (m.stepped all).set x.address (value.word rules.arithmetic m)) := by
  let whole := assign none target value line
  let again := deedBelow rules whole.postDepth
  have vars : ∀ p ∈ value.postSteps, ∀ x, p.2.var? = some x → Reaches again p (p.1, x.address) := by
    intro p mem x isVar
    have deep := whole.postDepth_of_postStep p (List.mem_append_right _ mem)
    obtain ⟨depth, isDepth⟩ := Nat.exists_eq_succ_of_ne_zero (Nat.ne_of_gt (Nat.zero_lt_of_lt deep))
    have isVar' := meaning_of_var? isVar rules (deedBelow rules depth)
    refine ⟨x, isVar, rfl, ?_⟩
    show (deedBelow rules whole.postDepth p.2).run = _ ∧ (deedBelow rules whole.postDepth p.2).pending = _
    rw [isDepth]
    exact ⟨isVar'.1 none, isVar'.2⟩
  have steps : value.Steps again t :=
    ⟨bound, stepping, vars, once.mono (List.Subset.refl _) (List.sublist_cons_self ..)⟩
  have isTarget := meaning_of_var? isVar rules again
  -- wherever the value is computed, the variable is assigned after that
  obtain ⟨r, m₁, done, late, perm, puts, runs, reads, same⟩ : ∃ r m₁ done late,
      (done ++ late).Perm (value.reached rules.arithmetic m) ∧
      Forall₂ (Reaches again) (value.meaning rules again).pending late ∧
      (value.meaning rules again).value
        (Meaning.early rules value.right? value.hasCall (.cell x.address)) m = some (r, m₁) ∧
      r.value? rules m₁ = some (value.word rules.arithmetic m) ∧
      ∀ w, m₁.set x.address w = (m.stepped done).set x.address w := by
    cases isEarly : Meaning.early rules value.right? value.hasCall (.cell x.address) with
    | none =>
      obtain ⟨r, done, late, perm, puts, runs, reads⟩ := (value.evaluates rules steps m).value
      exact ⟨r, _, done, late, perm, puts, runs, reads _ fun _ _ => rfl, fun _ => rfl⟩
    | some a =>
      obtain ⟨-, isCell, right, isRight, notMentions⟩ := Meaning.early_eq_some isEarly
      cases isCell
      exact evaluates_into steps m isRight notMentions
  have apart : x.address ∉ (done ++ late).map (·.2) := by
    intro stepped
    obtain ⟨q, mem, isX⟩ := List.mem_map.1 stepped
    obtain ⟨p, found, y, isVarY, rfl, -⟩ := mem_postSteps_of_reached value bound (perm.subset mem)
    have isX : y.address = x.address := isX
    have here : y.address ∈ value.cells :=
      value.reached_sublist.subset (List.mem_map_of_mem (perm.subset mem))
    have atMost := once p found y isVarY
    rw [isX, List.count_cons_self] at atMost
    exact absurd (List.count_pos_iff.2 (isX ▸ here)) (by omega)
  have pending : (whole.means rules).pending = (value.meaning rules again).pending := by
    show (target.meaning rules again).pending ++ _ = _
    rw [isTarget.2]
    rfl
  have puts' : Forall₂ (Reaches (deed rules)) (whole.means rules).pending late := by
    rw [pending]
    refine puts.imp ?_
    rintro p q ⟨y, isVarY, isY, -⟩
    obtain ⟨runs, none⟩ := meaning_of_var? isVarY rules (deedBelow rules p.2.postDepth)
    exact ⟨y, isVarY, isY, runs _, none⟩
  refine ⟨done ++ late, perm, apart, Effect.bind_eq_some.2 ⟨.cell x.address, _,
    Meaning.assign_eq_some.2 ⟨m, r, m₁, _, by rw [isTarget.1]; rfl, runs, reads, rfl⟩, ?_⟩⟩
  rw [Meaning.steps_of_reaches puts', same, Memory.stepped_append, Memory.stepped_set]
  exact fun stepped => apart (by simpa using .inr (by simpa using stepped))

end Evaluation

/-- An assignment of an expression in which variables are stepped after their use. If each of these
stands once in the whole assignment, the variable is assigned the word of the expression in the memory
at the start, the steps that the evaluation comes by are done once, and nothing else changes. -/
theorem Codegen.stepping_assignment {t : SlotTable} {ctx : Context} {tokens : List Token}
    {line line' : Nat} {target value : Node} {M : Machine} {st s : State} {code : List Instr}
    {m : Memory} {x : Slot} (laid : t.Laid) (small : t.Small)
    (isPhrase : (ctx.names t).phrase tokens line =
      .ok (some (.value (.assign none target value line'))))
    (isVar : target.var? = some x) (stepping : value.isStepping = true)
    (once : Node.Once value.postSteps (x.address :: value.cells))
    (valid : st.Valid) (interns : t.Interns st.table) (settled : st.deferred = [])
    (done : phrase tokens false line ctx st = .done () code s) (hosts : M.Hosts s) (fixed : M.Fixed m) :
    ∃ mm, M.Leads code none m mm ∧ mm x.address = value.word M.arithmetic m ∧
      (∀ p ∈ value.reached M.arithmetic m, mm p.2 = p.1.apply (m p.2)) ∧
      ∀ a, a ≠ x.address → a ∉ (value.reached M.arithmetic m).map (·.2) → ¬ M.IsRegister a →
        mm a = m a := by
  obtain ⟨bound, internsS, openX, run⟩ := assignment_leads laid small isPhrase isVar
    (value.hasCall_of_isStepping stepping) valid interns settled done hosts fixed
  obtain ⟨all, perm, apart, means⟩ := Node.effect_stepping line' isVar bound.2 stepping once m
  obtain ⟨mm, leads, agrees⟩ := run _ means
  have reached : (value.reached (M.rules ctx.settings.reuse).arithmetic m) =
      value.reached M.arithmetic m := rfl
  rw [reached] at perm
  refine ⟨mm, leads, ?_, fun p mem => ?_, fun a notX notStepped notRegister => ?_⟩
  · rw [agrees _ openX.not_isRegister, Memory.set_self]
    rfl
  · obtain ⟨q, found, y, isVarY, rfl, boundY⟩ := Node.mem_postSteps_of_reached value bound.2 mem
    obtain ⟨isVariable, kind⟩ := Node.kind_of_var? isVarY boundY
    have openY := hosts.open_of_kind (isVariable.stored.mono internsS) kind
    have nodup : (all.map (·.2)).Nodup := (perm.map _).nodup_iff.2
      ((once.mono (List.Subset.refl _) (List.sublist_cons_self ..)).nodup bound.2 m)
    have notX : y.address ≠ x.address := fun same =>
      apart (List.mem_map.2 ⟨_, perm.symm.subset mem, same⟩)
    rw [agrees _ openY.not_isRegister, Memory.set_of_ne notX]
    exact Memory.stepped_of_mem nodup (perm.symm.subset mem)
  · rw [agrees a notRegister, Memory.set_of_ne notX]
    exact Memory.stepped_of_notMem fun stepped => notStepped ((perm.map _).subset stepped)

namespace Sample

def stepping : String := "long x, y, z, u; void main(void) \x7b x = y++ - (z && u--); \x7d"

/-- The variable `y` is 5, `z` is 0 and `u` is 8. -/
def five : Memory := fun a => [0, 0, 0, 1, 5, 0, 8].getD a.toNat 0

def steppingHolds (target value : Node) (M : Machine) : Bool :=
  (target.var?.map (·.address) == some 3) && value.isStepping &&
  decide (Node.Once value.postSteps (3 :: value.cells) ∧ M.Fixed five ∧ ¬ M.IsRegister 6 ∧
    value.word M.arithmetic five = 5 ∧ value.reached M.arithmetic five = [(.up, 4)])

theorem assigns_stepping : Assigns stepping "x = y++ - (z && u--)" steppingHolds := by
  decide +kernel

end Sample

/-- The step of `y` is reached, and that of `u` is not. -/
theorem Codegen.stepping_assignment_half : ∃ (c : Contract) (tokens : List Token) (code : List Instr)
    (s : State) (mm : Memory), Contract.read Sample.stepping {} = .ok c ∧
    tokenize "x = y++ - (z && u--)" = .ok tokens ∧
    phrase tokens false 1 (Sample.context c) (.ofLayout c.layout) = .done () code s ∧
    (⟨Sample.arithmetic, s.table, code⟩ : Machine).Leads code none Sample.five mm ∧
    mm 3 = 5 ∧ mm 4 = 6 ∧ mm 6 = 8 := by
  obtain ⟨c, tokens, target, value, line, code, s, isContract, isTokens, isPhrase, done, laid, small,
    valid, hosts, holds⟩ := Sample.assigns_stepping.parts
  simp only [Sample.steppingHolds, Bool.and_eq_true, decide_eq_true_eq, beq_iff_eq,
    Option.map_eq_some_iff] at holds
  obtain ⟨⟨⟨x, isVar, isX⟩, stepping⟩, once, fixed, notRegister, isWord, isReached⟩ := holds
  rw [← isX] at once
  obtain ⟨mm, leads, atX, stepped, kept⟩ := Codegen.stepping_assignment laid small isPhrase isVar
    stepping once valid (.refl _) rfl done hosts fixed
  rw [isReached] at stepped kept
  refine ⟨c, tokens, code, s, mm, isContract, isTokens, done, leads, ?_, stepped (.up, 4) (by simp), ?_⟩
  · rw [← isX, atX, isWord]
  · exact kept 6 (by simp [isX]) (by simp) notRegister

end ContractCompiler
