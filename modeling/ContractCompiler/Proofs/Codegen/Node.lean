import ContractCompiler.Proofs.Codegen.Value

/-!
# Proofs.Codegen.Node — the code of expressions does what expressions mean

Every expression without calls is compiled to code with the effect that the expression means, both for
its value and for a jump on its truth (`Node.plan_simulates`, `Node.code_simulates`).
-/

namespace ContractCompiler

set_option autoImplicit false

open Codegen (State Context)

/-! ## Leaves -/

section Leaf

variable {M : Machine} {t : SlotTable} {st : State} {s : Slot}

/-- A variable that is named in an expression fits wherever the expression is compiled. -/
theorem Slot.Bound.fits (bound : s.Bound t) (valid : st.Valid) (interns : t.Interns st.table) :
    Operand.Fits st ⟨s, []⟩ := by
  rcases bound with ⟨isLiteral, direct⟩ | ⟨stored, notRegister, -, away, -, -⟩
  · refine ⟨.inl ⟨isLiteral, direct⟩, fun a uses isRegister => ?_⟩
    rcases uses with rfl | offset
    · obtain ⟨r, listed, same⟩ := Pool.isRegister_iff.1 isRegister
      rw [valid.pool] at listed
      obtain ⟨mem, register⟩ := SlotTable.mem_registers.1 listed
      exact absurd (same.trans (kind_of_literal? isLiteral).2)
        (valid.table.address_ne_nowhere mem (by simp [register]))
    · simp [direct] at offset
  · refine ⟨.inr ⟨stored.mono interns, fun a offset => ?_⟩, fun a uses isRegister => ?_⟩
    · obtain ⟨s₁, mem, hasCell, -, -, same⟩ := away a offset
      exact ⟨s₁, interns.mem mem, hasCell, same⟩
    · rcases uses with rfl | offset
      · exact absurd ((isRegister_iff_kind valid (stored.mono interns)).1 isRegister) notRegister
      · obtain ⟨s₁, mem, hasCell, notRegister₁, -, rfl⟩ := away a offset
        exact absurd ((valid.isRegister_iff (interns.mem mem) hasCell).1 isRegister) notRegister₁

/-- A variable stands for the reference that it means. -/
theorem Slot.Bound.ref (bound : s.Bound t) (notLiteral : s.literal? = none)
    (interns : t.Interns st.table) (hosts : M.Hosts st) (mm : Memory) : M.ref mm s = s.leaf := by
  obtain ⟨stored, notRegister, notConstant, away, -, -⟩ := bound.resolve_left (by simp [notLiteral])
  have hasCell := stored.kind_ne_struct
  have source : s.source mm =
      if s.kind = .array then .array s.address s.initial else .cell s.address := by
    unfold Slot.source
    cases kind : s.kind <;> simp_all
  unfold Machine.ref Slot.leaf
  simp only [notLiteral]
  cases offset : s.offset with
  | none => cases kind : s.kind <;> simp_all
  | some distance =>
    cases distance with
    | fixed distance => simp only [source]
    | dynamic a =>
      obtain ⟨s₁, mem, hasCell₁, notRegister₁, notConstant₁, rfl⟩ := away a offset
      have found := hosts.sourceAt_eq (.of_mem (interns.mem mem) hasCell₁) mm
      have plain : (s₁.source mm).plain = .cell s₁.address := by
        unfold Slot.source
        cases kind : s₁.kind <;> simp_all [Source.plain]
      simp only [source, found, plain]

end Leaf

/-! ## Expressions -/

/-- The targets of steps that are put off while targets are evaluated are bound as well. -/
def Meaning.Contained (t : SlotTable) (again : Node → Meaning.Deed) : Prop :=
  ∀ n : Node, n.Bound t → ∀ p ∈ (again n).pending, p.2.Bound t

theorem Meaning.Contained.leak {t : SlotTable} {again : Node → Meaning.Deed}
    {pending : List (Step × Node)} (contained : Meaning.Contained t again)
    (bound : ∀ p ∈ pending, p.2.Bound t) : ∀ p ∈ Meaning.leak again pending, p.2.Bound t := by
  intro p mem
  obtain ⟨q, listed, mem⟩ := List.mem_flatMap.1 mem
  exact contained q.2 (bound q listed) p mem

/-- A plan has the effect that a meaning has. -/
structure Plan.Simulates (M : Machine) (t : SlotTable) (ctx : Context) (plan : Plan)
    (meaning : Meaning) : Prop where
  value : ∀ dest : Option Slot, (∀ s ∈ dest, s.Assignable t) →
    Codegen.Evaluates M t ctx (plan.value dest) (meaning.value (dest.map (·.address)))
      meaning.pending
  jump : Codegen.Tests M t ctx plan.jump meaning.test meaning.testPending
  pending : ∀ p ∈ meaning.pending, p.2.Bound t
  testPending : ∀ p ∈ meaning.testPending, p.2.Bound t

namespace Plan.Simulates

variable {M : Machine} {rules : Rules} {t : SlotTable} {ctx : Context}
  {eval : Node → Codegen Operand} {again : Node → Meaning.Deed} {line : Nat} {plan : Plan}
  {meaning : Meaning}

theorem value_none (simulates : plan.Simulates M t ctx meaning) :
    Codegen.Evaluates M t ctx (plan.value none) (meaning.value none) meaning.pending :=
  simulates.value none (by simp)

/-- A node that is compiled for its value. -/
theorem ofValue {value : Option Slot → Codegen Operand} {effect : Option Int → Effect Ref}
    {pending : List (Step × Node)} (obeys : M.Obeys rules)
    (repeats : Codegen.Repeats M t ctx eval again) (contained : Meaning.Contained t again)
    (bound : ∀ p ∈ pending, p.2.Bound t)
    (evaluates : ∀ dest : Option Slot, (∀ s ∈ dest, s.Assignable t) →
      Codegen.Evaluates M t ctx (value dest) (effect (dest.map (·.address))) pending) :
    (Plan.ofValue eval line value).Simulates M t ctx
      (Meaning.ofValue rules again pending effect) where
  value := evaluates
  jump := Codegen.tests_value obeys repeats bound (evaluates none (by simp))
  pending := bound
  testPending := contained.leak bound

/-- A node that is compiled for a jump. -/
theorem ofJump {jump : String → Bool → Codegen Unit} {test : Effect Bool}
    {pending : List (Step × Node)} (bound : ∀ p ∈ pending, p.2.Bound t)
    (tests : Codegen.Tests M t ctx jump test pending) :
    (Plan.ofJump line jump).Simulates M t ctx (Meaning.ofTest pending test) where
  value _ _ := Codegen.evaluates_truth tests
  jump := tests
  pending := bound
  testPending := bound

theorem ofLiteral {s : Slot} {w : Word} (bound : s.Bound t) (isLiteral : s.literal? = some w) :
    (Plan.ofLiteral s w).Simulates M t ctx (Meaning.ofLiteral w) where
  value _ _ := by
    intro st valid interns
    refine .pure ⟨.refl valid, bound.fits valid interns, fun hosts {m m' mm ref} ready done => ?_⟩
    obtain ⟨rfl, rfl⟩ := Effect.pure_eq_some.1 done
    exact ⟨mm, .nil mm, ready, .refl st mm, Machine.ref_literal isLiteral⟩
  jump := Codegen.tests_literal w
  pending := by simp [Meaning.ofLiteral]
  testPending := by simp [Meaning.ofLiteral]

end Plan.Simulates

namespace Node

variable {M : Machine} {rules : Rules} {t : SlotTable} {ctx : Context}
  {eval : Node → Codegen Operand} {again : Node → Meaning.Deed}

/-- The plan of a node has the effect that the node means, if the targets of put-off steps are
evaluated as they mean. -/
theorem plan_simulates (obeys : M.Obeys rules)
    (reuse : ctx.settings.reuseAssignedVar = (rules.reuse != .never))
    (repeats : Codegen.Repeats M t ctx eval again) (contained : Meaning.Contained t again) (n : Node)
    (bound : n.Bound t) : (n.plan eval).Simulates M t ctx (n.meaning rules again) := by
  induction n with
  | slot s line =>
    rw [plan, meaning]
    cases isLiteral : s.literal? with
    | some w => exact .ofLiteral bound isLiteral
    | none =>
      refine .ofValue obeys repeats contained (by simp) fun _ _ => ?_
      intro st valid interns
      refine .pure ⟨.refl valid, Slot.Bound.fits bound valid interns,
        fun hosts {m m' mm ref} ready done => ?_⟩
      obtain ⟨rfl, rfl⟩ := Effect.pure_eq_some.1 done
      exact ⟨mm, .nil mm, ready, .refl st mm, Slot.Bound.ref bound isLiteral interns hosts mm⟩
  | deref base type line ih =>
    rw [plan, meaning]
    have ih := ih bound
    exact .ofValue obeys repeats contained ih.pending fun _ _ =>
      Codegen.evaluates_deref obeys ih.value_none
  | lookup base index type line ihB ihI =>
    rw [plan, meaning]
    have ihB := ihB bound.1
    have ihI := ihI bound.2
    refine .ofValue obeys repeats contained ?_ fun _ _ =>
      Codegen.evaluates_lookup obeys ihB.value_none ihI.value_none
    refine List.forall_mem_append.2 ⟨ihB.pending, ?_⟩
    split
    · simp
    · exact ihI.pending
  | assign op target value line ihT ihV =>
    have ihT := ihT bound.1
    have ihV := ihV bound.2
    have pending := List.forall_mem_append.2 ⟨ihT.pending, ihV.pending⟩
    cases op with
    | none =>
      rw [plan, meaning]
      exact .ofValue obeys repeats contained pending fun _ _ =>
        Codegen.evaluates_assign obeys reuse ihT.value_none ihV.value
    | some op =>
      rw [plan, meaning]
      exact .ofValue obeys repeats contained pending fun _ _ =>
        Codegen.evaluates_operate obeys ihT.value_none ihV.value_none
  | binary op left right line ihL ihR =>
    rw [plan, meaning]
    have ihL := ihL bound.1
    have ihR := ihR bound.2
    exact .ofValue obeys repeats contained (List.forall_mem_append.2 ⟨ihL.pending, ihR.pending⟩)
      fun _ assignable => Codegen.evaluates_binary obeys assignable ihL.value_none ihR.value_none
  | unary op operand line ih =>
    have ih := ih bound
    cases op with
    | negate =>
      rw [plan, meaning]
      exact .ofValue obeys repeats contained ih.pending fun _ _ =>
        Codegen.evaluates_negate obeys ih.value_none
    | complement =>
      rw [plan, meaning]
      exact .ofValue obeys repeats contained ih.pending fun _ _ =>
        Codegen.evaluates_complement obeys ih.value_none
    | not =>
      rw [plan, meaning]
      exact .ofJump ih.testPending (Codegen.tests_not ih.jump)
    | preStep step =>
      rw [plan, meaning]
      exact .ofValue obeys repeats contained ih.pending fun _ _ =>
        Codegen.evaluates_preStep obeys ih.value_none
    | postStep step =>
      rw [plan, meaning]
      exact .ofValue obeys repeats contained (List.forall_mem_cons.2 ⟨bound, ih.pending⟩)
        fun _ _ => Codegen.evaluates_postStep ih.value_none
  | compare relation left right line ihL ihR =>
    rw [plan, meaning]
    have ihL := ihL bound.1
    have ihR := ihR bound.2
    have pending := List.forall_mem_append.2 ⟨ihL.pending, ihR.pending⟩
    exact .ofJump (contained.leak pending)
      (Codegen.tests_relation obeys repeats pending ihL.value_none ihR.value_none)
  | logic connective left right line ihL ihR =>
    have ihL := ihL bound.1
    have ihR := ihR bound.2
    have pending := List.forall_mem_append.2 ⟨ihL.testPending, ihR.testPending⟩
    cases connective with
    | and =>
      rw [plan, meaning]
      exact .ofJump pending (Codegen.tests_both ihL.jump ihR.jump)
    | or =>
      rw [plan, meaning]
      exact .ofJump pending (Codegen.tests_either ihL.jump ihR.jump)
  | ternary condition yes no line ihC ihY ihN =>
    rw [plan, meaning]
    have ihC := ihC bound.1
    have ihY := ihY bound.2.1
    have ihN := ihN bound.2.2
    refine .ofValue obeys repeats contained ?_ fun _ _ =>
      Codegen.evaluates_ternary obeys repeats ihY.pending ihN.pending ihC.jump ihY.value_none
        ihN.value_none
    exact List.forall_mem_append.2 ⟨ihC.testPending, List.forall_mem_append.2
      ⟨contained.leak ihY.pending, contained.leak ihN.pending⟩⟩
  | call _ _ _ _ => exact bound.elim
  | host _ _ _ => exact bound.elim

/-- What is evaluated once more means the same again. -/
theorem evalBelow_repeats (obeys : M.Obeys rules)
    (reuse : ctx.settings.reuseAssignedVar = (rules.reuse != .never)) (depth : Nat) :
    Codegen.Repeats M t ctx (evalBelow depth) (deedBelow rules depth) ∧
      Meaning.Contained t (deedBelow rules depth) := by
  induction depth with
  | zero => exact ⟨fun _ _ _ _ _ => .fail _, fun _ _ => by simp [deedBelow]⟩
  | succ depth ih =>
    have simulates := fun n bound => plan_simulates obeys reuse ih.1 ih.2 n bound
    exact ⟨fun n bound => (simulates n bound).value_none, fun n bound => (simulates n bound).pending⟩

/-- The code of a node has the effect that the node means. -/
theorem code_simulates (obeys : M.Obeys rules)
    (reuse : ctx.settings.reuseAssignedVar = (rules.reuse != .never)) {n : Node}
    (bound : n.Bound t) : n.code.Simulates M t ctx (n.means rules) :=
  have ⟨repeats, contained⟩ := evalBelow_repeats obeys reuse n.postDepth
  plan_simulates obeys reuse repeats contained n bound

end Node

end ContractCompiler
