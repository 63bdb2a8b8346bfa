import ContractCompiler.Codegen.Sentence
import ContractCompiler.Proofs.Codegen.Made.Operation

/-!
# Proofs.Codegen.Made.Node — what the code of expressions is made of

The parts of an expression take the registers that their values name, and no other: what was taken for
the operands of an operator is given back, or goes over to its value. A jump, an effect and the steps that
were put off take none. The targets of such steps are evaluated again, where steps after a use are nested
less deep, so that the bound on their depth is never used up. So the plans of all nodes that fit the world
are made as `Codegen.Made` says, and so are the commands of phrases.
-/

namespace ContractCompiler

set_option autoImplicit false

namespace Codegen

variable {W : World} {C : Prop} {d k : Nat} {line : Nat} {n : Node}

/-! ## Jumps -/

section Steps

variable {eval : Node → Codegen Operand}
  (evalMade : ∀ {C : Prop} {k : Nat} {n : Node}, W.Later d n → Gives W C d k n (eval n))
  (atLine : W.inside line)
include evalMade atLine

theorem doSteps_made {steps : List (Step × Node)} (later : ∀ p ∈ steps, W.Later d p.2) :
    Works W C d k (doSteps eval line steps) := by
  induction steps generalizing C with
  | nil => exact .done
  | cons first rest ih =>
    obtain ⟨laterFirst, laterRest⟩ := List.forall_mem_cons.1 later
    exact .bind (evalMade laterFirst) fun _ =>
      .next (.step (update_made atLine _ fun known => known.2.toReads)) fun _ =>
      .next (.release (.refl _)) fun _ => ih laterRest

/-- All the steps that were put off since a mark may be done. -/
theorem applyDeferred_made : Works W C d k (applyDeferred eval k line) :=
  .takeDeferred fun _ later => doSteps_made evalMade atLine later

theorem jumpOnValue_made {value : Codegen Operand} (valueMade : ∀ {C k}, Gives W C d k n value)
    (target : String) (when : Bool) : Works W C d k (jumpOnValue eval value line target when) := by
  have finish : ∀ {C k} (o : Operand), (C → W.Reads o.slot) → Made W C d k o.holds [] none (fun _ => [])
      (fun _ => True)
      (compare (if when then .ne else .eq) o.slot none target line >>= fun _ => release o.holds) := by
    refine fun o reads => .next (.step (compare_made atLine _ _ reads (by simp) fun _ _ => ?_)) fun _ =>
      .release (.refl _)
    cases when <;> simp
  refine .mark fun mark => .bind valueMade fun o => .next .deferredCount fun count => ?_
  dsimp only
  split
  · exact .bind (.pure (.refl _) fun known => known.2.toReads) fun o => finish o And.right
  · exact .bind (protect_made atLine [] fun known => known.2.toReads) fun o =>
      .next (.stepPart (applyDeferred_made evalMade atLine)) fun _ =>
      .bind (.pure (.refl _) fun known => known.2) fun o => finish o And.right

theorem jumpOnRelation_made {relation : Relation} {left right : Codegen Operand} {n' : Node}
    (leftMade : ∀ {C k}, Gives W C d k n left) (rightMade : ∀ {C k}, Gives W C d k n' right)
    (target : String) (when : Bool) :
    Works W C d k (jumpOnRelation eval relation left right line target when) := by
  have finish : ∀ {C k} (p : Operand × Operand), (C → W.Reads p.1.slot ∧ W.Reads p.2.slot) →
      Made W C d k (p.1.holds ++ p.2.holds) [] none (fun _ => []) (fun _ => True)
      (compare (if when then relation else relation.negate) p.1.slot (some p.2.slot) target line >>=
        fun _ => release (p.1.holds ++ p.2.holds)) := by
    refine fun p reads => .next (.step (compare_made atLine _ _ (fun known => (reads known).1)
      (fun known s isRight => ?_) (by simp))) fun _ => .release (.refl _)
    exact Option.some.inj isRight ▸ (reads known).2
  refine .mark fun mark => .bind leftMade fun l => .bind (.takePart rightMade) fun r =>
    .next .deferredCount fun count => ?_
  dsimp only
  split
  · exact .bind (.pure (.refl _) fun known => ⟨known.1.2.toReads, known.2.toReads⟩) fun p => finish p And.right
  · -- each operand is brought into a register while the other one is held
    exact .bind (.regroup List.perm_append_comm (protect_made atLine r.holds fun known => known.1.2.toReads)) fun l =>
      .bind (.regroup List.perm_append_comm (protect_made atLine l.holds fun known => known.1.2.toReads)) fun r =>
      .next (.stepPart (applyDeferred_made evalMade atLine)) fun _ =>
      .bind (.pure (.refl _) fun known => ⟨known.1.2, known.2⟩) fun p => finish p And.right

theorem ternaryArm_made {value : Codegen Operand} (valueMade : ∀ {C k}, Gives W C d k n value)
    {result : Slot} (writes : C → W.Reads result) : Works W C d k (ternaryArm eval value result line) :=
  .mark fun _ => .bind valueMade fun _ =>
    .next (.step (assign_made atLine (fun known => writes known.1) fun known => known.2.toReads)) fun _ =>
    .next (.release (.refl _)) fun _ => applyDeferred_made evalMade atLine

theorem ternaryValue_made {condition : String → Bool → Codegen Unit} {yes no : Codegen Operand} {n' n'' : Node}
    (conditionMade : ∀ {C k} label when, Works W C d k (condition label when))
    (yesMade : ∀ {C k}, Gives W C d k n yes) (noMade : ∀ {C k}, Gives W C d k n' no) :
    Gives W C d k n'' (ternaryValue eval condition yes no line) :=
  .labelId [.ternaryElse, .ternaryEnd] (by decide) fun _ => .next (conditionMade _ _) fun _ =>
    .bind (.owed (.allocate atLine)) fun _ =>
    .next (.stepPart (ternaryArm_made evalMade atLine yesMade fun known => known.2.1.reads)) fun _ =>
    .next (.line rfl rfl) fun _ =>
    .label (.next (.stepPart (ternaryArm_made evalMade atLine noMade fun known => known.2.1.reads)) fun _ =>
      .label (.pure (.refl _) fun known => World.Writes.value known.2.writes))

end Steps

section Connectives

variable {left right : String → Bool → Codegen Unit}
  (leftMade : ∀ {C k} label when, Works W C d k (left label when))
include leftMade

theorem jumpOnBoth_made (rightMade : ∀ {C k} label when, Works W C d k (right label when))
    (line : Nat) (target : String) (when : Bool) : Works W C d k (jumpOnBoth left right line target when) := by
  unfold jumpOnBoth
  split
  · exact .labelId [.andNext] (by decide) fun _ => .next (leftMade _ _) fun _ => .next (rightMade _ _) fun _ =>
      .lastLabel
  · exact .next (leftMade _ _) fun _ => rightMade _ _

theorem jumpOnEither_made (rightMade : ∀ {C k} label when, Works W C d k (right label when))
    (line : Nat) (target : String) (when : Bool) : Works W C d k (jumpOnEither left right line target when) := by
  unfold jumpOnEither
  split
  · exact .next (leftMade _ _) fun _ => rightMade _ _
  · exact .labelId [.orNext] (by decide) fun _ => .next (leftMade _ _) fun _ => .next (rightMade _ _) fun _ =>
      .lastLabel

theorem truth_made (atLine : W.inside line) : Gives W C d k n (truth left line) :=
  .labelId [.truthFalse, .truthEnd] (by decide) fun _ => .next (leftMade _ _) fun _ =>
    .bind (.owed (.allocate atLine)) fun _ =>
    .next (.step (assign_made atLine (fun known => known.2.1.reads) fun _ => .literal 1)) fun _ =>
    .next (.line rfl rfl) fun _ =>
    .label (.next (.emit rfl fun known => List.forall_mem_singleton.2 known.2.1.named) fun _ =>
      .label (.pure (.refl _) fun known => World.Writes.value known.2.writes))

end Connectives

/-! ## Values -/

section Values

variable {n' : Node} (atLine : W.inside line) {operand : Codegen Operand}
  (operandMade : ∀ {C k}, Gives W C d k n operand)
include atLine operandMade

theorem binaryValue_made {op : BinaryOp} {right : Codegen Operand} {n'' : Node}
    (rightMade : ∀ {C k}, Gives W C d k n' right) {dest : Option Slot}
    (writes : C → ∀ s, dest = some s → W.Writes s) :
    Gives W C d k n'' (binaryValue op operand right dest line) := by
  have finish : ∀ {C} (p : Operand × Operand), (C → W.Writes p.1.slot ∧ W.Reads p.2.slot) →
      Made W C d k (p.1.holds ++ p.2.holds) [] none Operand.holds (W.Value n'')
      (operate op p.1.slot p.2.slot line >>= fun _ => release p.2.holds >>= fun _ => Codegen.pure p.1) :=
    fun p known => .next (.step (operate_made atLine _ (fun h => (known h).1.toReads) fun h => (known h).2))
      fun _ => .next (.release (.refl _)) fun _ => .pure (.refl _) fun h => (known h).1.value
  refine .bind operandMade fun l => .bind (.takePart rightMade) fun r => ?_
  dsimp only
  split
  · rename_i isTemp
    refine .bind (.held (.pure (.refl _) fun known => ⟨?_, known.1.2.toReads⟩)) fun p => finish p And.right
    exact known.1.1.2.writes_of_isTemp (fun x mem => known.2 x (List.mem_append_left _ mem)) isTemp
  · split
    · rename_i isTemp
      refine .bind (.held (.pure List.perm_append_comm fun known => ⟨?_, known.1.1.2.toReads⟩)) fun p =>
        finish p And.right
      exact known.1.2.writes_of_isTemp (fun x mem => known.2 x (List.mem_append_right _ mem))
        (Bool.and_eq_true_iff.1 isTemp).2
    · split
      · refine .next (.step (assign_made atLine (fun known => ?_) fun known => known.1.2.toReads)) fun _ =>
          .next (.release List.perm_append_comm) fun _ => .bind (.pure (.refl _) fun known =>
            ⟨writes known.1.1 _ rfl, known.2.toReads⟩) fun p => finish p And.right
        exact (writes known.1.1 _ rfl).toReads
      · exact .bind (.regroup List.perm_append_comm (toTemp_made atLine r.holds fun known => known.1.2.toReads))
          fun _ => .bind (.pure List.perm_append_comm fun known => ⟨known.2, known.1.2.toReads⟩) fun p =>
          finish p And.right

theorem negateValue_made : Gives W C d k n' (negateValue operand line) :=
  .bind operandMade fun _ => .bind (direct_made atLine [] fun known => known.2.toReads) fun _ =>
    .bind (.owed (.allocate atLine)) fun _ =>
    .next (.emit rfl fun known => List.forall_mem_singleton.2 known.2.1.named) fun _ =>
    .next (.step (operate_made atLine _ (fun known => known.2.1.reads) fun known => known.1.2.reads)) fun _ =>
    .next (.release List.perm_append_comm) fun _ => .pure (.refl _) fun known => World.Writes.value known.2.writes

theorem complementValue_made : Gives W C d k n' (complementValue operand line) :=
  .bind operandMade fun _ => .bind (toTemp_made atLine [] fun known => known.2.toReads) fun _ =>
    .next (.step (update_made atLine _ fun known => known.2.toReads)) fun _ =>
    .pure (.refl _) fun known => known.2.value

/-- What is changed can be written to. -/
theorem preStepValue_made (isCell : W.strict → n.IsCell) (step : Step) :
    Gives W C d k n' (preStepValue step operand line) :=
  .bind operandMade fun _ => .next (.step (update_made atLine _ fun known => known.2.toReads)) fun _ =>
    .pure (.refl _) fun known => World.Writes.value ⟨known.2.toReads, fun h => known.2.cell h (isCell h)⟩

theorem postStepValue_made (isCell : W.strict → n.IsCell) (step : Step) (later : W.Later d n) :
    Gives W C d k n' (postStepValue step n operand line) := by
  refine .context fun ctx => ?_
  split
  · exact .owed (.fail atLine fun _ _ => rfl)
  · exact .next (.defer step later) fun _ => .weaken id (fun _ _ value => World.Writes.value
      ⟨value.toReads, fun h => value.cell h (isCell h)⟩) operandMade

theorem derefValue_made (isCell : W.strict → n.IsCell) (type : ValueType) :
    Gives W C d k n' (derefValue operand type line) :=
  .bind operandMade fun _ => .bind (direct_made atLine [] fun known => known.2.toReads) fun _ =>
    .pure (.refl _) fun known => known.2.fixed (fun h => known.1.2.cell h (isCell h)) 0

theorem lookupValue_made {index : Codegen Operand} {n'' : Node} (indexMade : ∀ {C k}, Gives W C d k n' index)
    {fixed : Option Word} (isBase : W.strict → n.IsBase) (isCell : W.strict → fixed.isSome = true → n.IsCell)
    (type : ValueType) : Gives W C d k n'' (lookupValue operand fixed index type line) := by
  refine .bind operandMade fun o => .bind (direct_made atLine [] fun known => known.2.toReads) fun b => ?_
  split
  · exact .pure (.refl _) fun known => known.2.fixed (fun h => known.1.2.cell h (isCell h rfl)) _
  · exact .bind (.takePart indexMade) fun _ => .bind (direct_made atLine _ fun known => known.2.toReads) fun _ =>
      .pure (.refl _) fun known => known.1.1.2.dynamic (fun h => known.1.1.1.2.base h (isBase h)) known.2.toCell

omit atLine operandMade in
theorem canComputeIn_made {before : List Slot} {left : Option (List Slot)} (target : Slot) (right : Node) :
    Made W C d k before [] left (fun _ => before) (fun _ => True) (canComputeIn target right) :=
  .context fun _ => .state fun _ => .done

theorem assignValue_made {value : Option Slot → Codegen Operand} {n'' : Node} (isCell : W.strict → n.IsCell)
    (valueMade : ∀ {C k} dest, (C → ∀ s, dest = some s → W.Writes s) → Gives W C d k n' (value dest))
    (right : Option Node) (hasCall : Bool) :
    Gives W C d k n'' (assignValue operand value right hasCall line) := by
  refine .bind operandMade fun t => ?_
  have finish : ∀ early : Bool, Made W (C ∧ W.Value n t) d k t.holds [] none Operand.holds (W.Value n'')
      (value (if early then some t.slot else none) >>= fun v => assign t.slot v.slot line >>= fun _ =>
        release v.holds >>= fun _ => Codegen.pure t) := by
    intro early
    have writes : C ∧ W.Value n t → W.Writes t.slot :=
      fun known => ⟨known.2.toReads, fun h => known.2.cell h (isCell h)⟩
    refine .bind (.takePart (valueMade _ fun known s isDest => ?_)) fun _ =>
      .next (.step (assign_made atLine (fun known => known.1.2.toReads) fun known => known.2.toReads)) fun _ =>
      .next (.release (.refl _)) fun _ => .pure (.refl _) fun known => (writes known.1).value
    cases early with
    | true => exact Option.some.inj isDest ▸ writes known
    | false => cases isDest
  dsimp only
  split
  · exact .next (canComputeIn_made _ _) fun _ => .next .done finish
  · exact .next .done finish

theorem operateValue_made {value : Codegen Operand} {n'' : Node} (isCell : W.strict → n.IsCell)
    (valueMade : ∀ {C k}, Gives W C d k n' value) (op : BinaryOp) :
    Gives W C d k n'' (operateValue op operand value line) :=
  .bind operandMade fun _ => .bind (.takePart valueMade) fun _ =>
    .next (.step (operate_made atLine _ (fun known => known.1.2.toReads) fun known => known.2.toReads)) fun _ =>
    .next (.release (.refl _)) fun _ => .pure (.refl _) fun known =>
      World.Writes.value ⟨known.1.2.toReads, fun h => known.1.2.cell h (isCell h)⟩

end Values

/-! ## Calls -/

section Calls

variable (atLine : W.inside line) {args : List (Codegen Operand)}
  (argsMade : ∀ arg ∈ args, ∀ {C k}, Part W C d k Operand.holds (fun o => W.Reads o.slot) arg)
include atLine argsMade

theorem pushArgs_made : Works W C d k (pushArgs line args) := by
  induction args with
  | nil => exact .done
  | cons arg rest ih =>
    exact .next (ih fun a mem => argsMade a (List.mem_cons_of_mem _ mem)) fun _ =>
      .bind (argsMade arg List.mem_cons_self) fun _ => .next (.step (push_made atLine And.right)) fun _ =>
      .release (.refl _)

/-- The registers that are in use are saved before a call, and are the same behind it. -/
theorem callFunction_made (function : String) (returns : ValueType) :
    Part W C d k (fun result => (result.map Operand.holds).getD [])
      (fun result => ∀ o, result = some o → W.Writes o.slot) (callFunction function args returns line) := by
  refine .state fun s => ?_
  have pops : ∀ {C'} (result : Option Operand), (C' → ∀ name ∈ s.pool.live, W.names name) →
      (C' → ∀ o, result = some o → W.Writes o.slot) →
      Made W C' d k ((result.map Operand.holds).getD []) [] none (fun result => (result.map Operand.holds).getD [])
        (fun result => ∀ o, result = some o → W.Writes o.slot)
        (emitAll (s.pool.live.reverse.map .pop) >>= fun _ => Codegen.pure result) := by
    refine fun result saved writes => .next (.emitAll (by simp [Instr.isStep]) fun known => ?_) fun _ =>
      .pure (.refl _) writes
    simpa [Instr.operands] using saved known
  refine .next (.emitAll (by simp [Instr.isStep]) fun known => by simpa [Instr.operands] using known.2) fun _ =>
    .next (pushArgs_made atLine argsMade) fun _ => .next (.line rfl rfl) fun _ => ?_
  dsimp only
  split
  · exact .bind (.pure (.refl _) (by simp)) fun result => pops result (fun known => known.1.2) And.right
  · refine .bind (.owed (.allocate atLine)) fun r =>
      .next (.emit rfl fun known => List.forall_mem_singleton.2 known.2.1.named) fun _ =>
      .bind (.pure (.refl _) fun known o isResult => ?_) fun result =>
      pops result (fun known => known.1.1.2) And.right
    obtain rfl := Option.some.inj isResult
    exact ⟨known.2.1.reads.retype returns, known.2.writes.writable⟩

theorem callValue_made (function : String) (returns : ValueType) :
    Gives W C d k n (callValue function args returns line) := by
  refine .bind (callFunction_made atLine argsMade function returns) fun result => ?_
  split
  · exact .pure (.refl _) fun known => (known.2 _ rfl).value
  · exact .owed (.fail atLine fun _ _ => rfl)

theorem callEffect_made (function : String) (returns : ValueType) :
    Works W C d k (callEffect function args returns line) := by
  refine .next (callFunction_made atLine argsMade function returns) fun result => ?_
  split
  · exact .release (.refl _)
  · exact .done

theorem directAll_made (before : List Slot) :
    Made W C d k before [] none (fun os => before ++ os.flatMap Operand.holds)
      (fun os => ∀ o ∈ os, W.names o.slot.asmName) (directAll line args) := by
  induction args generalizing C before with
  | nil => exact .pure (by simp) fun _ => by simp
  | cons arg rest ih =>
    exact .bind (.takePart (argsMade arg List.mem_cons_self)) fun o =>
      .bind (direct_made atLine before And.right) fun _ =>
      .bind (ih (fun a mem => argsMade a (List.mem_cons_of_mem _ mem)) _) fun _ => .pure (by simp) fun known =>
        List.forall_mem_cons.2 ⟨known.1.2.named, known.2⟩

theorem hostArgs_made :
    Part W C d k (fun _ => []) (fun names => ∀ name ∈ names, W.names name) (hostArgs args line) :=
  .bind (directAll_made atLine argsMade []) fun _ => .next (.release (.refl _)) fun _ =>
    .pure (.refl _) fun known => List.forall_mem_map.2 known.2

theorem hostValue_made (call : HostCall) : Gives W C d k n (hostValue call args line) := by
  refine .bind (hostArgs_made atLine argsMade) fun _ => ?_
  split
  · exact .bind (.owed (.allocate atLine)) fun _ =>
      .next (.emit rfl fun known => List.forall_mem_cons.2 ⟨known.2.1.named, known.1.2⟩) fun _ =>
      .pure (.refl _) fun known => World.Writes.value known.2.writes
  · exact .owed (.fail atLine fun _ _ => rfl)

theorem hostEffect_made (call : HostCall) : Works W C d k (hostEffect call args line) :=
  .bind (hostArgs_made atLine argsMade) fun _ => .emit rfl And.right

end Calls

end Codegen

/-! ## Nodes -/

open Codegen (Part Gives Works)

variable {W : World} {d : Nat} {line : Nat} {n : Node} {eval : Node → Codegen Operand}

/-- The three ways to compile an expression are made of parts. -/
structure Plan.Made (W : World) (d : Nat) (n : Node) (plan : Plan) : Prop where
  value : ∀ {C k} dest, (C → ∀ s, dest = some s → W.Writes s) → Gives W C d k n (plan.value dest)
  jump : ∀ {C k} label when, Works W C d k (plan.jump label when)
  effect : ∀ {C k}, Works W C d k plan.effect

namespace Plan.Made

/-- The value without a slot to compute it in. -/
theorem gives {plan : Plan} (made : plan.Made W d n) {C : Prop} {k : Nat} : Gives W C d k n (plan.value none) :=
  made.value none (by simp)

theorem ofValue (evalMade : ∀ {C : Prop} {k : Nat} {n : Node}, W.Later d n → Gives W C d k n (eval n))
    (atLine : W.inside line) {value : Option Slot → Codegen Operand}
    (valueMade : ∀ {C k} dest, (C → ∀ s, dest = some s → W.Writes s) → Gives W C d k n (value dest)) :
    (Plan.ofValue eval line value).Made W d n where
  value := valueMade
  jump := Codegen.jumpOnValue_made evalMade atLine (valueMade none (by simp))
  effect := .next (valueMade none (by simp)) fun _ => .release (.refl _)

theorem ofJump (atLine : W.inside line) {jump : String → Bool → Codegen Unit}
    (jumpMade : ∀ {C k} label when, Works W C d k (jump label when)) : (Plan.ofJump line jump).Made W d n where
  value _ _ := Codegen.truth_made jumpMade atLine
  jump := jumpMade
  effect := .next (Codegen.truth_made (n := n) jumpMade atLine) fun _ => .release (.refl _)

end Plan.Made

namespace Node

/-- A slot is its own value. -/
theorem slot_gives {s : Slot} (fits : W.Fits d (.slot s line)) {C : Prop} {k : Nat} :
    Gives W C d k (.slot s line) (Codegen.pure ⟨s, []⟩) :=
  .pure (.refl _) fun _ => ⟨⟨fits.named s (by simp [slots]), fits.sound⟩, fun _ => id, fun _ => id⟩

theorem values_made {ns : List Node} (made : ∀ n ∈ ns, W.Fits d n → (n.plan eval).Made W d n)
    (within : AllWithin W.inside ns) (named : ∀ s ∈ allSlots ns, W.Named s)
    (sound : W.strict → AllSound W.table ns) (depth : W.strict → maxPostDepth ns ≤ d) :
    ∀ arg ∈ values eval ns, ∀ {C k}, Part W C d k Operand.holds (fun o => W.Reads o.slot) arg := by
  rw [values_eq]
  intro arg mem C k
  obtain ⟨n, listed, rfl⟩ := List.mem_map.1 mem
  have fits : W.Fits d n := ⟨allWithin_iff.1 within n listed,
    fun s mem => named s (mem_allSlots.2 ⟨n, listed, mem⟩), fun h => allSound_iff.1 (sound h) n listed,
    fun h => Nat.le_trans (le_maxPostDepth listed) (depth h)⟩
  exact .weaken id (fun _ _ value => value.toReads) (made n listed fits).gives

theorem plan_made (evalMade : ∀ {C : Prop} {k : Nat} {n : Node}, W.Later d n → Gives W C d k n (eval n))
    {n : Node} (fits : W.Fits d n) : (n.plan eval).Made W d n := by
  induction n with
  | slot s line =>
    rw [plan]
    split
    · refine ⟨fun _ _ => slot_gives fits, fun label when => ?_, .done⟩
      unfold Plan.ofLiteral
      dsimp only
      split
      · exact .line rfl rfl
      · exact .done
    · exact .ofValue evalMade fits.line fun _ _ => slot_gives fits
  | deref base type line ih =>
    have ih := ih ⟨fits.within.2, fits.named, fun h => (fits.sound h).1, fits.depth⟩
    rw [plan]
    exact .ofValue evalMade fits.line fun _ _ =>
      Codegen.derefValue_made fits.line ih.gives (fun h => (fits.sound h).2) type
  | lookup base index type line ihBase ihIndex =>
    obtain ⟨fitsBase, fitsIndex⟩ := fits.pair (by rw [slots]) (by rw [postDepth]) fits.within.2
      fun h => ⟨(fits.sound h).1, (fits.sound h).2.1⟩
    rw [plan]
    exact .ofValue evalMade fits.line fun _ _ => Codegen.lookupValue_made fits.line (ihBase fitsBase).gives
      (ihIndex fitsIndex).gives (fun h => (fits.sound h).2.2.1) (fun h => (fits.sound h).2.2.2) type
  | assign op target value line ihTarget ihValue =>
    obtain ⟨fitsTarget, fitsValue⟩ := fits.pair (by rw [slots]) (by rw [postDepth]) fits.within.2
      fun h => ⟨(fits.sound h).1, (fits.sound h).2.1⟩
    have isCell := fun h => (fits.sound h).2.2
    cases op with
    | none =>
      rw [plan]
      exact .ofValue evalMade fits.line fun _ _ =>
        Codegen.assignValue_made fits.line (ihTarget fitsTarget).gives isCell (ihValue fitsValue).value _ _
    | some op =>
      rw [plan]
      exact .ofValue evalMade fits.line fun _ _ =>
        Codegen.operateValue_made fits.line (ihTarget fitsTarget).gives isCell (ihValue fitsValue).gives op
  | binary op left right line ihLeft ihRight =>
    obtain ⟨fitsLeft, fitsRight⟩ := fits.pair (by rw [slots]) (by rw [postDepth]) fits.within.2 fits.sound
    rw [plan]
    exact .ofValue evalMade fits.line fun _ writes =>
      Codegen.binaryValue_made fits.line (ihLeft fitsLeft).gives (ihRight fitsRight).gives writes
  | unary op operand line ih =>
    have sound := fun h => (fits.sound h).1
    have ih := ih ⟨fits.within.2, fits.named, sound, fun h =>
      Nat.le_trans (postDepth_operand_le op operand line) (fits.depth h)⟩
    cases op with
    | negate =>
      rw [plan]
      exact .ofValue evalMade fits.line fun _ _ => Codegen.negateValue_made fits.line ih.gives
    | complement =>
      rw [plan]
      exact .ofValue evalMade fits.line fun _ _ => Codegen.complementValue_made fits.line ih.gives
    | not =>
      rw [plan]
      exact .ofJump fits.line fun label when => ih.jump label !when
    | preStep step =>
      rw [plan]
      exact .ofValue evalMade fits.line fun _ _ =>
        Codegen.preStepValue_made fits.line ih.gives (fun h => (fits.sound h).2) step
    | postStep step =>
      -- the target is put off: it holds one step less than the node
      have later : W.Later d operand :=
        ⟨⟨fits.within.2, fits.named, sound, fun _ => Nat.le_refl _⟩, fits.depth⟩
      rw [plan]
      exact .ofValue evalMade fits.line fun _ _ =>
        Codegen.postStepValue_made fits.line ih.gives (fun h => (fits.sound h).2) step later
  | compare relation left right line ihLeft ihRight =>
    obtain ⟨fitsLeft, fitsRight⟩ := fits.pair (by rw [slots]) (by rw [postDepth]) fits.within.2 fits.sound
    rw [plan]
    exact .ofJump fits.line (Codegen.jumpOnRelation_made evalMade fits.line (ihLeft fitsLeft).gives
      (ihRight fitsRight).gives)
  | logic connective left right line ihLeft ihRight =>
    obtain ⟨fitsLeft, fitsRight⟩ := fits.pair (by rw [slots]) (by rw [postDepth]) fits.within.2 fits.sound
    cases connective with
    | and =>
      rw [plan]
      exact .ofJump fits.line (Codegen.jumpOnBoth_made (ihLeft fitsLeft).jump (ihRight fitsRight).jump line)
    | or =>
      rw [plan]
      exact .ofJump fits.line (Codegen.jumpOnEither_made (ihLeft fitsLeft).jump (ihRight fitsRight).jump line)
  | ternary condition yes no line ihCondition ihYes ihNo =>
    obtain ⟨within, withinYes, withinNo⟩ := fits.within.2
    have named := List.forall_mem_append.1 fits.named
    have depth := fun h => Nat.max_le.1 (fits.depth h)
    have ihCondition := ihCondition ⟨within, named.1, fun h => (fits.sound h).1, fun h => (depth h).1⟩
    have namedArms := List.forall_mem_append.1 named.2
    have depthArms := fun h => Nat.max_le.1 (depth h).2
    have ihYes := ihYes ⟨withinYes, namedArms.1, fun h => (fits.sound h).2.1, fun h => (depthArms h).1⟩
    have ihNo := ihNo ⟨withinNo, namedArms.2, fun h => (fits.sound h).2.2, fun h => (depthArms h).2⟩
    rw [plan]
    exact .ofValue evalMade fits.line fun _ _ =>
      Codegen.ternaryValue_made evalMade fits.line ihCondition.jump ihYes.gives ihNo.gives
  | call function args returns line ih =>
    rw [plan]
    have argsMade := values_made ih fits.within.2 fits.named fits.sound fits.depth
    have value := fun {C k} => Codegen.callValue_made (C := C) (k := k) (n := .call function args returns line)
      fits.line argsMade function returns
    exact ⟨fun _ _ => value, Codegen.jumpOnValue_made evalMade fits.line value,
      Codegen.callEffect_made fits.line argsMade function returns⟩
  | host operation args line ih =>
    rw [plan]
    have argsMade := values_made ih fits.within.2 fits.named fits.sound fits.depth
    have value := fun {C k} => Codegen.hostValue_made (C := C) (k := k) (n := .host operation args line)
      fits.line argsMade operation
    exact ⟨fun _ _ => value, Codegen.jumpOnValue_made evalMade fits.line value,
      Codegen.hostEffect_made fits.line argsMade operation⟩

/-- The bound on steps inside each other is never used up. -/
theorem evalBelow_made (d : Nat) {C : Prop} {k : Nat} {n : Node} (later : W.Later d n) :
    Gives W C d k n (evalBelow d n) := by
  induction d generalizing C k n with
  | zero => exact .owed (.fail later.1.line fun _ h => absurd (later.2 h) (Nat.not_lt_zero _))
  | succ d ih =>
    have fits := later.1.deeper fun h => Nat.le_of_lt_succ (later.2 h)
    exact .inner (fun _ => Nat.le_succ d) fun _ => (plan_made ih fits).gives

/-- The code of a node that fits. -/
theorem code_made (fits : W.Fits d n) : n.code.Made W d n := by
  have made := plan_made (evalBelow_made _) (fits.deeper fun _ => Nat.le_refl n.postDepth)
  exact ⟨fun dest writes => .inner fits.depth fun _ => made.value dest writes,
    fun label when => .inner fits.depth fun _ => made.jump label when, .inner fits.depth fun _ => made.effect⟩

/-- The target of a step that was put off is evaluated again. -/
theorem eval_made {C : Prop} {k : Nat} {n : Node} (later : W.Later d n) : Gives W C d k n n.eval :=
  (code_made (later.1.deeper fun h => Nat.le_of_lt (later.2 h))).gives

end Node

namespace Codegen

variable {C : Prop} {k : Nat}

/-! ## Phrases -/

theorem controlValue_made (atLine : W.inside line) (word : Control) (value : Option Node) :
    Part W C d k (fun _ => []) (fun _ => True) (controlValue word value line) := by
  refine .next .calledFunction fun function => ?_
  split
  · exact .done
  · refine .context fun ctx => ?_
    dsimp only
    split
    · exact .owed (.fail atLine fun _ _ => rfl)
    · exact .owed (.fail atLine fun _ _ => rfl)
    · exact .done
  · exact .done

/-- A keyword of control works on its own operand, and `sleep` always does. -/
theorem controlValue_of (word : Control) (value : Option Node) (line : Nat) (ctx : Context) (s : State) :
    (controlValue word value line).Ends ctx s fun found _ _ =>
      (∀ n ∈ found, n ∈ value) ∧ (word = .sleep → found = value) := by
  refine .bind (.of rfl ?_)
  split
  · exact .pure ⟨by simp, by simp⟩
  · refine .bind (.of rfl ?_)
    dsimp only
    split
    · exact .fail _
    · exact .fail _
    · exact .pure ⟨fun _ mem => mem, fun _ => rfl⟩
  · exact .pure ⟨fun _ mem => mem, fun _ => rfl⟩

theorem command_made {c : Command} (admits : W.Admits d c) : Works W C d k (command c) := by
  cases c with
  | value node => exact (Node.code_made admits).effect
  | control word value line =>
    obtain ⟨atLine, fits, needed⟩ := admits
    refine .bindOf (controlValue_made atLine word value) (controlValue_of word value line) ?_
    rintro found ⟨listed, same⟩
    cases found with
    | none =>
      refine .owed (control_made atLine word (by simp) fun h sleep => ?_)
      have given := needed h sleep
      rw [← same sleep] at given
      cases given
    | some node =>
      refine .bind (Node.code_made (fits _ (listed _ rfl))).gives fun o =>
        .next (.step (control_made atLine word (fun known s isValue => ?_) fun _ _ => rfl)) fun _ =>
        .release (.refl _)
      exact Option.some.inj isValue ▸ known.2.toReads

/-- What a phrase does, with the steps that were put off and a check that no register is held. -/
theorem phraseBody_made {c : Command} (admits : W.Admits d c) (loose : ¬ W.strict) :
    Works W C d 0 (command c >>= fun _ => applyDeferred Node.eval 0 c.line >>= fun _ => checkRegisters c.line) := by
  refine .next (command_made admits) fun _ => .next (applyDeferred_made Node.eval_made admits.line) fun _ =>
    .state fun s => ?_
  dsimp only
  split
  · exact .done
  · exact .owed (.fail admits.line fun _ isStrict => absurd isStrict loose)

end Codegen

/-! ## Tame nodes -/

structure Plan.Tame (plan : Plan) : Prop where
  value : ∀ dest, Codegen.Tame (plan.value dest)
  jump : ∀ label when, Codegen.Tame (plan.jump label when)
  effect : Codegen.Tame plan.effect

namespace Node

/-- The code of a node where all is allowed. -/
theorem code_free (n : Node) : n.code.Made .free 0 n := code_made (World.free_fits 0 n)

theorem code_tame (n : Node) : n.code.Tame where
  value dest := (n.code_free.value (C := True) (k := 0) dest fun _ s _ => ⟨World.reads_ofLines s, False.elim⟩).tame
  jump label when := (n.code_free.jump (C := True) (k := 0) label when).tame
  effect := (n.code_free.effect (C := True) (k := 0)).tame

theorem eval_tame (n : Node) : Codegen.Tame n.eval := n.code_tame.value none

end Node

end ContractCompiler
