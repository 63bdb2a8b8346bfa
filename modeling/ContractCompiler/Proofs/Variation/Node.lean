import ContractCompiler.Proofs.Variation.Select

/-!
# Proofs.Variation.Node — expressions agree

The plans of a node and of its image agree: for their values, for jumps to labels that belong together,
and for their effects (`Variation.Plans`).
-/

namespace ContractCompiler

set_option autoImplicit false

namespace Pairing

open Codegen Variation

variable {v : Pairing}

abbrev Both (v : Pairing) (p p' : Operand × Operand) : Prop := p' = (v.operand p.1, v.operand p.2)

/-- The actions evaluate a node and its image. -/
abbrev Evals (v : Pairing) (eval eval' : Node → Codegen Operand) : Prop :=
  ∀ n, v.Agree v.Operands (eval n) (eval' (v.node n))

/-- The actions jump to labels that belong together. -/
abbrev Jumps (v : Pairing) (jump jump' : String → Bool → Codegen Unit) : Prop :=
  ∀ target target' when, v.Labels target target' → v.Agree Eq (jump target when) (jump' target' when)

/-! ## Jumps -/

section Jumps

variable (line : Nat) {eval eval' : Node → Codegen Operand} {left left' right right' : Codegen Operand}

theorem jumpOnValue_agrees (evals : v.Evals eval eval') (values : v.Agree v.Operands left left') :
    v.Jumps (jumpOnValue eval left line) (jumpOnValue eval' left' line) := by
  intro target target' when labels
  have finish : ∀ o, v.Agree Eq
      (Codegen.compare (if when then .ne else .eq) o.slot none target line >>= fun _ => release o.holds)
      (Codegen.compare (if when then .ne else .eq) (v.operand o).slot none target' line >>=
        fun _ => release (v.operand o).holds) :=
    fun o => .bind (compare_agrees line labels _ o.slot none) fun _ _ _ => .release o.holds
  refine .bind .deferredCount ?_
  rintro mark _ rfl
  refine .bind values ?_
  rintro o _ rfl
  refine .bind .deferredCount ?_
  rintro count _ rfl
  dsimp only
  split
  · refine .bind (.pure (R := v.Operands) rfl) ?_
    rintro o _ rfl
    exact finish o
  · refine .bind (protect_agrees line o) ?_
    rintro o _ rfl
    refine .bind (applyDeferred_agrees line evals mark) fun _ _ _ => .bind (.pure (R := v.Operands) rfl) ?_
    rintro o _ rfl
    exact finish o

theorem jumpOnRelation_agrees (evals : v.Evals eval eval') (relation : Relation)
    (lefts : v.Agree v.Operands left left') (rights : v.Agree v.Operands right right') :
    v.Jumps (jumpOnRelation eval relation left right line) (jumpOnRelation eval' relation left' right' line) := by
  intro target target' when labels
  have finish : ∀ l r, v.Agree Eq
      (Codegen.compare (if when then relation else relation.negate) l.slot (some r.slot) target line >>=
        fun _ => release (l.holds ++ r.holds))
      (Codegen.compare (if when then relation else relation.negate) (v.operand l).slot
        (some (v.operand r).slot) target' line >>=
        fun _ => release ((v.operand l).holds ++ (v.operand r).holds)) :=
    fun l r => .bind (compare_agrees line labels _ l.slot (some r.slot)) fun _ _ _ => releaseBoth_agrees l r
  refine .bind .deferredCount ?_
  rintro mark _ rfl
  refine .bind lefts ?_
  rintro l _ rfl
  refine .bind rights ?_
  rintro r _ rfl
  refine .bind .deferredCount ?_
  rintro count _ rfl
  dsimp only
  split
  · refine .bind (.pure (R := v.Both) rfl) ?_
    rintro p _ rfl
    exact finish p.1 p.2
  · refine .bind (protect_agrees line l) ?_
    rintro l _ rfl
    refine .bind (protect_agrees line r) ?_
    rintro r _ rfl
    refine .bind (applyDeferred_agrees line evals mark) fun _ _ _ => .bind (.pure (R := v.Both) rfl) ?_
    rintro p _ rfl
    exact finish p.1 p.2

variable {jump jump' other other' : String → Bool → Codegen Unit}

theorem jumpOnBoth_agrees (jumps : v.Jumps jump jump') (others : v.Jumps other other') :
    v.Jumps (jumpOnBoth jump other line) (jumpOnBoth jump' other' line) := by
  intro target target' when labels
  unfold jumpOnBoth
  cases when with
  | true =>
    refine .bind (.labelId line) fun id id' ids => ?_
    have next : v.Labels ("__AND" ++ id ++ "_next") ("__AND" ++ id' ++ "_next") := .mark .andNext ids
    exact .bind (jumps _ _ false next) fun _ _ _ => .bind (others _ _ true labels) fun _ _ _ =>
      .emit (.label next) rfl
  | false => exact .bind (jumps _ _ false labels) fun _ _ _ => others _ _ false labels

theorem jumpOnEither_agrees (jumps : v.Jumps jump jump') (others : v.Jumps other other') :
    v.Jumps (jumpOnEither jump other line) (jumpOnEither jump' other' line) := by
  intro target target' when labels
  unfold jumpOnEither
  cases when with
  | true => exact .bind (jumps _ _ true labels) fun _ _ _ => others _ _ true labels
  | false =>
    refine .bind (.labelId line) fun id id' ids => ?_
    have next : v.Labels ("__OR" ++ id ++ "_next") ("__OR" ++ id' ++ "_next") := .mark .orNext ids
    exact .bind (jumps _ _ true next) fun _ _ _ => .bind (others _ _ false labels) fun _ _ _ =>
      .emit (.label next) rfl

theorem truth_agrees (jumps : v.Jumps jump jump') :
    v.Agree v.Operands (truth jump line) (truth jump' line) := by
  refine .bind (.labelId line) fun id id' ids => ?_
  have isFalse : v.Labels ("__CMP" ++ id ++ "_sF") ("__CMP" ++ id' ++ "_sF") := .mark .truthFalse ids
  have done : v.Labels ("__CMP" ++ id ++ "_end") ("__CMP" ++ id' ++ "_end") := .mark .truthEnd ids
  refine .bind (jumps _ _ false isFalse) fun _ _ _ => .bind (.allocate line) ?_
  rintro r _ rfl
  have one := assign_agrees (v := v) line r (.literal 1)
  rw [v.slot_literal] at one
  exact .bind one fun _ _ _ => .bind (.emit (.jump done) rfl) fun _ _ _ =>
    .bind (.emit (.label isFalse) rfl) fun _ _ _ => .bind (.same rfl rfl rfl) fun _ _ _ => .bind (.emit (.label done) rfl) fun _ _ _ => .pure rfl

end Jumps

/-! ## Values -/

section Values

variable (line : Nat) {operand operand' other other' : Codegen Operand}
  (operands : v.Agree v.Operands operand operand') (others : v.Agree v.Operands other other')

include operands

theorem negateValue_agrees : v.Agree v.Operands (negateValue operand line) (negateValue operand' line) := by
  refine .bind operands ?_
  rintro o _ rfl
  refine .bind (direct_agrees line o) ?_
  rintro o _ rfl
  refine .bind (.allocate line) ?_
  rintro r _ rfl
  exact .bind (.same rfl rfl rfl) fun _ _ _ => .bind (operate_agrees line .sub r o.slot) fun _ _ _ =>
    .bind (.release o.holds) fun _ _ _ => .pure rfl

theorem complementValue_agrees :
    v.Agree v.Operands (complementValue operand line) (complementValue operand' line) := by
  refine .bind operands ?_
  rintro o _ rfl
  refine .bind (toTemp_agrees line o) ?_
  rintro o _ rfl
  exact .bind (update_agrees line .complement o.slot) fun _ _ _ => .pure rfl

theorem preStepValue_agrees (step : Step) :
    v.Agree v.Operands (preStepValue step operand line) (preStepValue step operand' line) := by
  refine .bind operands ?_
  rintro o _ rfl
  exact .bind (update_agrees line (.step step) o.slot) fun _ _ _ => .pure rfl

theorem postStepValue_agrees (step : Step) (target : Node) :
    v.Agree v.Operands (postStepValue step target operand line)
      (postStepValue step (v.node target) operand' line) := by
  refine .bind .context fun ctx ctx' contexts => ?_
  rw [contexts.inCondition]
  split
  · exact .fail _
  · exact .bind (.defer step target) fun _ _ _ => operands

theorem derefValue_agrees (type : ValueType) :
    v.Agree v.Operands (derefValue operand type line) (derefValue operand' type line) := by
  refine .bind operands ?_
  rintro o _ rfl
  refine .bind (direct_agrees line o) ?_
  rintro b _ rfl
  exact .pure rfl

include others

theorem lookupValue_agrees (fixed : Option Word) (type : ValueType) :
    v.Agree v.Operands (lookupValue operand fixed other type line)
      (lookupValue operand' fixed other' type line) := by
  refine .bind operands ?_
  rintro o _ rfl
  refine .bind (direct_agrees line o) ?_
  rintro b _ rfl
  cases fixed with
  | some distance => exact .pure rfl
  | none =>
    refine .bind others ?_
    rintro o _ rfl
    refine .bind (direct_agrees line o) ?_
    rintro i _ rfl
    refine .pure ?_
    simp [Operands, Variation.operand, slot_withOffset, Variation.offset]

theorem operateValue_agrees (op : BinaryOp) :
    v.Agree v.Operands (operateValue op operand other line) (operateValue op operand' other' line) := by
  refine .bind operands ?_
  rintro t _ rfl
  refine .bind others ?_
  rintro o _ rfl
  exact .bind (operate_agrees line op t.slot o.slot) fun _ _ _ => .bind (.release o.holds) fun _ _ _ => .pure rfl

theorem binaryValue_agrees (op : BinaryOp) (dest : Option Slot) :
    v.Agree v.Operands (binaryValue op operand other dest line)
      (binaryValue op operand' other' (dest.map v.slot) line) := by
  have finish : ∀ p : Operand × Operand, v.Agree v.Operands
      (operate op p.1.slot p.2.slot line >>= fun _ => release p.2.holds >>= fun _ => Codegen.pure p.1)
      (operate op (v.operand p.1).slot (v.operand p.2).slot line >>= fun _ =>
        release (v.operand p.2).holds >>= fun _ => Codegen.pure (v.operand p.1)) :=
    fun p => .bind (operate_agrees line op p.1.slot p.2.slot) fun _ _ _ =>
      .bind (.release p.2.holds) fun _ _ _ => .pure rfl
  refine .bind operands ?_
  rintro l _ rfl
  refine .bind others ?_
  rintro r _ rfl
  rw [operand_isTemp, operand_isTemp]
  split
  · refine .bind (.pure (R := v.Both) rfl) ?_
    rintro p _ rfl
    exact finish p
  · split
    · refine .bind (.pure (R := v.Both) rfl) ?_
      rintro p _ rfl
      exact finish p
    · cases dest with
      | some dest =>
        refine .bind (assign_agrees line dest l.slot) fun _ _ _ => .bind (.release l.holds) fun _ _ _ =>
          .bind (.pure (R := v.Both) rfl) ?_
        rintro p _ rfl
        exact finish p
      | none =>
        refine .bind (toTemp_agrees line l) ?_
        rintro l _ rfl
        refine .bind (.pure (R := v.Both) rfl) ?_
        rintro p _ rfl
        exact finish p

end Values

theorem canComputeIn_agrees (target : Slot) (right : Node) :
    v.Agree Eq (canComputeIn target right) (canComputeIn (v.slot target) (v.node right)) := by
  refine .bind .context fun ctx ctx' contexts => .bind .state fun s s' states => .pure ?_
  rw [contexts.reuse, slot_isDirect, slot_address, states.pools.isRegister, slot_kind, node_mentions]

theorem assignValue_agrees (line : Nat) {target target' : Codegen Operand}
    {value value' : Option Slot → Codegen Operand} (targets : v.Agree v.Operands target target')
    (values : ∀ dest, v.Agree v.Operands (value dest) (value' (dest.map v.slot))) (right : Option Node)
    (hasCall : Bool) :
    v.Agree v.Operands (assignValue target value right hasCall line)
      (assignValue target' value' (right.map v.node) hasCall line) := by
  refine .bind targets ?_
  rintro t _ rfl
  have finish : ∀ early : Bool, v.Agree v.Operands
      (value (if early then some t.slot else none) >>= fun o => Codegen.assign t.slot o.slot line >>= fun _ =>
        release o.holds >>= fun _ => Codegen.pure t)
      (value' (if early then some (v.operand t).slot else none) >>= fun o =>
        Codegen.assign (v.operand t).slot o.slot line >>= fun _ =>
        release o.holds >>= fun _ => Codegen.pure (v.operand t)) := by
    intro early
    have dest : (if early then some (v.operand t).slot else none) =
        (if early then some t.slot else none).map v.slot := by
      cases early <;> rfl
    rw [dest]
    refine .bind (values _) ?_
    rintro o _ rfl
    exact .bind (assign_agrees line t.slot o.slot) fun _ _ _ => .bind (.release o.holds) fun _ _ _ => .pure rfl
  cases right with
  | none =>
    refine .bind (.pure (R := Eq) rfl) ?_
    rintro early _ rfl
    exact finish early
  | some right =>
    refine .bind (canComputeIn_agrees t.slot right) ?_
    rintro can _ rfl
    refine .bind (.pure (R := Eq) rfl) ?_
    rintro early _ rfl
    exact finish early

section Ternary

variable (line : Nat) {eval eval' : Node → Codegen Operand} (evals : v.Evals eval eval')
include evals

theorem ternaryArm_agrees {value value' : Codegen Operand} (values : v.Agree v.Operands value value')
    (result : Slot) : v.Agree Eq (ternaryArm eval value result line)
      (ternaryArm eval' value' (v.slot result) line) := by
  refine .bind .deferredCount ?_
  rintro mark _ rfl
  refine .bind values ?_
  rintro o _ rfl
  exact .bind (assign_agrees line result o.slot) fun _ _ _ => .bind (.release o.holds) fun _ _ _ =>
    applyDeferred_agrees line evals mark

theorem ternaryValue_agrees {condition condition' : String → Bool → Codegen Unit}
    {yes yes' no no' : Codegen Operand} (conditions : v.Jumps condition condition')
    (affirmed : v.Agree v.Operands yes yes') (denied : v.Agree v.Operands no no') :
    v.Agree v.Operands (ternaryValue eval condition yes no line)
      (ternaryValue eval' condition' yes' no' line) := by
  refine .bind (.labelId line) fun id id' ids => ?_
  have otherwise : v.Labels ("__TER" ++ id ++ "_else") ("__TER" ++ id' ++ "_else") := .mark .ternaryElse ids
  have done : v.Labels ("__TER" ++ id ++ "_end") ("__TER" ++ id' ++ "_end") := .mark .ternaryEnd ids
  refine .bind (conditions _ _ false otherwise) fun _ _ _ => .bind (.allocate line) ?_
  rintro r _ rfl
  exact .bind (ternaryArm_agrees line evals affirmed r) fun _ _ _ => .bind (.emit (.jump done) rfl) fun _ _ _ =>
    .bind (.emit (.label otherwise) rfl) fun _ _ _ => .bind (ternaryArm_agrees line evals denied r) fun _ _ _ =>
    .bind (.emit (.label done) rfl) fun _ _ _ => .pure rfl

end Ternary

/-! ## Calls -/

section Calls

variable (line : Nat) {args args' : List (Codegen Operand)}
  (arguments : List.Forall₂ (v.Agree v.Operands) args args')
include arguments

theorem pushArgs_agrees : v.Agree Eq (pushArgs line args) (pushArgs line args') := by
  induction arguments with
  | nil => exact .pure rfl
  | cons first _ ih =>
    refine .bind ih fun _ _ _ => .bind first ?_
    rintro o _ rfl
    exact .bind (push_agrees line o.slot) fun _ _ _ => .release o.holds

theorem callFunction_agrees (function : String) (returns : ValueType) :
    v.Agree (fun o o' => o' = o.map v.operand) (callFunction function args returns line)
      (callFunction function args' returns line) := by
  refine .bind .state fun s s' states => ?_
  rw [states.pools.live]
  have pushes : v.Code (s.pool.live.map .push) (s.pool.live.map .push) :=
    .map (fun _ => ⟨rfl, rfl, rfl⟩) _
  have pops : v.Code (s.pool.live.reverse.map .pop) (s.pool.live.reverse.map .pop) :=
    .map (fun _ => ⟨rfl, rfl, rfl⟩) _
  have finish : ∀ o : Option Operand, v.Agree (fun o o' => o' = o.map v.operand)
      (emitAll (s.pool.live.reverse.map .pop) >>= fun _ => Codegen.pure o)
      (emitAll (s.pool.live.reverse.map .pop) >>= fun _ => Codegen.pure (o.map v.operand)) :=
    fun o => .bind (.emitAll pops) fun _ _ _ => .pure rfl
  refine .bind (.emitAll pushes) fun _ _ _ => .bind (pushArgs_agrees line arguments) fun _ _ _ =>
    .bind (.same rfl rfl rfl) fun _ _ _ => ?_
  dsimp only
  split
  · refine .bind (.pure (R := fun o o' => o' = o.map v.operand) rfl) ?_
    rintro o _ rfl
    exact finish o
  · refine .bind (.allocate line) ?_
    rintro r _ rfl
    refine .bind (.same rfl rfl rfl) fun _ _ _ => .bind (.pure (R := fun o o' => o' = o.map v.operand) rfl) ?_
    rintro o _ rfl
    exact finish o

theorem callValue_agrees (function : String) (returns : ValueType) :
    v.Agree v.Operands (callValue function args returns line) (callValue function args' returns line) := by
  refine .bind (callFunction_agrees line arguments function returns) ?_
  rintro o _ rfl
  cases o with
  | some o => exact .pure rfl
  | none => exact .fail _

theorem callEffect_agrees (function : String) (returns : ValueType) :
    v.Agree Eq (callEffect function args returns line) (callEffect function args' returns line) := by
  refine .bind (callFunction_agrees line arguments function returns) ?_
  rintro o _ rfl
  cases o with
  | some o => exact .release o.holds
  | none => exact .pure rfl

theorem directAll_agrees : v.Agree (fun os os' => os' = os.map v.operand) (directAll line args)
    (directAll line args') := by
  induction arguments with
  | nil => exact .pure rfl
  | cons first _ ih =>
    refine .bind first ?_
    rintro o _ rfl
    refine .bind (direct_agrees line o) ?_
    rintro o _ rfl
    refine .bind ih ?_
    rintro os _ rfl
    exact .pure rfl

theorem hostArgs_agrees : v.Agree Eq (hostArgs args line) (hostArgs args' line) := by
  refine .bind (directAll_agrees line arguments) ?_
  rintro os _ rfl
  have held : (os.map v.operand).flatMap (·.holds) = (os.flatMap (·.holds)).map v.slot := by
    simp [List.flatMap_map, List.map_flatMap, Variation.operand]
  rw [held]
  refine .bind (.release _) fun _ _ _ => .pure ?_
  simp [Variation.operand]

theorem hostValue_agrees (call : HostCall) :
    v.Agree v.Operands (hostValue call args line) (hostValue call args' line) := by
  refine .bind (hostArgs_agrees line arguments) ?_
  rintro names _ rfl
  split
  · refine .bind (.allocate line) ?_
    rintro r _ rfl
    exact .bind (.same rfl rfl rfl) fun _ _ _ => .pure rfl
  · exact .fail _

theorem hostEffect_agrees (call : HostCall) :
    v.Agree Eq (hostEffect call args line) (hostEffect call args' line) := by
  refine .bind (hostArgs_agrees line arguments) ?_
  rintro names _ rfl
  exact .same rfl rfl rfl

end Calls

/-! ## Plans -/

structure Plans (v : Pairing) (p p' : Plan) : Prop where
  value : ∀ dest, v.Agree v.Operands (p.value dest) (p'.value (dest.map v.slot))
  jump : v.Jumps p.jump p'.jump
  effect : v.Agree Eq p.effect p'.effect

namespace Plans

/-- The values without a slot to compute them in. -/
theorem unplaced {p p' : Plan} (plans : v.Plans p p') : v.Agree v.Operands (p.value none) (p'.value none) :=
  plans.value none

theorem ofValue {eval eval' : Node → Codegen Operand} (evals : v.Evals eval eval') (line : Nat)
    {value value' : Option Slot → Codegen Operand}
    (values : ∀ dest, v.Agree v.Operands (value dest) (value' (dest.map v.slot))) :
    v.Plans (.ofValue eval line value) (.ofValue eval' line value') where
  value := values
  jump := jumpOnValue_agrees line evals (values none)
  effect := by
    refine .bind (values none) ?_
    rintro o _ rfl
    exact .release o.holds

theorem ofJump (line : Nat) {jump jump' : String → Bool → Codegen Unit} (jumps : v.Jumps jump jump') :
    v.Plans (.ofJump line jump) (.ofJump line jump') where
  value _ := truth_agrees line jumps
  jump := jumps
  effect := by
    refine .bind (truth_agrees line jumps) ?_
    rintro o _ rfl
    exact .release o.holds

theorem ofLiteral (s : Slot) (value : Word) : v.Plans (.ofLiteral s value) (.ofLiteral (v.slot s) value) where
  value _ := .pure rfl
  jump target target' when labels := by
    unfold Plan.ofLiteral
    dsimp only
    split
    · exact .emit (.jump labels) rfl
    · exact .pure rfl
  effect := .pure rfl

end Plans

section Nodes

variable {eval eval' : Node → Codegen Operand}

theorem values_agree {ns : List Node} (plans : ∀ n ∈ ns, v.Plans (n.plan eval) ((v.node n).plan eval')) :
    List.Forall₂ (v.Agree v.Operands) (Node.values eval ns) (Node.values eval' (v.nodes ns)) := by
  rw [nodes_eq, Node.values_eq, Node.values_eq, List.map_map, List.forall₂_map_left_iff,
    List.forall₂_map_right_iff]
  exact List.forall₂_same.2 fun n mem => (plans n mem).unplaced

/-- The plans of a node and of its image agree. -/
theorem plan_agrees (evals : v.Evals eval eval') (n : Node) :
    v.Plans (n.plan eval) ((v.node n).plan eval') := by
  induction n with
  | slot s line =>
    unfold node Node.plan
    rw [slot_literal?]
    cases s.literal? with
    | some value => exact .ofLiteral s value
    | none => exact .ofValue evals line fun _ => .pure rfl
  | deref _ type line base =>
    exact .ofValue evals line fun _ => derefValue_agrees line base.unplaced type
  | lookup _ _ type line bases indices =>
    unfold node Node.plan
    rw [node_literal?]
    exact .ofValue evals line fun _ => lookupValue_agrees line bases.unplaced indices.unplaced _ type
  | assign op _ _ line targets values =>
    unfold node Node.plan
    rw [node_right?, node_hasCall]
    refine .ofValue evals line fun _ => ?_
    cases op with
    | none => exact assignValue_agrees line targets.unplaced values.value _ _
    | some op => exact operateValue_agrees line targets.unplaced values.unplaced op
  | binary op _ _ line lefts rights =>
    exact .ofValue evals line fun dest => binaryValue_agrees line lefts.unplaced rights.unplaced op dest
  | unary op operand line operands =>
    cases op with
    | negate => exact .ofValue evals line fun _ => negateValue_agrees line operands.unplaced
    | complement => exact .ofValue evals line fun _ => complementValue_agrees line operands.unplaced
    | not => exact .ofJump line fun target target' when labels => operands.jump target target' (!when) labels
    | preStep step => exact .ofValue evals line fun _ => preStepValue_agrees line operands.unplaced step
    | postStep step =>
      exact .ofValue evals line fun _ => postStepValue_agrees line operands.unplaced step operand
  | compare relation _ _ line lefts rights =>
    exact .ofJump line (jumpOnRelation_agrees line evals relation lefts.unplaced rights.unplaced)
  | logic connective _ _ line lefts rights =>
    cases connective with
    | and => exact .ofJump line (jumpOnBoth_agrees line lefts.jump rights.jump)
    | or => exact .ofJump line (jumpOnEither_agrees line lefts.jump rights.jump)
  | ternary _ _ _ line conditions affirmed denied =>
    exact .ofValue evals line fun _ =>
      ternaryValue_agrees line evals conditions.jump affirmed.unplaced denied.unplaced
  | call function args returns line plans =>
    have arguments := values_agree plans
    exact { Plans.ofValue evals line fun _ => callValue_agrees line arguments function returns with
      effect := callEffect_agrees line arguments function returns }
  | host operation args line plans =>
    have arguments := values_agree plans
    exact { Plans.ofValue evals line fun _ => hostValue_agrees line arguments operation with
      effect := hostEffect_agrees line arguments operation }

theorem evalBelow_agrees (depth : Nat) : v.Evals (Node.evalBelow depth) (Node.evalBelow depth) := by
  induction depth with
  | zero =>
    intro n
    rw [Node.evalBelow, Node.evalBelow, node_line]
    exact .fail _
  | succ depth ih => exact fun n => (plan_agrees ih n).unplaced

/-- The code of a node and of its image agree. -/
theorem code_agrees (n : Node) : v.Plans n.code (v.node n).code := by
  unfold Node.code
  rw [node_postDepth]
  exact plan_agrees (evalBelow_agrees _) n

theorem eval_agrees : v.Evals Node.eval Node.eval := fun n => (code_agrees n).unplaced

end Nodes

end Pairing

end ContractCompiler
