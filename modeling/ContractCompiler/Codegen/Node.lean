import ContractCompiler.Codegen.Call
import ContractCompiler.Codegen.Value

/-!
# Codegen.Node — the code of expressions

An expression is compiled for its value, for a jump on its truth, or for its effects alone, so that
each node has a plan with these three actions. A step after a use is put off: it is done at the end of
the phrase, or before the next jump, so that it happens on every path. Doing it evaluates its target
once more. The target is a part of the node in whose plan that happens and holds fewer such steps one
inside the other, and this number is what the recursion goes down on.
-/

namespace ContractCompiler

set_option autoImplicit false

/-- The ways to compile an expression. -/
structure Plan where
  /-- Computes the value, in the slot that is given if that saves a register. -/
  value : Option Slot → Codegen Operand
  /-- Jumps to a label if the truth of the value is the given one. -/
  jump : String → Bool → Codegen Unit
  /-- Computes the effects. -/
  effect : Codegen Unit

namespace Plan

/-- The plan of a node that is compiled for its value. -/
def ofValue (eval : Node → Codegen Operand) (line : Nat) (value : Option Slot → Codegen Operand) :
    Plan where
  value := value
  jump := Codegen.jumpOnValue eval (value none) line
  effect := do Codegen.release (← value none).holds

/-- The plan of a node that is compiled for a jump. -/
def ofJump (line : Nat) (jump : String → Bool → Codegen Unit) : Plan where
  value _ := Codegen.truth jump line
  jump := jump
  effect := do Codegen.release (← Codegen.truth jump line).holds

/-- The plan of a literal, which decides a jump at once. -/
def ofLiteral (s : Slot) (value : Word) : Plan where
  value _ := pure ⟨s, []⟩
  jump target when := if (value != 0) == when then Codegen.emit (.jump target) else pure ()
  effect := pure ()

end Plan

namespace Node

/-- The right operand of a binary operation. -/
def right? : Node → Option Node
  | binary _ _ right _ => some right
  | _ => none

mutual

/-- How a node is compiled, given how the targets of put-off steps are evaluated. -/
def plan (eval : Node → Codegen Operand) : Node → Plan
  | slot s line =>
    match s.literal? with
    | some value => .ofLiteral s value
    | none => .ofValue eval line fun _ => pure ⟨s, []⟩
  | deref base type line =>
    let base := plan eval base
    .ofValue eval line fun _ => Codegen.derefValue (base.value none) type line
  | lookup base index type line =>
    let base := plan eval base
    let fixed := index.literal?
    let index := plan eval index
    .ofValue eval line fun _ =>
      Codegen.lookupValue (base.value none) fixed (index.value none) type line
  | assign op target value line =>
    let target := plan eval target
    let right := value.right?
    let hasCall := value.hasCall
    let value := plan eval value
    .ofValue eval line fun _ =>
      match op with
      | none => Codegen.assignValue (target.value none) value.value right hasCall line
      | some op => Codegen.operateValue op (target.value none) (value.value none) line
  | binary op left right line =>
    let left := plan eval left
    let right := plan eval right
    .ofValue eval line fun dest =>
      Codegen.binaryValue op (left.value none) (right.value none) dest line
  | unary op operand line =>
    let target := operand
    let operand := plan eval operand
    match op with
    | .negate => .ofValue eval line fun _ => Codegen.negateValue (operand.value none) line
    | .complement => .ofValue eval line fun _ => Codegen.complementValue (operand.value none) line
    | .not => .ofJump line fun label when => operand.jump label !when
    | .preStep step =>
      .ofValue eval line fun _ => Codegen.preStepValue step (operand.value none) line
    | .postStep step =>
      .ofValue eval line fun _ => Codegen.postStepValue step target (operand.value none) line
  | compare relation left right line =>
    let left := plan eval left
    let right := plan eval right
    .ofJump line (Codegen.jumpOnRelation eval relation (left.value none) (right.value none) line)
  | logic connective left right line =>
    let left := plan eval left
    let right := plan eval right
    match connective with
    | .and => .ofJump line (Codegen.jumpOnBoth left.jump right.jump line)
    | .or => .ofJump line (Codegen.jumpOnEither left.jump right.jump line)
  | ternary condition yes no line =>
    let condition := plan eval condition
    let yes := plan eval yes
    let no := plan eval no
    .ofValue eval line fun _ =>
      Codegen.ternaryValue eval condition.jump (yes.value none) (no.value none) line
  | call function args returns line =>
    let args := values eval args
    { Plan.ofValue eval line fun _ => Codegen.callValue function args returns line with
      effect := Codegen.callEffect function args returns line }
  | host operation args line =>
    let args := values eval args
    { Plan.ofValue eval line fun _ => Codegen.hostValue operation args line with
      effect := Codegen.hostEffect operation args line }

/-- How some nodes are compiled for their values. -/
def values (eval : Node → Codegen Operand) : List Node → List (Codegen Operand)
  | [] => []
  | n :: rest => (plan eval n).value none :: values eval rest

end

/-- Evaluates a node whose depth of steps after a use is below the first argument. -/
def evalBelow : Nat → Node → Codegen Operand
  | 0, n => Codegen.fail (.defect n.line .updatesNestTooDeep)
  | depth + 1, n => (n.plan (evalBelow depth)).value none

def code (n : Node) : Plan := n.plan (evalBelow n.postDepth)

def eval (n : Node) : Codegen Operand := n.code.value none

end Node

end ContractCompiler
