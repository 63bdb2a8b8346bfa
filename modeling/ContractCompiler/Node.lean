import ContractCompiler.HostCall
import ContractCompiler.Operator
import ContractCompiler.Slot

/-!
# Node — expressions whose names are slots

An index, a dereference or a member is a slot with an offset where the base and the index are plain
slots. Everything else of that kind is a `lookup` or a `deref`, whose address is computed at run time.
-/

namespace ContractCompiler

set_option autoImplicit false

inductive UnaryOp where
  | negate
  | complement
  | not
  | preStep (step : Step)
  /-- The variable changes after the phrase, or before the next jump. -/
  | postStep (step : Step)
  deriving DecidableEq, Repr

inductive Node where
  | slot (slot : Slot) (line : Nat)
  /-- The cell at the address `base`. -/
  | deref (base : Node) (type : ValueType) (line : Nat)
  /-- The cell at the address `base + index`. -/
  | lookup (base index : Node) (type : ValueType) (line : Nat)
  /-- A plain assignment, or one that applies an operator to the old value. -/
  | assign (op : Option BinaryOp) (target value : Node) (line : Nat)
  | binary (op : BinaryOp) (left right : Node) (line : Nat)
  | unary (op : UnaryOp) (operand : Node) (line : Nat)
  | compare (relation : Relation) (left right : Node) (line : Nat)
  | logic (connective : Connective) (left right : Node) (line : Nat)
  | ternary (condition yes no : Node) (line : Nat)
  | call (function : String) (args : List Node) (returns : ValueType) (line : Nat)
  | host (call : HostCall) (args : List Node) (line : Nat)

namespace Node

def line : Node → Nat
  | slot _ line => line
  | deref _ _ line => line
  | lookup _ _ _ line => line
  | assign _ _ _ line => line
  | binary _ _ _ line => line
  | unary _ _ line => line
  | compare _ _ _ line => line
  | logic _ _ _ line => line
  | ternary _ _ _ line => line
  | call _ _ _ line => line
  | host _ _ line => line

/-- A number written in the source. -/
def literal (value : Word) (line : Nat) : Node := slot (Slot.literal value) line

def literal? : Node → Option Word
  | slot s _ => s.literal?
  | _ => none

def type : Node → ValueType
  | slot s _ => s.type
  | deref _ type _ => type
  | lookup _ _ type _ => type
  | assign _ target _ _ => target.type
  | call _ _ returns _ => returns
  | _ => .long

def isAssignable : Node → Bool
  | slot s _ =>
    match s.kind with
    | .long | .register | .structRef => true
    | .array => s.offset.isSome
    | .constant | .struct => false
  | deref _ _ _ => true
  | lookup _ _ _ _ => true
  | _ => false

/-- A function or the host is called. -/
def hasCall : Node → Bool
  | slot _ _ => false
  | deref base _ _ => base.hasCall
  | lookup base index _ _ => base.hasCall || index.hasCall
  | assign _ target value _ => target.hasCall || value.hasCall
  | binary _ left right _ => left.hasCall || right.hasCall
  | unary _ operand _ => operand.hasCall
  | compare _ left right _ => left.hasCall || right.hasCall
  | logic _ left right _ => left.hasCall || right.hasCall
  | ternary condition yes no _ => condition.hasCall || yes.hasCall || no.hasCall
  | call _ _ _ _ => true
  | host _ _ _ => true

mutual

/-- A slot of the node is the one at that address, or its offset is held there. -/
def mentions (address : Int) : Node → Bool
  | slot s _ => s.address == address || s.offset == some (.dynamic address)
  | deref base _ _ => base.mentions address
  | lookup base index _ _ => base.mentions address || index.mentions address
  | assign _ target value _ => target.mentions address || value.mentions address
  | binary _ left right _ => left.mentions address || right.mentions address
  | unary _ operand _ => operand.mentions address
  | compare _ left right _ => left.mentions address || right.mentions address
  | logic _ left right _ => left.mentions address || right.mentions address
  | ternary condition yes no _ =>
    condition.mentions address || yes.mentions address || no.mentions address
  | call _ args _ _ => anyMentions address args
  | host _ args _ => anyMentions address args

def anyMentions (address : Int) : List Node → Bool
  | [] => false
  | n :: rest => n.mentions address || anyMentions address rest

end

mutual

/-- How deep steps after a use are nested in the targets of other such steps. -/
def postDepth : Node → Nat
  | slot _ _ => 0
  | deref base _ _ => base.postDepth
  | lookup base index _ _ => max base.postDepth index.postDepth
  | assign _ target value _ => max target.postDepth value.postDepth
  | binary _ left right _ => max left.postDepth right.postDepth
  | unary op operand _ =>
    match op with
    | .postStep _ => operand.postDepth + 1
    | _ => operand.postDepth
  | compare _ left right _ => max left.postDepth right.postDepth
  | logic _ left right _ => max left.postDepth right.postDepth
  | ternary condition yes no _ => max condition.postDepth (max yes.postDepth no.postDepth)
  | call _ args _ _ => maxPostDepth args
  | host _ args _ => maxPostDepth args

def maxPostDepth : List Node → Nat
  | [] => 0
  | n :: rest => max n.postDepth (maxPostDepth rest)

end

end Node

/-- A phrase whose names are slots. -/
inductive Command where
  | control (word : Control) (value : Option Node) (line : Nat)
  | value (node : Node)

def Command.line : Command → Nat
  | control _ _ line => line
  | value node => node.line

end ContractCompiler
