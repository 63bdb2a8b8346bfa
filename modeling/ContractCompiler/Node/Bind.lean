import ContractCompiler.Expr.Parser
import ContractCompiler.Layout
import ContractCompiler.Node
import ContractCompiler.Token.Literal

/-!
# Node.Bind — from names to slots

Binding looks every name up, checks how it is used, and folds what is known: the address of a
variable, a negated or complemented number, an element of an array at a fixed index.
-/

namespace ContractCompiler

set_option autoImplicit false

/-- What the names in a phrase may mean. -/
structure Names where
  table : SlotTable
  functions : List Signature
  /-- The function that the phrase stands in. -/
  scope : Option String

namespace Names

def resolveVariable (names : Names) (name : String) (line : Nat) : Outcome Slot :=
  match names.table.lookup? name names.scope with
  | some s => .ok s
  | none => .error (.misuse line (.variableUndeclared name))

/-- A variable as a value. A struct variable is none. -/
def valueOf (names : Names) (name : String) (line : Nat) : Outcome Node := do
  let s ← names.resolveVariable name line
  if s.kind = .struct then throw (.misuse line (.aggregateAsValue name))
  return .slot s line

def memberOf (names : Names) (tag field : String) (line : Nat) : Outcome (Nat × ValueType) :=
  match (names.table.members? tag).bind (Member.find? field) with
  | some member => .ok member
  | none => .error (.misuse line (.noSuchMember tag field))

/-- The slot of a member of a struct variable. -/
def memberSlot (names : Names) (name : String) (nameLine : Nat) (field : String) (line : Nat) :
    Outcome Node := do
  let s ← names.resolveVariable name nameLine
  match s.type with
  | .struct tag =>
    if s.kind ≠ .struct then throw (.misuse line (.pointerNeedsArrow name))
    let _ ← names.memberOf tag field line
    match names.table.find? (s.asmName ++ "_" ++ field) with
    | some member => return .slot member line
    | none => throw (.defect line (.memberSlotMissing name field))
  | _ => throw (.misuse line (.notStruct name))

/-- The address of a slot, if it is known. -/
def addressOf? (names : Names) (s : Slot) : Option Int :=
  match s.kind, s.offset with
  | .struct, _ =>
    match s.type with
    | .struct tag => do
      let first ← (← names.table.members? tag).head?
      let member ← names.table.find? (s.asmName ++ "_" ++ first.name)
      return member.address
    | _ => none
  | .array, some (.fixed index) => do
    let first ← Word.ofHex? (← s.contents)
    return Word.toSigned (first + index)
  | .long, none => some s.address
  | .array, none => some s.address
  | .structRef, none => some s.address
  | _, _ => none

def addressLiteral (names : Names) (s : Slot) (line : Nat) : Outcome Node :=
  match names.addressOf? s with
  | some address =>
    if 0 ≤ address then .ok (.literal (UInt64.ofNat address.toNat) line)
    else .error (.misuse line .noAddress)
  | none => .error (.misuse line .noAddress)

/-- What is called by a name: a function of the contract, or else the host. -/
def callee (names : Names) (function : String) (line : Nat) : Outcome (Signature ⊕ HostCall) :=
  match Signature.find? names.functions function, HostCall.find? function with
  | some f, _ => .ok (.inl f)
  | none, some c => .ok (.inr c)
  | none, none => .error (.misuse line (.functionUndeclared function))

/-- Checks the number of arguments and gives what is called. -/
def checkedCallee (names : Names) (function : String) (count line : Nat) :
    Outcome (Signature ⊕ HostCall) := do
  let callee ← names.callee function line
  let expected := match callee with
    | .inl f => f.params.length
    | .inr c => c.arity
  if count ≠ expected then throw (.misuse line (.argumentCount function expected))
  return callee

end Names

namespace Node

def ofCall (callee : Signature ⊕ HostCall) (args : List Node) (line : Nat) : Node :=
  match callee with
  | .inl f => .call f.name args f.returns line
  | .inr c => .host c args line

/-- The offset that an index is, unless it has to be computed. -/
def offset? (index : Node) : Option Offset :=
  match index.literal?, index with
  | some value, _ => some (.fixed value)
  | none, slot s _ =>
    if s.isDirect && (s.kind == .long || s.kind == .register || s.kind == .constant) then
      some (.dynamic s.address)
    else none
  | none, _ => none

/-- The view of a slot at an offset. A fixed index has to lie inside an array. -/
def viewOf (s : Slot) (offset : Offset) (type : ValueType) (line : Nat) : Outcome Node :=
  match s.kind, offset with
  | .array, .fixed index =>
    if s.size ≤ index.toNat then
      .error (.misuse line (.indexOutOfBounds index.toNat s.name s.size))
    else .ok (slot (s.withOffset offset type) line)
  | _, _ => .ok (slot (s.withOffset offset type) line)

/-- The slot that can be viewed through an offset. A literal and a struct variable have no address to
start from. -/
def base? (base : Node) (line : Nat) : Outcome (Option Slot) :=
  match base with
  | slot s _ =>
    if s.isDirect && s.address != Slot.nowhere then
      if s.kind == .struct || s.kind == .constant then
        .error (.misuse line (.notAnAddress s.name))
      else .ok (some s)
    else if s.literal?.isSome then .error (.misuse line .literalAsAddress)
    else .ok none
  | _ => .ok none

/-- `*base`. -/
def dereference (base : Node) (type : ValueType) (line : Nat) : Outcome Node := do
  match ← base.base? line with
  | some s => viewOf s (.fixed 0) type line
  | none => return deref base type line

/-- `base[index]` and `base->member`. -/
def indexed (base index : Node) (type : ValueType) (line : Nat) : Outcome Node := do
  match ← base.base? line, index.offset? with
  | some s, some offset => viewOf s offset type line
  | _, _ => return lookup base index type line

/-- Checks that a node can be assigned to by an operator. -/
def assignable (node : Node) (operator : String) (line : Nat) : Outcome Node :=
  if node.isAssignable then .ok node else .error (.misuse line (.invalidLeftSide operator))

/-- `->field`. -/
def throughPointer (names : Names) (base : Node) (field : String) (line : Nat) : Outcome Node := do
  match base.type with
  | .structPtr tag =>
    let (position, type) ← names.memberOf tag field line
    base.indexed (literal (UInt64.ofNat position) line) type line
  | _ => throw (.misuse line (.notStructPointer field))

/-- The slot that the address of a node is asked of. -/
def slotOf (node : Node) (line : Nat) : Outcome Slot :=
  match node with
  | slot s _ => .ok s
  | _ => .error (.misuse line .noAddress)

/-- A negation, folded for a number. -/
def negated (operand : Node) (line : Nat) : Node :=
  match operand.literal? with
  | some value => literal (-value) line
  | none => unary .negate operand line

/-- A complement, folded for a number. -/
def complemented (operand : Node) (line : Nat) : Node :=
  match operand.literal? with
  | some value => literal (~~~value) line
  | none => unary .complement operand line

end Node

namespace Expr

/-- The name that an expression consists of. -/
def name? : Expr → Option (String × Nat)
  | name n line => some (n, line)
  | _ => none

mutual

/-- Binds the names of an expression. -/
def bind (names : Names) : Expr → Outcome Node
  | name n line => names.valueOf n line
  | number digits line => do return .literal (← Token.literal ⟨.number, digits, line⟩) line
  | call function line args => do
    let callee ← names.checkedCallee function args.length line
    return Node.ofCall callee (← bindAll names args) line
  | index line base position => do
    let base ← bind names base
    let position ← bind names position
    base.indexed position .long line
  | member line arrow base field =>
    if arrow then do
      let base ← bind names base
      base.throughPointer names field line
    else
      match base.name? with
      | some (n, nameLine) => names.memberSlot n nameLine field line
      | none => .error (.misuse line (.notStructVariable field))
  | prefixed op line operand =>
    match op with
    | .addressOf =>
      match operand.name? with
      | some (n, nameLine) => do names.addressLiteral (← names.resolveVariable n nameLine) line
      | none => do names.addressLiteral (← (← bind names operand).slotOf line) line
    | .deref => do (← bind names operand).dereference .long line
    | .step s => do
      let target ← (← bind names operand).assignable s.symbol operand.line
      return .unary (.preStep s) target line
    | .negate => do return (← bind names operand).negated line
    | .complement => do return (← bind names operand).complemented line
    | .not => do return .unary .not (← bind names operand) line
  | stepped s line operand => do
    let target ← (← bind names operand).assignable s.symbol operand.line
    return .unary (.postStep s) target line
  | infixed op line left right =>
    match op with
    | .assign arith => do
      let target ← (← bind names left).assignable op.symbol left.line
      return .assign arith target (← bind names right) line
    | .arith arith => do return .binary arith (← bind names left) (← bind names right) line
    | .compare relation => do return .compare relation (← bind names left) (← bind names right) line
    | .logic connective => do return .logic connective (← bind names left) (← bind names right) line
  | ternary line condition yes no => do
    return .ternary (← bind names condition) (← bind names yes) (← bind names no) line

def bindAll (names : Names) : List Expr → Outcome (List Node)
  | [] => .ok []
  | e :: rest => do return (← bind names e) :: (← bindAll names rest)

end

end Expr

/-- Binds the names of a phrase. Only `return` and `sleep` take a value, and `sleep` needs one. -/
def Phrase.bind (names : Names) : Phrase → Outcome Command
  | .value e => do return .value (← e.bind names)
  | .control word line none =>
    if word = .sleep then .error (.malformed line .sleepWithoutValue)
    else .ok (.control word none line)
  | .control word line (some e) => do
    let node ← e.bind names
    if word = .return_ ∨ word = .sleep then return .control word (some node) line
    else throw (.malformed line (.valueAfterKeyword word.word))

namespace Names

/-- Reads and binds a phrase; no tokens are an empty phrase. -/
def phrase (names : Names) (tokens : List Token) (line : Nat) : Outcome (Option Command) := do
  match ← Phrase.ofTokens tokens line with
  | none => return none
  | some p => return some (← p.bind names)

/-- Reads and binds the condition of a sentence at `line`. -/
def condition (names : Names) (tokens : List Token) (line : Nat) : Outcome Node := do
  (← Expr.ofCondition tokens line).bind names

end Names

end ContractCompiler
