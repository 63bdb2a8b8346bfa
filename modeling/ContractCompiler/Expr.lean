import ContractCompiler.Operator

/-!
# Expr — operator trees, before names are looked up

Every node keeps the line of the token that it is reported at: a name, a number, the operator, the
opening bracket of an index, the member's name, the question mark.
-/

namespace ContractCompiler

set_option autoImplicit false

inductive PrefixOp where
  | negate
  | complement
  | not
  | step (step : Step)
  | deref
  | addressOf
  deriving DecidableEq, Repr

namespace PrefixOp

def symbol : PrefixOp → String
  | negate => "-"
  | complement => "~"
  | not => "!"
  | step s => s.symbol
  | deref => "*"
  | addressOf => "&"

def all : List PrefixOp :=
  [negate, complement, not, step .up, step .down, deref, addressOf]

end PrefixOp

inductive InfixOp where
  | arith (op : BinaryOp)
  | compare (relation : Relation)
  | logic (connective : Connective)
  /-- A plain assignment, or one that applies an operator to the old value. -/
  | assign (op : Option BinaryOp)
  deriving DecidableEq, Repr

namespace InfixOp

def symbol : InfixOp → String
  | arith op => op.symbol
  | compare relation => relation.symbol
  | logic connective => connective.symbol
  | assign none => "="
  | assign (some op) => op.symbol ++ "="

def all : List InfixOp :=
  BinaryOp.all.map arith ++ Relation.all.map compare ++ [logic .and, logic .or] ++
    assign none :: BinaryOp.all.map (assign ∘ some)

/-- How tightly an operator binds. -/
def level : InfixOp → Nat
  | arith .mul | arith .div | arith .mod => 13
  | arith .add | arith .sub => 12
  | arith .shl | arith .shr => 11
  | compare .lt | compare .le | compare .gt | compare .ge => 10
  | compare .eq | compare .ne => 9
  | arith .and => 8
  | arith .xor => 7
  | arith .or => 6
  | logic .and => 5
  | logic .or => 4
  | assign _ => 2

/-- Assignments group to the right, all else to the left. -/
def groupsRight : InfixOp → Bool
  | assign _ => true
  | _ => false

end InfixOp

inductive Expr where
  | name (name : String) (line : Nat)
  | number (text : String) (line : Nat)
  | call (function : String) (line : Nat) (args : List Expr)
  | index (line : Nat) (base index : Expr)
  /-- A member of a struct variable, or through a pointer if `arrow`. -/
  | member (line : Nat) (arrow : Bool) (base : Expr) (field : String)
  | prefixed (op : PrefixOp) (line : Nat) (operand : Expr)
  | stepped (step : Step) (line : Nat) (operand : Expr)
  | infixed (op : InfixOp) (line : Nat) (left right : Expr)
  | ternary (line : Nat) (condition yes no : Expr)

def Expr.line : Expr → Nat
  | name _ line => line
  | number _ line => line
  | call _ line _ => line
  | index line _ _ => line
  | member line _ _ _ => line
  | prefixed _ line _ => line
  | stepped _ line _ => line
  | infixed _ line _ _ => line
  | ternary line _ _ _ => line

/-- A statement without blocks: a keyword of control with or without a value, or an expression. -/
inductive Phrase where
  | control (word : Control) (line : Nat) (value : Option Expr)
  | value (expr : Expr)

def Phrase.line : Phrase → Nat
  | control _ line _ => line
  | value expr => expr.line

end ContractCompiler
