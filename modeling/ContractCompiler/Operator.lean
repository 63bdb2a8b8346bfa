/-!
# Operator — the operators of the language and of the machine

The arithmetic operators and the relations have a symbol in the source and a mnemonic in the code.
-/

namespace ContractCompiler

set_option autoImplicit false

/-- An operator that computes a word from two. -/
inductive BinaryOp where
  | add
  | sub
  | mul
  | div
  | or
  | and
  | xor
  | mod
  | shl
  | shr
  deriving DecidableEq, Repr

namespace BinaryOp

def symbol : BinaryOp → String
  | add => "+"
  | sub => "-"
  | mul => "*"
  | div => "/"
  | or => "|"
  | and => "&"
  | xor => "^"
  | mod => "%"
  | shl => "<<"
  | shr => ">>"

def mnemonic : BinaryOp → String
  | add => "ADD"
  | sub => "SUB"
  | mul => "MUL"
  | div => "DIV"
  | or => "BOR"
  | and => "AND"
  | xor => "XOR"
  | mod => "MOD"
  | shl => "SHL"
  | shr => "SHR"

/-- The operands may be exchanged. -/
def isCommutative : BinaryOp → Bool
  | add | mul | or | and | xor => true
  | sub | div | mod | shl | shr => false

def all : List BinaryOp := [add, sub, mul, div, or, and, xor, mod, shl, shr]

def ofSymbol? (symbol : String) : Option BinaryOp :=
  all.find? (·.symbol == symbol)

end BinaryOp

/-- A relation between two words, ordered as signed numbers. -/
inductive Relation where
  | eq
  | ne
  | lt
  | le
  | gt
  | ge
  deriving DecidableEq, Repr

namespace Relation

def symbol : Relation → String
  | eq => "=="
  | ne => "!="
  | lt => "<"
  | le => "<="
  | gt => ">"
  | ge => ">="

def mnemonic : Relation → String
  | eq => "BEQ"
  | ne => "BNE"
  | lt => "BLT"
  | le => "BLE"
  | gt => "BGT"
  | ge => "BGE"

/-- The relation that holds exactly when this one does not. -/
def negate : Relation → Relation
  | eq => ne
  | ne => eq
  | lt => ge
  | le => gt
  | gt => le
  | ge => lt

def all : List Relation := [eq, ne, lt, le, gt, ge]

def ofSymbol? (symbol : String) : Option Relation :=
  all.find? (·.symbol == symbol)

end Relation

inductive Connective where
  | and
  | or
  deriving DecidableEq, Repr

namespace Connective

def symbol : Connective → String
  | and => "&&"
  | or => "||"

end Connective

/-- A change of a variable by one. -/
inductive Step where
  | up
  | down
  deriving DecidableEq, Repr

namespace Step

def symbol : Step → String
  | up => "++"
  | down => "--"

end Step

/-- A keyword that may begin a phrase. -/
inductive Control where
  | return_
  | break_
  | continue_
  | exit
  | halt
  | sleep
  deriving DecidableEq, Repr

namespace Control

def word : Control → String
  | return_ => "return"
  | break_ => "break"
  | continue_ => "continue"
  | exit => "exit"
  | halt => "halt"
  | sleep => "sleep"

def all : List Control := [return_, break_, continue_, exit, halt, sleep]

def ofWord? (word : String) : Option Control :=
  all.find? (·.word == word)

end Control

end ContractCompiler
