import ContractCompiler.Operator

/-!
# Instr — the instructions of the machine

An instruction is one line of the output. Operands are the names of memory slots; `Instr.render`
marks the written ones with `@` and the read ones with `$`.
-/

namespace ContractCompiler

set_option autoImplicit false

inductive Instr where
  -- facts about the contract
  | program (key value : String)
  | declare (name : String)
  | constSet (dest hex : String)
  | comment (text : String)
  | label (name : String)
  -- computation
  | setLiteral (dest hex : String)
  | set (dest src : String)
  | clear (dest : String)
  | increment (dest : String)
  | decrement (dest : String)
  | complement (dest : String)
  | binary (op : BinaryOp) (dest src : String)
  /-- Reads the cell at the address `base`, or at `base + offset`. -/
  | load (dest base : String) (offset : Option String)
  /-- Writes the cell at the address `base`, or at `base + offset`. -/
  | store (base : String) (offset : Option String) (src : String)
  -- control
  | branchZero (src target : String)
  | branchNonzero (src target : String)
  | branch (relation : Relation) (left right target : String)
  | jump (target : String)
  | call (target : String)
  | ret
  | push (src : String)
  | pop (dest : String)
  | finish
  | stop
  | sleep (src : String)
  /-- The next activation begins here. -/
  | resetStart
  | host (result : Option String) (name : String) (args : List String)
  deriving DecidableEq, Repr

namespace Instr

/-- An indirect operand: the cell at an address held in memory. -/
def renderCell (base : String) : Option String → String
  | none => "($" ++ base ++ ")"
  | some offset => "($" ++ base ++ " + $" ++ offset ++ ")"

/-- The line of output that an instruction is written as. -/
def render : Instr → String
  | program key value => "^program " ++ key ++ " " ++ value
  | declare name => "^declare " ++ name
  | constSet dest hex => "^const SET @" ++ dest ++ " #" ++ hex
  | comment text => "^comment " ++ text
  | label name => name ++ ":"
  | setLiteral dest hex => "SET @" ++ dest ++ " #" ++ hex
  | set dest src => "SET @" ++ dest ++ " $" ++ src
  | clear dest => "CLR @" ++ dest
  | increment dest => "INC @" ++ dest
  | decrement dest => "DEC @" ++ dest
  | complement dest => "NOT @" ++ dest
  | binary op dest src => op.mnemonic ++ " @" ++ dest ++ " $" ++ src
  | load dest base offset => "SET @" ++ dest ++ " $" ++ renderCell base offset
  | store base offset src => "SET @" ++ renderCell base offset ++ " $" ++ src
  | branchZero src target => "BZR $" ++ src ++ " :" ++ target
  | branchNonzero src target => "BNZ $" ++ src ++ " :" ++ target
  | branch relation left right target =>
    relation.mnemonic ++ " $" ++ left ++ " $" ++ right ++ " :" ++ target
  | jump target => "JMP :" ++ target
  | call target => "JSR :" ++ target
  | ret => "RET"
  | push src => "PSH $" ++ src
  | pop dest => "POP @" ++ dest
  | finish => "FIN"
  | stop => "STP"
  | sleep src => "SLP $" ++ src
  | resetStart => "PCS"
  | host result name args =>
    "FUN" ++ (match result with | some dest => " @" ++ dest | none => "") ++ " " ++ name ++
      String.join (args.map (" $" ++ ·))

end Instr

end ContractCompiler
