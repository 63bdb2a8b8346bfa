import ContractCompiler.Codegen.Sentence

/-!
# Assembly — the finished program

The text names the facts about the contract, declares the memory in the order of its addresses with
the contents that are set at the start, and lists the blocks of code, with a blank line before each.
-/

namespace ContractCompiler

set_option autoImplicit false

structure Assembly where
  settings : Settings
  /-- The memory, with the constants that the code made necessary. -/
  table : SlotTable
  blocks : List (List Instr)

def Codegen.State.ofLayout (l : Layout) : Codegen.State := { table := l.table, pool := .ofTable l.table }

namespace Assembly

/-- Compiles a contract that is laid out. -/
def ofProgram (p : Program) (l : Layout) (settings : Settings) (randomId : Nat → String) :
    Outcome Assembly :=
  match Codegen.blocks p ⟨settings, l.functions, randomId, none, none, false⟩ (.ofLayout l) with
  | .done blocks _ s => .ok ⟨settings, s.table, blocks⟩
  | .failed e _ => .error e

/-- A number of stack pages as the header gives it: none is not mentioned. -/
def pages (n : Nat) : Option String := if 0 < n then some (toString n) else none

def facts (s : Settings) : List Instr :=
  [("name", s.name), ("description", s.description), ("activationAmount", s.activationAmount),
    ("codeStackPages", pages s.codeStackPages), ("userStackPages", pages s.userStackPages)].filterMap
    fun (key, value) => value.map (.program key)

/-- The declaration of a slot. Struct variables have no cell and are left out. -/
def declaration (s : Slot) : List Instr :=
  if s.address < 0 then []
  else if s.kind = .array ∨ s.kind = .constant then
    match s.contents with
    | some hex => [.declare s.asmName, .constSet s.asmName hex]
    | none => [.declare s.asmName]
  else [.declare s.asmName]

def header (a : Assembly) : List Instr :=
  facts a.settings ++ a.table.slots.flatMap declaration

def render (a : Assembly) : String :=
  let lines := a.header.map Instr.render ++
    a.blocks.flatMap fun block => "" :: block.map Instr.render
  String.intercalate "\n" (lines ++ [""])

end Assembly

end ContractCompiler
