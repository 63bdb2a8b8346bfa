import ContractCompiler.Instr
import ContractCompiler.LabelId
import ContractCompiler.Layout
import ContractCompiler.Node.Bind
import ContractCompiler.Pool

/-!
# Codegen — actions that emit code

An action reads a context, changes a state, and either emits code and gives a value, or is refused.
The code of an action is a part of its result, so that what follows can not change it. A refused
action has a state as well: constants that it stored stay stored. An action that is refused while it
holds registers can give them back, which `Codegen.holding` is for.
-/

namespace ContractCompiler

set_option autoImplicit false

namespace Codegen

/-- What does not change from one phrase to the next. -/
structure Context where
  settings : Settings
  functions : List Signature
  /-- What random labels carry, by the number of labels made so far. -/
  randomId : Nat → String := LabelId.scrambled 0
  /-- The function that the code belongs to. -/
  function : Option String := none
  /-- The label of the innermost loop, without its ending. -/
  loop : Option String := none
  /-- The code decides a jump of a sentence. -/
  inCondition : Bool := false

structure State where
  table : SlotTable
  pool : Pool
  /-- How many labels were made. -/
  labels : Nat := 0
  /-- The steps that are still to be done, the earliest first. -/
  deferred : List (Step × Node) := []
  /-- The line of the last comment. -/
  lastComment : Option Nat := none

/-- What an action leads to. -/
inductive Result (α : Type) where
  | done (value : α) (code : List Instr) (state : State)
  | failed (error : CompileError) (state : State)

end Codegen

/-- An action that emits code. -/
def Codegen (α : Type) := Codegen.Context → Codegen.State → Codegen.Result α

namespace Codegen

variable {α β : Type}

def pure (a : α) : Codegen α := fun _ s => .done a [] s

/-- Emits the code of both actions, one after the other. -/
def bind (m : Codegen α) (f : α → Codegen β) : Codegen β := fun ctx s =>
  match m ctx s with
  | .failed e s' => .failed e s'
  | .done a code s' =>
    match f a ctx s' with
    | .failed e s'' => .failed e s''
    | .done b code' s'' => .done b (code ++ code') s''

instance : Monad Codegen where
  pure := Codegen.pure
  bind := Codegen.bind

def fail (e : CompileError) : Codegen α := fun _ s => .failed e s

/-- Gives what a check gives. -/
def ofOutcome : Outcome α → Codegen α
  | .ok a => pure a
  | .error e => fail e

def context : Codegen Context := fun ctx s => .done ctx [] s

/-- Runs an action in a changed context. -/
def within (change : Context → Context) (m : Codegen α) : Codegen α := fun ctx s =>
  m (change ctx) s

def state : Codegen State := fun _ s => .done s [] s

def modifyState (f : State → State) : Codegen Unit := fun _ s => .done () [] (f s)

def emit (i : Instr) : Codegen Unit := fun _ s => .done () [i] s

def emitAll (code : List Instr) : Codegen Unit := fun _ s => .done () code s

/-- Runs an action and gives its code in place of emitting it. -/
def capture (m : Codegen α) : Codegen (α × List Instr) := fun ctx s =>
  match m ctx s with
  | .done a code s' => .done (a, code) [] s'
  | .failed e s' => .failed e s'

def table : Codegen SlotTable := do return (← state).table

def allocate (line : Nat) : Codegen Slot := do
  let (r, pool) ← ofOutcome ((← state).pool.allocate line)
  modifyState ({ · with pool := pool })
  return r

/-- The state without a hold on some registers. -/
def State.release (s : State) (registers : List Slot) : State :=
  { s with pool := registers.foldl (fun pool r => pool.free r.address) s.pool }

def release (registers : List Slot) : Codegen Unit :=
  modifyState (·.release registers)

/-- Gives registers back that have to be held. -/
def giveBack (registers : List Slot) (line : Nat) : Codegen Unit := do
  let pool ← ofOutcome (registers.foldlM (fun pool r => pool.release r.address line) (← state).pool)
  modifyState ({ · with pool := pool })

/-- Runs an action while registers are held. If it is refused, they are given back. -/
def holding (registers : List Slot) (m : Codegen α) : Codegen α := fun ctx s =>
  match m ctx s with
  | .done a code s' => .done a code s'
  | .failed e s' => .failed e (s'.release registers)

/-- The slot that keeps a constant, if there is room for it. -/
def intern (value : Word) : Codegen (Option Slot) := do
  let (t, kept) := (← table).intern value (← context).settings.maxConstVars
  modifyState ({ · with table := t })
  return kept

/-- What a new label carries. -/
def labelId (line : Nat) : Codegen String := do
  let ctx ← context
  let ordinal := (← state).labels + 1
  modifyState ({ · with labels := ordinal })
  return LabelId.ofSettings ctx.settings ctx.randomId line ordinal

/-- Notes the source line in the code, if that is wanted and it is not the line noted last. -/
def comment (line : Nat) : Codegen Unit := do
  if (← context).settings.outputSourceLineNumber && (← state).lastComment != some line then
    emit (.comment ("line " ++ toString line))
    modifyState ({ · with lastComment := some line })

/-- Puts a step off. -/
def defer (step : Step) (target : Node) : Codegen Unit :=
  modifyState fun s => { s with deferred := s.deferred ++ [(step, target)] }

def deferredCount : Codegen Nat := do return (← state).deferred.length

/-- Takes the steps that were put off since there were `mark` of them. -/
def takeDeferred (mark : Nat) : Codegen (List (Step × Node)) := do
  let deferred := (← state).deferred
  modifyState ({ · with deferred := deferred.take mark })
  return deferred.drop mark

def names : Codegen Names := do
  let ctx ← context
  return ⟨← table, ctx.functions, ctx.function⟩

/-- Makes sure that no register is held. -/
def checkRegisters (line : Nat) : Codegen Unit := do
  let live := (← state).pool.live
  if live.isEmpty then return ()
  else fail (.defect line (.registersHeld live))

/-- The function that the code belongs to. The main function is none: it has no caller. -/
def calledFunction : Codegen (Option String) := do
  return (← context).function.filter (· != "main")

end Codegen

end ContractCompiler
