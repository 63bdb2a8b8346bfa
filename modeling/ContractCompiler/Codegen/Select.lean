import ContractCompiler.Codegen.Operand

/-!
# Codegen.Select — the code of single operations

Each action emits the code of one operation on slots of any kind. It holds no register afterwards,
whether it succeeds or is refused.
-/

namespace ContractCompiler

set_option autoImplicit false

/-- An operation that changes a variable in place. -/
inductive Update where
  | step (step : Step)
  | complement
  deriving DecidableEq, Repr

def Update.instr : Update → String → Instr
  | step .up => .increment
  | step .down => .decrement
  | complement => .complement

/-- The cheaper code of an operation with a literal on its right, where there is any. Adding two is
cheaper only while no constant two is kept. -/
def BinaryOp.cheap? (op : BinaryOp) (value : Word) (twoKept : Bool) (dest : String) :
    Option (List Instr) :=
  match op with
  | .add =>
    if value = 0 then some []
    else if value = 1 then some [.increment dest]
    else if value = 2 ∧ !twoKept then some [.increment dest, .increment dest]
    else none
  | .sub =>
    if value = 0 then some []
    else if value = 1 then some [.decrement dest]
    else none
  | .mul =>
    if value = 0 then some [.clear dest]
    else if value = 1 then some []
    else none
  | .div => if value = 1 then some [] else none
  | _ => none

/-- A slot that can not be written to as a whole. -/
def Slot.isUnwritable (s : Slot) : Bool :=
  s.kind == .constant || s.kind == .struct || (s.kind == .array && s.isDirect)

namespace Codegen

def setLiteral (dest : String) (value : Word) : Codegen Unit := do
  if value = 0 then emit (.clear dest)
  else
    match (← table).interned? value with
    | some constant => emit (.set dest constant.asmName)
    | none => emit (.setLiteral dest value.toHex)

def setCell (dest source : Slot) (line : Nat) : Codegen Unit := do
  if source.sameLocation dest then return ()
  else
    match source.literal? with
    | some value => setLiteral dest.asmName value
    | none =>
      match ← place source line with
      | .direct src =>
        if src.sameLocation dest then return ()
        else emit (.set dest.asmName src.asmName)
      | .indirect base offset holds =>
        emit (.load dest.asmName base offset)
        giveBack holds line

/-- `target = source`. -/
def assign (target source : Slot) (line : Nat) : Codegen Unit := do
  if target.isUnwritable then fail (.misuse line (.notAssignable target.asmName))
  else
    match ← place target line with
    | .direct dest => setCell dest source line
    | .indirect base offset holds =>
      let src ← holding holds (resolve source line)
      emit (.store base offset src.slot.asmName)
      giveBack holds line
      release src.holds

/-- Writes an operand back where it was loaded from, if it was loaded. -/
def writeBack (target : Slot) (o : Operand) (line : Nat) : Codegen Unit := do
  if o.holds.isEmpty then return ()
  else
    holding o.holds (assign target o.slot line)
    giveBack o.holds line

/-- `left = left op right`. -/
def operate (op : BinaryOp) (left right : Slot) (line : Nat) : Codegen Unit := do
  if left.kind = .constant then fail (.misuse line .constantAsAccumulator)
  else
    let dest ← resolve left line
    let twoKept := ((← table).interned? 2).isSome
    match right.literal?.bind fun value => op.cheap? value twoKept dest.slot.asmName with
    | some code => emitAll code
    | none =>
      let src ← holding dest.holds (resolve right line)
      emit (.binary op dest.slot.asmName src.slot.asmName)
      giveBack src.holds line
    writeBack left dest line

def update (u : Update) (target : Slot) (line : Nat) : Codegen Unit := do
  if target.isUnwritable then fail (.misuse line (.notModifiable target.asmName))
  else
    let dest ← resolve target line
    emit (u.instr dest.slot.asmName)
    writeBack target dest line

/-- Jumps if a slot is zero, or if it is not. -/
def jumpIfZero (isZero : Bool) (tested : Slot) (target : String) (line : Nat) : Codegen Unit := do
  let o ← resolve tested line
  if isZero then emit (.branchZero o.slot.asmName target)
  else emit (.branchNonzero o.slot.asmName target)
  release o.holds

/-- Jumps if a relation holds between two slots. -/
def jumpIf (relation : Relation) (left right : Slot) (target : String) (line : Nat) :
    Codegen Unit := do
  let l ← resolve left line
  let r ← holding l.holds (resolve right line)
  emit (.branch relation l.slot.asmName r.slot.asmName target)
  release (l.holds ++ r.holds)

/-- Jumps if a relation holds between two slots, or between a slot and zero. Equality with zero has
instructions of its own. -/
def compare (relation : Relation) (left : Slot) (right : Option Slot) (target : String)
    (line : Nat) : Codegen Unit :=
  let isZero (s : Slot) : Bool := s.literal? == some 0
  if relation = .eq ∨ relation = .ne then
    match right with
    | none => jumpIfZero (relation == .eq) left target line
    | some right =>
      if isZero right then jumpIfZero (relation == .eq) left target line
      else if isZero left then jumpIfZero (relation == .eq) right target line
      else jumpIf relation left right target line
  else
    match right with
    | some right => jumpIf relation left right target line
    | none => fail (.defect line .orderedWithoutRight)

/-- Pushes a slot on the stack of the contract. -/
def push (s : Slot) (line : Nat) : Codegen Unit := do
  let o ← resolve s line
  emit (.push o.slot.asmName)
  release o.holds

/-- Jumps to an end of the innermost loop. -/
def leaveLoop (word : Control) (ending : String) (line : Nat) : Codegen Unit := do
  match (← context).loop with
  | some label => emit (.jump (label ++ ending))
  | none => fail (.misuse line (.outsideLoop word.word))

/-- A keyword of control. Outside of called functions, `return` ends the activation. -/
def control (word : Control) (value : Option Slot) (line : Nat) : Codegen Unit := do
  match word with
  | .return_ =>
    if (← calledFunction).isNone then emit .finish
    else
      match value with
      | some s => push s line
      | none => pure ()
      emit .ret
  | .break_ => leaveLoop word "_break" line
  | .continue_ => leaveLoop word "_continue" line
  | .exit => emit .finish
  | .halt => emit .stop
  | .sleep =>
    match value with
    | none => fail (.defect line .sleepWithoutOperand)
    | some s =>
      let o ← resolve s line
      emit (.sleep o.slot.asmName)
      release o.holds

end Codegen

end ContractCompiler
