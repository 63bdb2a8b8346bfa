import ContractCompiler.Codegen.Node
import ContractCompiler.Freeze

/-!
# Codegen.Sentence — the code of phrases, sentences and functions

The code of a contract is a list of blocks. The first holds what stands outside of functions, followed
by the main function; each other function is a block of its own.
-/

namespace ContractCompiler

set_option autoImplicit false

namespace Codegen

/-! ## Phrases -/

/-- The value that a keyword of control works on. Only a function that has a value returns one. -/
def controlValue (word : Control) (value : Option Node) (line : Nat) : Codegen (Option Node) := do
  match word, ← calledFunction with
  | .return_, none => return none
  | .return_, some function =>
    let hasValue :=
      ((Signature.find? (← context).functions function).map Signature.returnsValue).getD false
    match hasValue, value with
    | false, some _ => fail (.misuse line (.returnFromVoid function))
    | true, none => fail (.misuse line (.returnWithoutValue function))
    | _, value => return value
  | _, _ => return value

/-- The code of a bound phrase, without the steps put off. -/
def command : Command → Codegen Unit
  | .value node => node.code.effect
  | .control word value line => do
    match ← controlValue word value line with
    | none => control word none line
    | some node =>
      let o ← node.eval
      control word (some o.slot) line
      release o.holds

/-- Makes the code of a phrase into contents that are set at the start. -/
def freeze (code : List Instr) (line : Nat) : Codegen Unit := do
  let (t, result) := (← table).freeze line code
  modifyState ({ · with table := t })
  emitAll (← ofOutcome result)

def phrase (tokens : List Token) (isConst : Bool) (line : Nat) : Codegen Unit := do
  match ← ofOutcome ((← names).phrase tokens line) with
  | none => return ()
  | some bound =>
    let line := bound.line
    comment line
    let ((), code) ← capture do
      command bound
      applyDeferred Node.eval 0 line
      checkRegisters line
    if isConst then freeze code line else emitAll code

/-- Jumps to a label if the truth of a condition is the given one. -/
def condition (tokens : List Token) (target : String) (when : Bool) (line : Nat) :
    Codegen Unit := do
  let node ← ofOutcome ((← names).condition tokens line)
  within ({ · with inCondition := true }) (node.code.jump target when)
  checkRegisters line

/-- The initial values of a declaration are assignments. -/
def initialValues (isConst : Bool) : List Declarator → Codegen Unit
  | [] => pure ()
  | d :: rest => do
    match d.init with
    | none => pure ()
    | some init =>
      phrase (⟨.identifier, d.name, d.line⟩ :: ⟨.punct, "=", d.line⟩ :: init) isConst d.line
    initialValues isConst rest

/-! ## Sentences -/

mutual

def sentence : Sentence → Codegen Unit
  | .phrase line isConst code => phrase code isConst line
  | .declaration d => initialValues d.isConst d.declarators
  | .block body => sentences body
  | .ifThen line test yes => do
    let label := "__if" ++ (← labelId line)
    comment line
    condition test (label ++ "_endif") false line
    emit (.label (label ++ "_start"))
    sentences yes
    emit (.label (label ++ "_endif"))
  | .ifElse line test yes no => do
    let label := "__if" ++ (← labelId line)
    comment line
    condition test (label ++ "_else") false line
    emit (.label (label ++ "_start"))
    sentences yes
    emit (.jump (label ++ "_endif"))
    emit (.label (label ++ "_else"))
    sentences no
    emit (.label (label ++ "_endif"))
  | .whileLoop line test body => do
    let label := "__loop" ++ (← labelId line)
    comment line
    emit (.label (label ++ "_continue"))
    condition test (label ++ "_break") false line
    emit (.label (label ++ "_start"))
    within ({ · with loop := some label }) (sentences body)
    emit (.jump (label ++ "_continue"))
    emit (.label (label ++ "_break"))
  | .doLoop line test body => do
    let label := "__loop" ++ (← labelId line)
    emit (.label (label ++ "_start"))
    within ({ · with loop := some label }) (sentences body)
    emit (.label (label ++ "_continue"))
    comment line
    condition test (label ++ "_start") true line
    emit (.label (label ++ "_break"))
  | .forLoop line init test step body => do
    let label := "__loop" ++ (← labelId line)
    phrase init false line
    emit (.label (label ++ "_condition"))
    if !test.isEmpty then condition test (label ++ "_break") false line
    emit (.label (label ++ "_start"))
    within ({ · with loop := some label }) (sentences body)
    emit (.label (label ++ "_continue"))
    phrase step false line
    emit (.jump (label ++ "_condition"))
    emit (.label (label ++ "_break"))

def sentences : List Sentence → Codegen Unit
  | [] => pure ()
  | s :: rest => do
    sentence s
    sentences rest

end

/-! ## Functions -/

/-- The code of the main function. Later activations begin with it. -/
def mainFunction (f : FunctionDef) : Codegen Unit := do
  if f.params.isEmpty then
    emit (.label (functionLabel f.name))
    emit .resetStart
    within ({ · with function := some f.name }) (sentences f.body)
  else fail (.misuse f.line .mainWithParameters)

def firstBlock (p : Program) : Codegen Unit := do
  sentences p.globals
  match p.functions.find? (·.name == "main") with
  | some f => mainFunction f
  | none => pure ()
  emit .finish

/-- The block of a function. The parameters are taken from the stack, and the end returns. -/
def functionBlock (f : FunctionDef) : Codegen (List Instr) := do
  modifyState ({ · with lastComment := none })
  let params := ((Signature.find? (← context).functions f.name).map (·.params)).getD []
  let ((), body) ← capture (within ({ · with function := some f.name }) (sentences f.body))
  let code := .label (functionLabel f.name) :: params.map .pop ++ body
  return if code.getLast? = some .ret then code else code ++ [.ret]

def functionBlocks : List FunctionDef → Codegen (List (List Instr))
  | [] => pure []
  | f :: rest => do
    let block ← functionBlock f
    return block :: (← functionBlocks rest)

def blocks (p : Program) : Codegen (List (List Instr)) := do
  let ((), first) ← capture (firstBlock p)
  return first :: (← functionBlocks (p.functions.filter (·.name != "main")))

end Codegen

end ContractCompiler
