import ContractCompiler.Layout
import ContractCompiler.Node.Bind
import ContractCompiler.Proofs.Denotation

/-!
# Proofs.Statement — what sentences do

A statement is a sentence whose phrases are bound: a change of the memory, a way out of a loop, or one
of the forms that hold other statements. Its expressions change nothing, so that they have the words
that they denote, and a change is one assignment or one step.

`Statement.run` executes a statement. The fuel bounds the rounds of each loop: an execution that needs
more is `unfinished`, and one that does not end is so with any fuel. An access through an address that
is not allowed is a `fault`.

Sentences are statements if they keep to this part of the language (`Sentence.statement?`).
-/

namespace ContractCompiler

set_option autoImplicit false

/-! ## Changes -/

/-- The memory with a word stored at an address that was computed, if it may be written. -/
def Memory.store? (allowed : Int → Bool) (m : Memory) (address w : Word) : Option Memory :=
  if allowed (Word.toSigned address) then some (m.set (Word.toSigned address) w) else none

/-- The memory with a word stored where an expression stands for a cell. -/
def Node.store? (e : Environment) (m : Memory) (w : Word) : Node → Option Memory
  | slot s _ => if s.isView && !e.canWrite (s.cell m) then none else some (m.set (s.cell m) w)
  | deref base _ _ => do m.store? e.canWrite (← base.value? e.arithmetic e.canRead m) w
  | lookup base index _ _ => do
    let b ← base.value? e.arithmetic e.canRead m
    m.store? e.canWrite (b + (← index.value? e.arithmetic e.canRead m)) w
  | _ => none

/-- What a phrase does to the memory. -/
inductive Change where
  | nothing
  /-- A plain assignment, or one that applies an operator to the old value. -/
  | assign (op : Option BinaryOp) (target value : Node)
  | step (step : Step) (target : Node)

/-- The memory after a change, unless it is not allowed. -/
def Change.after? (e : Environment) (m : Memory) : Change → Option Memory
  | nothing => some m
  | assign op target value => do
    let y ← value.value? e.arithmetic e.canRead m
    match op with
    | none => target.store? e m y
    | some op =>
      target.store? e m (op.apply e.arithmetic (← target.value? e.arithmetic e.canRead m) y)
  | step s target => do target.store? e m (s.apply (← target.value? e.arithmetic e.canRead m))

/-! ## Executions -/

/-- Where a statement leads. -/
inductive Flow where
  | next
  | break_
  | continue_
  deriving DecidableEq

/-- What an execution comes to. -/
inductive Run where
  | ended (flow : Flow) (m : Memory)
  /-- An access that is not allowed. -/
  | fault
  /-- The fuel was not enough. -/
  | unfinished

namespace Run

/-- Goes on at the next statement. -/
def andThen (r : Run) (rest : Memory → Run) : Run :=
  match r with
  | ended .next m => rest m
  | r => r

/-- Goes on behind the body of a loop, where `continue` leads as well. -/
def afterBody (r : Run) (rest : Memory → Run) : Run :=
  match r with
  | ended .next m => rest m
  | ended .continue_ m => rest m
  | r => r

/-- Goes on with the word that a test gives. -/
def decide (test : Option Word) (rest : Bool → Run) : Run :=
  match test with
  | some w => rest (w != 0)
  | none => fault

def ofChange : Option Memory → Run
  | some m => ended .next m
  | none => fault

/-- Goes around a loop until a round breaks off. -/
def loop (round : Memory → Run) : Nat → Memory → Run
  | 0, _ => unfinished
  | fuel + 1, m =>
    match round m with
    | ended .break_ m' => ended .next m'
    | ended _ m' => loop round fuel m'
    | r => r

end Run

/-! ## Statements -/

/-- A sentence whose phrases are bound. -/
inductive Statement where
  | change (c : Change)
  | leave (flow : Flow)
  | seq (first second : Statement)
  | choose (test : Node) (yes no : Statement)
  | whileLoop (test : Node) (body : Statement)
  | doLoop (body : Statement) (test : Node)
  /-- A loop without a test goes on until it is left. -/
  | forLoop (init : Change) (test : Option Node) (step : Change) (body : Statement)

/-- The word by which a loop goes on. -/
def Statement.testValue? (e : Environment) (m : Memory) : Option Node → Option Word
  | some test => test.value? e.arithmetic e.canRead m
  | none => some 1

def Statement.run (e : Environment) (fuel : Nat) : Statement → Memory → Run
  | change c, m => .ofChange (c.after? e m)
  | leave flow, m => .ended flow m
  | seq first second, m => (run e fuel first m).andThen (run e fuel second)
  | choose test yes no, m => .decide (test.value? e.arithmetic e.canRead m) fun truth =>
    if truth then run e fuel yes m else run e fuel no m
  | whileLoop test body, m =>
    Run.loop (fun m => .decide (test.value? e.arithmetic e.canRead m) fun truth =>
      if truth then run e fuel body m else .ended .break_ m) fuel m
  | doLoop body test, m =>
    Run.loop (fun m => (run e fuel body m).afterBody fun m =>
      .decide (test.value? e.arithmetic e.canRead m) fun truth =>
        .ended (if truth then .next else .break_) m) fuel m
  | forLoop init test step body, m =>
    (Run.ofChange (init.after? e m)).andThen <| Run.loop (fun m =>
      .decide (testValue? e m test) fun truth =>
      if truth then (run e fuel body m).afterBody fun m => .ofChange (step.after? e m)
      else .ended .break_ m) fuel

/-! ## Sentences as statements -/

/-- The change that a command is. What it stores and where denotes something. -/
def Command.change? : Command → Option Change
  | .value (.assign op target source _) =>
    if target.isPure && source.isPure then some (.assign op target source) else none
  | .value (.unary (.preStep s) target _) => if target.isPure then some (.step s target) else none
  | .value (.unary (.postStep s) target _) => if target.isPure then some (.step s target) else none
  | _ => none

/-- The commands that are changes, with parts that only read. -/
inductive Command.IsChange : Command → Change → Prop
  | assign {target source : Node} (op : Option BinaryOp) (line : Nat) (isPureT : target.isPure = true)
      (isPureS : source.isPure = true) :
      IsChange (.value (.assign op target source line)) (.assign op target source)
  | preStep {target : Node} (s : Step) (line : Nat) (isPure : target.isPure = true) :
      IsChange (.value (.unary (.preStep s) target line)) (.step s target)
  | postStep {target : Node} (s : Step) (line : Nat) (isPure : target.isPure = true) :
      IsChange (.value (.unary (.postStep s) target line)) (.step s target)

theorem Command.isChange {command : Command} {c : Change} (found : command.change? = some c) :
    command.IsChange c := by
  unfold change? at found
  split at found
  · split at found
    · rename_i isPure
      cases found
      exact .assign _ _ (Bool.and_eq_true_iff.1 isPure).1 (Bool.and_eq_true_iff.1 isPure).2
    · cases found
  · split at found
    · cases found
      exact .preStep _ _ ‹_›
    · cases found
  · split at found
    · cases found
      exact .postStep _ _ ‹_›
    · cases found
  · cases found

def Command.statement? : Command → Option Statement
  | .control .break_ _ _ => some (.leave .break_)
  | .control .continue_ _ _ => some (.leave .continue_)
  | command => command.change?.map .change

namespace Names

/-- The change that a phrase is. -/
def change? (names : Names) (tokens : List Token) (line : Nat) : Option Change :=
  match names.phrase tokens line with
  | .ok none => some .nothing
  | .ok (some command) => command.change?
  | .error _ => none

def statement? (names : Names) (tokens : List Token) (line : Nat) : Option Statement :=
  match names.phrase tokens line with
  | .ok none => some (.change .nothing)
  | .ok (some command) => command.statement?
  | .error _ => none

/-- The test that a condition is. -/
def test? (names : Names) (tokens : List Token) (line : Nat) : Option Node :=
  match names.condition tokens line with
  | .ok n => if n.isPure then some n else none
  | .error _ => none

/-- The test of a loop that may have none. -/
def loopTest? (names : Names) (tokens : List Token) (line : Nat) : Option (Option Node) :=
  if tokens.isEmpty then some none else (names.test? tokens line).map some

/-- The change by which a declared variable gets its value. -/
def initialValue? (names : Names) (d : Declarator) : Option Change :=
  match d.init with
  | none => some .nothing
  | some init =>
    names.change? (⟨.identifier, d.name, d.line⟩ :: ⟨.punct, "=", d.line⟩ :: init) d.line

def initialValues? (names : Names) : List Declarator → Option Statement
  | [] => some (.change .nothing)
  | d :: rest => do
    return .seq (.change (← names.initialValue? d)) (← initialValues? names rest)

end Names

mutual

/-- The statement that a sentence is. Contents that are fixed at the start are none. -/
def Sentence.statement? (names : Names) : Sentence → Option Statement
  | .phrase line isConst code => if isConst then none else names.statement? code line
  | .declaration d => if d.isConst then none else names.initialValues? d.declarators
  | .block body => Sentence.statements? names body
  | .ifThen line test yes => do
    return .choose (← names.test? test line) (← Sentence.statements? names yes) (.change .nothing)
  | .ifElse line test yes no => do
    return .choose (← names.test? test line) (← Sentence.statements? names yes)
      (← Sentence.statements? names no)
  | .whileLoop line test body => do
    return .whileLoop (← names.test? test line) (← Sentence.statements? names body)
  | .doLoop line test body => do
    return .doLoop (← Sentence.statements? names body) (← names.test? test line)
  | .forLoop line init test step body => do
    return .forLoop (← names.change? init line)
      (← names.loopTest? test line) (← names.change? step line) (← Sentence.statements? names body)

def Sentence.statements? (names : Names) : List Sentence → Option Statement
  | [] => some (.change .nothing)
  | s :: rest => do return .seq (← Sentence.statement? names s) (← Sentence.statements? names rest)

end

/-- The statement that a contract is: what stands outside of functions, and the main function. -/
def Program.statement? (p : Program) (l : Layout) : Option Statement := do
  let globals ← Sentence.statements? ⟨l.table, l.functions, none⟩ p.globals
  match p.functions.find? (·.name == "main") with
  | some f =>
    return .seq globals (← Sentence.statements? ⟨l.table, l.functions, some f.name⟩ f.body)
  | none => return globals

end ContractCompiler
