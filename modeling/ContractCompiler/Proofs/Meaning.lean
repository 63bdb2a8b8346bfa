import ContractCompiler.Proofs.Node
import ContractCompiler.Proofs.Machine.Slot

/-!
# Proofs.Meaning — what expressions without calls do

An expression is evaluated to a reference, and the cell that it refers to is read when the value is
used. A step after a use is put off in the same way as in the code. So the order of reads, writes and
steps is that of the code, but there are no registers, no interned constants and no labels.

An access through an address has to be allowed by `Rules`, else the expression means nothing. How an
assigned variable may be computed in is a rule as well: never, always where the code does it, or only
where it makes no difference.
-/

namespace ContractCompiler

set_option autoImplicit false

/-! ## References -/

/-- A part of an address: a word that stays, or a cell. -/
inductive Source where
  | word (w : Word)
  | cell (a : Int)
  /-- The cell of an array, and the address of its first element. -/
  | array (a : Int) (first : Word)
  deriving DecidableEq

/-- What an expression is evaluated to. -/
inductive Ref where
  | literal (w : Word)
  /-- A word that was computed and that stands nowhere else. -/
  | temp (w : Word)
  /-- The cell of a variable. -/
  | cell (a : Int)
  /-- The cell of an array's element at a fixed index. -/
  | element (a : Int)
  /-- The cell of an array, and the address of its first element. -/
  | array (a : Int) (first : Word)
  /-- The cell at a distance from an address. -/
  | view (base distance : Source)
  deriving DecidableEq

/-- When the assigned variable serves as the place to compute the assigned value in. -/
inductive Reuse where
  | never
  | always
  /-- Where it makes a difference, the assignment means nothing. -/
  | checked
  deriving DecidableEq

/-- What an execution may do. -/
structure Environment where
  arithmetic : Arithmetic
  /-- The cells that may be read through an address. -/
  canRead : Int → Bool
  /-- The cells that may be written through an address. -/
  canWrite : Int → Bool

@[inherit_doc Environment]
structure Rules extends Environment where
  reuse : Reuse

namespace Source

def read (m : Memory) : Source → Word
  | word w => w
  | cell a => m a
  | array a _ => m a

/-- The cell at a fixed distance. Those of an array are known. -/
def through (distance : Word) : Source → Ref
  | array _ first => .element (Word.toSigned (first + distance))
  | source => .view source (.word distance)

/-- The same, but for the address of the first element. -/
def plain : Source → Source
  | array a _ => cell a
  | source => source

@[simp] theorem read_plain (m : Memory) (s : Source) : s.plain.read m = s.read m := by
  cases s <;> rfl

end Source

namespace Ref

/-- The address of a view. -/
def address (m : Memory) (base distance : Source) : Int :=
  Word.toSigned (base.read m + distance.read m)

/-- The word that a reference stands for. -/
def value? (rules : Rules) (m : Memory) : Ref → Option Word
  | literal w => some w
  | temp w => some w
  | cell a => some (m a)
  | array a _ => some (m a)
  | element a => if rules.canRead a then some (m a) else none
  | view base distance =>
    if rules.canRead (address m base distance) then some (m (address m base distance)) else none

/-- The memory after a write. Only variables and views can be written. -/
def write? (rules : Rules) (m : Memory) (w : Word) : Ref → Option Memory
  | cell a => some (m.set a w)
  | element a => if rules.canWrite a then some (m.set a w) else none
  | view base distance =>
    if rules.canWrite (address m base distance) then some (m.set (address m base distance) w)
    else none
  | _ => none

def isTemp : Ref → Bool
  | temp _ => true
  | _ => false

end Ref

/-! ## Effects -/

/-- What happens to the memory, unless something is not allowed. -/
def Effect (α : Type) := Memory → Option (α × Memory)

namespace Effect

variable {α β : Type}

instance : Monad Effect where
  pure a := fun m => some (a, m)
  bind x f := fun m => (x m).bind fun (a, m') => f a m'

def fail : Effect α := fun _ => none

theorem bind_eq_some {x : Effect α} {f : α → Effect β} {m : Memory} {r : β × Memory} :
    (x >>= f) m = some r ↔ ∃ a m₁, x m = some (a, m₁) ∧ f a m₁ = some r := by
  show (x m).bind (fun (a, m') => f a m') = some r ↔ _
  rw [Option.bind_eq_some_iff]
  constructor
  · rintro ⟨⟨a, m₁⟩, first, second⟩
    exact ⟨a, m₁, first, second⟩
  · rintro ⟨a, m₁, first, second⟩
    exact ⟨(a, m₁), first, second⟩

theorem pure_eq_some {a b : α} {m m' : Memory} :
    (pure a : Effect α) m = some (b, m') ↔ a = b ∧ m = m' := by
  show some (a, m) = some (b, m') ↔ _
  simp

end Effect

namespace Ref

def read (rules : Rules) (r : Ref) : Effect Word := fun m => (r.value? rules m).map (·, m)

def write (rules : Rules) (r : Ref) (w : Word) : Effect Unit := fun m =>
  (r.write? rules m w).map ((), ·)

/-- The reference as a part of an address. A view has to be read for that. -/
def settle (rules : Rules) : Ref → Effect Source
  | literal w => pure (.word w)
  | temp w => pure (.word w)
  | cell a => pure (.cell a)
  | element a => pure (.cell a)
  | array a first => pure (.array a first)
  | view base distance => do return .word (← (view base distance).read rules)

theorem value?_of_temp {rules : Rules} {r : Ref} {m : Memory} {w : Word} (isTemp : r = temp w) :
    r.value? rules m = some w := by
  rw [isTemp, value?]

theorem read_eq_some {rules : Rules} {r : Ref} {m m' : Memory} {w : Word} :
    r.read rules m = some (w, m') ↔ r.value? rules m = some w ∧ m = m' := by
  simp [read]

theorem write_eq_some {rules : Rules} {r : Ref} {m m' : Memory} {w : Word} {u : Unit} :
    r.write rules w m = some (u, m') ↔ r.write? rules m w = some m' := by
  simp [write]

end Ref

/-! ## Operators -/

namespace Meaning

variable (rules : Rules)

/-- The operation gives the same if the variable is given the left operand before the right one is
read. -/
def Undisturbed (op : BinaryOp) (x : Word) (right : Ref) (a : Int) (m : Memory) : Prop :=
  (right.value? rules (m.set a x)).map (op.apply rules.arithmetic x) =
    (right.value? rules m).map (op.apply rules.arithmetic x)

instance (op : BinaryOp) (x : Word) (right : Ref) (a : Int) (m : Memory) :
    Decidable (Undisturbed rules op x right a m) := inferInstanceAs (Decidable (_ = _))

def inVariable (op : BinaryOp) (x : Word) (right : Ref) (a : Int) : Effect Ref := fun m =>
  if rules.reuse = .checked ∧ ¬ Undisturbed rules op x right a m then none
  else (do
    (Ref.cell a).write rules x
    let y ← right.read rules
    (Ref.cell a).write rules (op.apply rules.arithmetic x y)
    return .cell a : Effect Ref) m

def inRegister (op : BinaryOp) (x : Word) (right : Ref) : Effect Ref := do
  return .temp (op.apply rules.arithmetic x (← right.read rules))

/-- One of the operands was computed, in a register that the operation may be computed in. -/
def anyTemp (op : BinaryOp) (left right : Ref) : Bool :=
  left.isTemp || op.isCommutative && right.isTemp

/-- A binary operation, computed in the variable `dest` if neither operand was computed. -/
def binary (op : BinaryOp) (left right : Effect Ref) (dest : Option Int) : Effect Ref := do
  let l ← left
  let r ← right
  let x ← l.read rules
  match dest with
  | some a => if anyTemp op l r then inRegister rules op x r else inVariable rules op x r a
  | none => inRegister rules op x r

def negate (operand : Effect Ref) : Effect Ref := do
  return .temp (0 - (← (← operand).read rules))

def complement (operand : Effect Ref) : Effect Ref := do
  return .temp (~~~ (← (← operand).read rules))

/-- A variable is changed in place. -/
def change (f : Word → Word) (r : Ref) : Effect Unit := do
  r.write rules (f (← r.read rules))

def preStep (step : Step) (operand : Effect Ref) : Effect Ref := do
  let o ← operand
  change rules step.apply o
  return o

def deref (base : Effect Ref) : Effect Ref := do
  return (← (← base).settle rules).through 0

def lookup (base : Effect Ref) (fixed : Option Word) (index : Effect Ref) : Effect Ref := do
  let b ← (← base).settle rules
  match fixed with
  | some distance => return b.through distance
  | none => return .view b (← (← index).settle rules).plain

/-- The variable that the right operand of a value allows to compute the value in. -/
def early (right : Option Node) (hasCall : Bool) (target : Ref) : Option Int :=
  match rules.reuse, target, right with
  | .never, _, _ => none
  | _, .cell a, some right => if !right.mentions a && !hasCall then some a else none
  | _, _, _ => none

def assign (target : Effect Ref) (value : Option Int → Effect Ref) (right : Option Node)
    (hasCall : Bool) : Effect Ref := do
  let t ← target
  let v ← value (early rules right hasCall t)
  t.write rules (← v.read rules)
  return t

def operate (op : BinaryOp) (target value : Effect Ref) : Effect Ref := do
  let t ← target
  let v ← value
  let y ← v.read rules
  change rules (op.apply rules.arithmetic · y) t
  return t

/-- What is done for a target once more: an evaluation, and the steps that it puts off again. -/
structure Deed where
  run : Effect Ref
  pending : List (Step × Node)

/-- The steps that were put off are done in turn. -/
def steps (again : Node → Deed) : List (Step × Node) → Effect Unit
  | [] => pure ()
  | (step, target) :: rest => do
    change rules step.apply (← (again target).run)
    steps again rest

/-- The steps that are put off while steps are done. -/
def leak (again : Node → Deed) (pending : List (Step × Node)) : List (Step × Node) :=
  pending.flatMap fun p => (again p.2).pending

/-- A value that is used after it was read, with the steps put off in it done in between. -/
def settled (again : Node → Deed) (value : Effect Ref) (pending : List (Step × Node)) :
    Effect Word := do
  let x ← (← value).read rules
  steps rules again pending
  return x

def relation (again : Node → Deed) (relation : Relation) (left right : Effect Ref)
    (pending : List (Step × Node)) : Effect Bool := do
  let l ← left
  let r ← right
  let x ← l.read rules
  let y ← r.read rules
  steps rules again pending
  return relation.holds x y

/-- The right operand is looked at unless the left one decides. -/
def shortcut (decides : Bool) (left right : Effect Bool) : Effect Bool := do
  if (← left) = decides then return decides else right

section

variable {rules} {again : Node → Deed} {left right operand value : Effect Ref} {r : Ref}
  {pending : List (Step × Node)} {m m' : Memory}

theorem steps_nil {u : Unit} : steps rules again [] m = some (u, m') ↔ m' = m := by
  rw [steps, Effect.pure_eq_some, and_iff_right rfl, eq_comm]

theorem inRegister_eq_some {op : BinaryOp} {x : Word} {result : Ref} :
    inRegister rules op x r m = some (result, m') ↔
      ∃ y, r.value? rules m = some y ∧ result = .temp (op.apply rules.arithmetic x y) ∧ m' = m := by
  simp only [inRegister, Effect.bind_eq_some, Ref.read_eq_some, Effect.pure_eq_some]
  constructor
  · rintro ⟨y, _, ⟨read, rfl⟩, rfl, rfl⟩
    exact ⟨y, read, rfl, rfl⟩
  · rintro ⟨y, read, rfl, rfl⟩
    exact ⟨y, _, ⟨read, rfl⟩, rfl, rfl⟩

theorem inVariable_eq_some {op : BinaryOp} {x : Word} {a : Int} {result : Ref} :
    inVariable rules op x r a m = some (result, m') ↔
      (rules.reuse = .checked → Undisturbed rules op x r a m) ∧
        ∃ y, r.value? rules (m.set a x) = some y ∧ result = .cell a ∧ m' = m.set a (op.apply rules.arithmetic x y) := by
  unfold inVariable
  split
  · rename_i notSafe
    simp [notSafe]
  · rename_i isSafe
    have isSafe' : rules.reuse = .checked → Undisturbed rules op x r a m := by simpa using isSafe
    simp only [Effect.bind_eq_some, Ref.read_eq_some, Ref.write_eq_some, Effect.pure_eq_some,
      Ref.write?, Option.some.injEq]
    constructor
    · rintro ⟨_, _, rfl, y, _, ⟨read, rfl⟩, _, _, rfl, rfl, rfl⟩
      exact ⟨isSafe', y, read, rfl, by simp⟩
    · rintro ⟨-, y, read, rfl, rfl⟩
      exact ⟨(), _, rfl, y, _, ⟨read, rfl⟩, (), _, rfl, rfl, by simp⟩

theorem binary_eq_some {op : BinaryOp} {dest : Option Int} {result : Ref} :
    binary rules op left right dest m = some (result, m') ↔
      ∃ l m₁ r m₂ x, left m = some (l, m₁) ∧ right m₁ = some (r, m₂) ∧ l.value? rules m₂ = some x ∧
        ((dest = none ∨ anyTemp op l r = true) ∧ inRegister rules op x r m₂ = some (result, m') ∨
          ∃ a, dest = some a ∧ anyTemp op l r = false ∧
            inVariable rules op x r a m₂ = some (result, m')) := by
  simp only [binary, Effect.bind_eq_some, Ref.read_eq_some]
  constructor
  · rintro ⟨l, m₁, ranL, r, m₂, ranR, x, _, ⟨read, rfl⟩, done⟩
    refine ⟨l, m₁, r, m₂, x, ranL, ranR, read, ?_⟩
    cases dest with
    | none => exact .inl ⟨.inl rfl, done⟩
    | some a =>
      cases temp : anyTemp op l r with
      | true => exact .inl ⟨.inr rfl, by simpa [temp] using done⟩
      | false => exact .inr ⟨a, rfl, rfl, by simpa [temp] using done⟩
  · rintro ⟨l, m₁, r, m₂, x, ranL, ranR, read, done⟩
    refine ⟨l, m₁, ranL, r, m₂, ranR, x, m₂, ⟨read, rfl⟩, ?_⟩
    rcases done with ⟨rfl | temp, done⟩ | ⟨a, rfl, temp, done⟩
    · exact done
    · cases dest <;> simpa [temp] using done
    · simpa [temp] using done

theorem settled_eq_some {x : Word} :
    settled rules again value pending m = some (x, m') ↔
      ∃ r m₁, value m = some (r, m₁) ∧ r.value? rules m₁ = some x ∧
        steps rules again pending m₁ = some ((), m') := by
  simp only [settled, Effect.bind_eq_some, Ref.read_eq_some, Effect.pure_eq_some]
  constructor
  · rintro ⟨r, m₁, ran, y, _, ⟨read, rfl⟩, _, _, done, rfl, rfl⟩
    exact ⟨r, m₁, ran, read, done⟩
  · rintro ⟨r, m₁, ran, read, done⟩
    exact ⟨r, m₁, ran, x, m₁, ⟨read, rfl⟩, (), m', done, rfl, rfl⟩

theorem assign_eq_some {rules : Rules} {target : Effect Ref} {value : Option Int → Effect Ref}
    {right? : Option Node} {hasCall : Bool} {m m' : Memory} {r : Ref} :
    assign rules target value right? hasCall m = some (r, m') ↔
      ∃ m₁ v m₂ w, target m = some (r, m₁) ∧
        value (early rules right? hasCall r) m₁ = some (v, m₂) ∧ v.value? rules m₂ = some w ∧
          r.write? rules m₂ w = some m' := by
  simp only [assign, Effect.bind_eq_some, Ref.read_eq_some, Ref.write_eq_some, Effect.pure_eq_some]
  constructor
  · rintro ⟨_, m₁, ranT, v, m₂, ranV, w, _, ⟨read, rfl⟩, _, _, written, rfl, rfl⟩
    exact ⟨m₁, v, m₂, w, ranT, ranV, read, written⟩
  · rintro ⟨m₁, v, m₂, w, ranT, ranV, read, written⟩
    exact ⟨r, m₁, ranT, v, m₂, ranV, w, m₂, ⟨read, rfl⟩, (), m', written, rfl, rfl⟩

theorem relation_eq_some {rel : Relation} {truth : Bool} :
    relation rules again rel left right pending m = some (truth, m') ↔
      ∃ l m₁ r m₂ x y, left m = some (l, m₁) ∧ right m₁ = some (r, m₂) ∧
        l.value? rules m₂ = some x ∧ r.value? rules m₂ = some y ∧
        steps rules again pending m₂ = some ((), m') ∧ rel.holds x y = truth := by
  simp only [relation, Effect.bind_eq_some, Ref.read_eq_some, Effect.pure_eq_some]
  constructor
  · rintro ⟨l, m₁, ranL, r, m₂, ranR, x, _, ⟨readL, rfl⟩, y, _, ⟨readR, rfl⟩, _, _, done, rfl, rfl⟩
    exact ⟨l, m₁, r, m₂, x, y, ranL, ranR, readL, readR, done, rfl⟩
  · rintro ⟨l, m₁, r, m₂, x, y, ranL, ranR, readL, readR, done, rfl⟩
    exact ⟨l, m₁, ranL, r, m₂, ranR, x, m₂, ⟨readL, rfl⟩, y, m₂, ⟨readR, rfl⟩, (), m', done, rfl, rfl⟩

theorem shortcut_eq_some {decides truth : Bool} {left right : Effect Bool} :
    shortcut decides left right m = some (truth, m') ↔
      (left m = some (decides, m') ∧ truth = decides) ∨
        ∃ m₁, left m = some (!decides, m₁) ∧ right m₁ = some (truth, m') := by
  rw [shortcut, Effect.bind_eq_some]
  constructor
  · rintro ⟨x, m₁, ranL, done⟩
    by_cases same : x = decides
    · rw [if_pos same] at done
      obtain ⟨rfl, rfl⟩ := Effect.pure_eq_some.1 done
      exact .inl ⟨same ▸ ranL, rfl⟩
    · rw [if_neg same] at done
      obtain rfl : x = !decides := Bool.eq_not.2 same
      exact .inr ⟨m₁, ranL, done⟩
  · rintro (⟨ranL, rfl⟩ | ⟨m₁, ranL, ranR⟩)
    · exact ⟨_, _, ranL, by simp [Effect.pure_eq_some]⟩
    · exact ⟨_, _, ranL, by simpa using ranR⟩

end

end Meaning

/-! ## Expressions -/

/-- What an expression means: its value and its truth, each with the steps that it puts off. -/
structure Meaning where
  value : Option Int → Effect Ref
  pending : List (Step × Node)
  test : Effect Bool
  testPending : List (Step × Node)

namespace Meaning

variable (rules : Rules) (again : Node → Deed)

def ofValue (pending : List (Step × Node)) (value : Option Int → Effect Ref) : Meaning where
  value := value
  pending := pending
  test := do return (← settled rules again (value none) pending) != 0
  testPending := leak again pending

def ofTest (pending : List (Step × Node)) (test : Effect Bool) : Meaning where
  value _ := do return .temp (Word.ofBool (← test))
  pending := pending
  test := test
  testPending := pending

def ofLiteral (w : Word) : Meaning where
  value _ := return .literal w
  pending := []
  test := return w != 0
  testPending := []

def ternary (condition yes no : Meaning) : Effect Ref := do
  if ← condition.test then return .temp (← settled rules again (yes.value none) yes.pending)
  else return .temp (← settled rules again (no.value none) no.pending)

end Meaning

/-- The reference of a variable or of a view of one. -/
def Slot.leaf (s : Slot) : Ref :=
  let base : Source := if s.kind = .array then .array s.address s.initial else .cell s.address
  match s.offset with
  | none => if s.kind = .array then .array s.address s.initial else .cell s.address
  | some (.fixed distance) => base.through distance
  | some (.dynamic a) => .view base (.cell a)

namespace Node

/-- What a node means, given what the targets of put-off steps mean. Calls mean nothing here. -/
def meaning (rules : Rules) (again : Node → Meaning.Deed) : Node → Meaning
  | slot s _ =>
    match s.literal? with
    | some w => .ofLiteral w
    | none => .ofValue rules again [] fun _ => return s.leaf
  | deref base _ _ =>
    let base := meaning rules again base
    .ofValue rules again base.pending fun _ => Meaning.deref rules (base.value none)
  | lookup base index _ _ =>
    let base := meaning rules again base
    let fixed := index.literal?
    let index := meaning rules again index
    .ofValue rules again (base.pending ++ if fixed.isSome then [] else index.pending) fun _ =>
      Meaning.lookup rules (base.value none) fixed (index.value none)
  | assign op target value _ =>
    let target := meaning rules again target
    let right := value.right?
    let hasCall := value.hasCall
    let value := meaning rules again value
    .ofValue rules again (target.pending ++ value.pending) fun _ =>
      match op with
      | none => Meaning.assign rules (target.value none) value.value right hasCall
      | some op => Meaning.operate rules op (target.value none) (value.value none)
  | binary op left right _ =>
    let left := meaning rules again left
    let right := meaning rules again right
    .ofValue rules again (left.pending ++ right.pending) fun dest =>
      Meaning.binary rules op (left.value none) (right.value none) dest
  | unary op operand _ =>
    let target := operand
    let operand := meaning rules again operand
    match op with
    | .negate => .ofValue rules again operand.pending fun _ =>
      Meaning.negate rules (operand.value none)
    | .complement => .ofValue rules again operand.pending fun _ =>
      Meaning.complement rules (operand.value none)
    | .not => .ofTest operand.testPending do return !(← operand.test)
    | .preStep step => .ofValue rules again operand.pending fun _ =>
      Meaning.preStep rules step (operand.value none)
    | .postStep step => .ofValue rules again ((step, target) :: operand.pending) fun _ =>
      operand.value none
  | compare relation left right _ =>
    let left := meaning rules again left
    let right := meaning rules again right
    let pending := left.pending ++ right.pending
    .ofTest (Meaning.leak again pending)
      (Meaning.relation rules again relation (left.value none) (right.value none) pending)
  | logic connective left right _ =>
    let left := meaning rules again left
    let right := meaning rules again right
    let pending := left.testPending ++ right.testPending
    match connective with
    | .and => .ofTest pending (Meaning.shortcut false left.test right.test)
    | .or => .ofTest pending (Meaning.shortcut true left.test right.test)
  | ternary condition yes no _ =>
    let condition := meaning rules again condition
    let yes := meaning rules again yes
    let no := meaning rules again no
    .ofValue rules again (condition.testPending ++
        (Meaning.leak again yes.pending ++ Meaning.leak again no.pending)) fun _ =>
      Meaning.ternary rules again condition yes no
  | call _ _ _ _ => .ofValue rules again [] fun _ => Effect.fail
  | host _ _ _ => .ofValue rules again [] fun _ => Effect.fail

/-- What a node means whose depth of steps after a use is below the first argument. -/
def deedBelow (rules : Rules) : Nat → Node → Meaning.Deed
  | 0, _ => ⟨Effect.fail, []⟩
  | depth + 1, n =>
    let meaning := n.meaning rules (deedBelow rules depth)
    ⟨meaning.value none, meaning.pending⟩

def means (rules : Rules) (n : Node) : Meaning := n.meaning rules (deedBelow rules n.postDepth)

/-- What a node means as a target that is evaluated once more. -/
def deed (rules : Rules) (n : Node) : Meaning.Deed := ⟨(n.means rules).value none, (n.means rules).pending⟩

/-- What a node means as a phrase: the steps that are put off in it are done in the end. -/
def effect (rules : Rules) (n : Node) : Effect Unit := do
  let _ ← (n.means rules).value none
  Meaning.steps rules (deed rules) (n.means rules).pending

end Node

end ContractCompiler
