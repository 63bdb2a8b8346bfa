import ContractCompiler.Proofs.Codegen.Deferred

/-!
# Proofs.Denotation — the words that expressions denote

An expression without assignments, steps and calls denotes a word in every memory, unless it reads a
cell through an address that may not be read (`Node.value?`). Nothing is put off in such an expression
and nothing changes, so that the order in which cells are read does not matter: what it means is what
it denotes (`Node.denotes`).
-/

namespace ContractCompiler

set_option autoImplicit false

/-- The word at an address that was computed, if it may be read. -/
def Memory.at? (allowed : Int → Bool) (m : Memory) (address : Word) : Option Word :=
  if allowed (Word.toSigned address) then some (m (Word.toSigned address)) else none

/-- The word that a literal, a variable or a view of one denotes. Only views are read through an
address. -/
def Slot.value? (allowed : Int → Bool) (m : Memory) (s : Slot) : Option Word :=
  if s.literal?.isNone && s.isView && !allowed (s.cell m) then none else some (s.value m)

namespace Node

/-- Nothing is assigned, stepped or called. -/
def isPure : Node → Bool
  | slot _ _ => true
  | deref base _ _ => base.isPure
  | lookup base index _ _ => base.isPure && index.isPure
  | assign _ _ _ _ => false
  | binary _ left right _ => left.isPure && right.isPure
  | unary op operand _ =>
    match op with
    | .preStep _ | .postStep _ => false
    | _ => operand.isPure
  | compare _ left right _ => left.isPure && right.isPure
  | logic _ left right _ => left.isPure && right.isPure
  | ternary condition yes no _ => condition.isPure && yes.isPure && no.isPure
  | call _ _ _ _ => false
  | host _ _ _ => false

/-- The word that an expression denotes. Both operands of `&&` and `||` are looked at only if the first
does not decide, and of the conditional operator only the branch that is taken. -/
def value? (a : Arithmetic) (allowed : Int → Bool) (m : Memory) : Node → Option Word
  | slot s _ => s.value? allowed m
  | deref base _ _ => do m.at? allowed (← base.value? a allowed m)
  | lookup base index _ _ => do
    let b ← base.value? a allowed m
    m.at? allowed (b + (← index.value? a allowed m))
  | assign _ _ _ _ => none
  | binary op left right _ => do
    let x ← left.value? a allowed m
    return op.apply a x (← right.value? a allowed m)
  | unary op operand _ => do
    let x ← operand.value? a allowed m
    match op with
    | .negate => return 0 - x
    | .complement => return ~~~ x
    | .not => return Word.ofBool (x == 0)
    | .preStep _ | .postStep _ => none
  | compare relation left right _ => do
    let x ← left.value? a allowed m
    return Word.ofBool (relation.holds x (← right.value? a allowed m))
  | logic connective left right _ => do
    let x ← left.value? a allowed m
    if (x != 0) = (connective == .or) then return Word.ofBool (x != 0)
    else return Word.ofBool ((← right.value? a allowed m) != 0)
  | ternary condition yes no _ => do
    if (← condition.value? a allowed m) != 0 then yes.value? a allowed m else no.value? a allowed m
  | call _ _ _ _ => none
  | host _ _ _ => none

variable {rules : Rules} {again : Node → Meaning.Deed}

/-- A number denotes itself. -/
theorem value?_of_literal? {n : Node} {a : Arithmetic} {allowed : Int → Bool} {m : Memory}
    {v w : Word} (isLiteral : n.literal? = some v) (denotes : n.value? a allowed m = some w) :
    v = w := by
  cases n with
  | slot s _ =>
    have isLiteral : s.literal? = some v := isLiteral
    simpa [value?, Slot.value?, isLiteral, Slot.value_of_literal isLiteral] using denotes
  | _ => cases isLiteral

/-- Nothing is put off in an expression without steps. -/
theorem pending_eq_nil (n : Node) (isPure : n.isPure = true) :
    (n.meaning rules again).pending = [] ∧ (n.meaning rules again).testPending = [] := by
  induction n with
  | slot s _ =>
    rw [meaning]
    cases s.literal? <;> exact ⟨rfl, rfl⟩
  | deref base _ _ ih =>
    obtain ⟨ih, -⟩ := ih isPure
    simp [meaning, Meaning.ofValue, Meaning.leak, ih]
  | lookup _ _ _ _ ihL ihR | binary _ _ _ _ ihL ihR =>
    obtain ⟨isPureL, isPureR⟩ := Bool.and_eq_true_iff.1 isPure
    obtain ⟨ihL, -⟩ := ihL isPureL
    obtain ⟨ihR, -⟩ := ihR isPureR
    simp [meaning, Meaning.ofValue, Meaning.leak, ihL, ihR]
  | unary op operand _ ih =>
    cases op with
    | preStep _ | postStep _ => cases isPure
    | _ =>
      obtain ⟨ih, ih'⟩ := ih isPure
      simp [meaning, Meaning.ofValue, Meaning.ofTest, Meaning.leak, ih, ih']
  | compare _ left right _ ihL ihR =>
    obtain ⟨isPureL, isPureR⟩ := Bool.and_eq_true_iff.1 isPure
    obtain ⟨ihL, -⟩ := ihL isPureL
    obtain ⟨ihR, -⟩ := ihR isPureR
    simp [meaning, Meaning.ofTest, Meaning.leak, ihL, ihR]
  | logic connective left right _ ihL ihR =>
    obtain ⟨isPureL, isPureR⟩ := Bool.and_eq_true_iff.1 isPure
    obtain ⟨-, ihL⟩ := ihL isPureL
    obtain ⟨-, ihR⟩ := ihR isPureR
    cases connective <;> simp [meaning, Meaning.ofTest, ihL, ihR]
  | ternary condition yes no _ ihC ihY ihN =>
    simp only [Node.isPure, Bool.and_eq_true] at isPure
    obtain ⟨⟨isPureC, isPureY⟩, isPureN⟩ := isPure
    obtain ⟨-, ihC⟩ := ihC isPureC
    obtain ⟨ihY, -⟩ := ihY isPureY
    obtain ⟨ihN, -⟩ := ihN isPureN
    simp [meaning, Meaning.ofValue, Meaning.leak, ihC, ihY, ihN]
  | assign | call | host => cases isPure

end Node

/-! ## What is meant is what is denoted -/

/-- The cell of an array holds the address of its first element. -/
def Ref.Anchored (m : Memory) : Ref → Prop
  | array a first => m a = first
  | _ => True

/-- The effect of an expression is to give a word, or its truth, and to change nothing. -/
structure Meaning.Gives (rules : Rules) (m : Memory) (meaning : Meaning) (w : Word) : Prop where
  value : ∃ r, meaning.value none m = some (r, m) ∧ r.value? rules m = some w ∧ r.Anchored m
  test : meaning.test m = some (w != 0, m)

namespace Meaning.Gives

variable {rules : Rules} {again : Node → Meaning.Deed} {m : Memory} {w : Word}
  {pending : List (Step × Node)}

theorem ofValue {effect : Option Int → Effect Ref} {r : Ref} (runs : effect none m = some (r, m))
    (value : r.value? rules m = some w) (anchored : r.Anchored m) :
    Gives rules m (Meaning.ofValue rules again [] effect) w where
  value := ⟨r, runs, value, anchored⟩
  test := Effect.bind_eq_some.2
    ⟨w, m, Meaning.settled_eq_some.2 ⟨r, m, runs, value, Meaning.steps_nil.2 rfl⟩, rfl⟩

theorem ofTest {test : Effect Bool} {truth : Bool} (runs : test m = some (truth, m)) :
    Gives rules m (Meaning.ofTest pending test) (Word.ofBool truth) where
  value := ⟨.temp (Word.ofBool truth), Effect.bind_eq_some.2 ⟨truth, m, runs, rfl⟩, rfl, trivial⟩
  test := by rw [Word.ofBool_ne_zero]; exact runs

theorem ofLiteral (w : Word) : Gives rules m (Meaning.ofLiteral w) w where
  value := ⟨.literal w, rfl, rfl, trivial⟩
  test := rfl

/-- What an expression gives, as a part of an address. -/
theorem settle {meaning : Meaning} (gives : Gives rules m meaning w) :
    ∃ r source, meaning.value none m = some (r, m) ∧ r.settle rules m = some (source, m) ∧
      source.read m = w ∧ ∀ a first, source = .array a first → first = w := by
  obtain ⟨r, runs, value, anchored⟩ := gives.value
  obtain ⟨source, settles, read⟩ := Ref.settle_of_value? value
  refine ⟨r, source, runs, settles, read, ?_⟩
  rintro a first rfl
  cases r with
  | array b first' =>
    obtain ⟨⟨⟩, -⟩ := Effect.pure_eq_some.1 settles
    exact anchored.symm.trans read
  | view base distance =>
    obtain ⟨_, _, -, result⟩ := Effect.bind_eq_some.1 settles
    obtain ⟨⟨⟩, -⟩ := Effect.pure_eq_some.1 result
  | _ => obtain ⟨⟨⟩, -⟩ := Effect.pure_eq_some.1 settles

end Meaning.Gives

/-- The cell at a distance from an address. -/
theorem Source.value?_through (rules : Rules) {m : Memory} {source : Source} {w : Word}
    (read : source.read m = w) (anchored : ∀ a first, source = .array a first → first = w)
    (distance : Word) :
    (source.through distance).value? rules m = m.at? rules.canRead (w + distance) ∧
      (source.through distance).Anchored m := by
  cases source with
  | array a first =>
    obtain rfl := anchored a first rfl
    exact ⟨rfl, trivial⟩
  | word v =>
    subst read
    exact ⟨rfl, trivial⟩
  | cell a =>
    subst read
    exact ⟨rfl, trivial⟩

/-- What the memory and the rules know of the variables of a table: arrays hold the addresses of
their first elements, and elements at a fixed index may be read and written. -/
structure Memory.Knows (rules : Rules) (t : SlotTable) (m : Memory) : Prop where
  arrays : ∀ s : Slot, s.IsVariable t → s.kind = .array → m s.address = s.initial
  elements : ∀ e ∈ t.slots, e.kind = .long →
    rules.canRead e.address = true ∧ rules.canWrite e.address = true

section

variable {rules : Rules} {again : Node → Meaning.Deed} {t : SlotTable} {m : Memory} {w : Word}

/-- The reference of a view is the cell that it stands for. -/
theorem Slot.leaf_of_isView {s : Slot} (isView : s.isView = true) (m : Memory) :
    ∃ base distance, s.leaf = .view base distance ∧ Ref.address m base distance = s.cell m := by
  cases offset : s.offset with
  | none => simp [Slot.isView, offset] at isView
  | some o =>
    cases o with
    | fixed distance =>
      have notArray : s.kind ≠ .array := fun array => by simp [Slot.isView, offset, array] at isView
      refine ⟨.cell s.address, .word distance, ?_, (cell_fixed offset notArray m).symm⟩
      simp [leaf, offset, notArray, Source.through]
    | dynamic a =>
      rw [cell_dynamic offset]
      unfold leaf
      rw [offset]
      dsimp only
      split <;> exact ⟨_, _, rfl, rfl⟩

/-- A variable gives the word that it denotes. -/
theorem Slot.IsVariable.gives {s : Slot} (isVariable : s.IsVariable t) (knows : m.Knows rules t)
    (notLiteral : s.literal? = none) (denotes : s.value? rules.canRead m = some w) :
    s.leaf.value? rules m = some w ∧ s.leaf.Anchored m := by
  unfold Slot.value? at denotes
  rw [Slot.value_of_not_literal notLiteral] at denotes
  rcases s.shape with offset | ⟨distance, offset, array⟩ | isView
  · have notView : s.isView = false := by simp [isView, offset]
    rw [cell_direct offset] at denotes
    by_cases array : s.kind = .array
    · simpa [leaf, offset, array, Ref.value?, Ref.Anchored, notView,
        knows.arrays s isVariable array] using denotes
    · simpa [leaf, offset, array, Ref.value?, Ref.Anchored, notView] using denotes
  · obtain ⟨e, mem, long, same⟩ := isVariable.element distance offset array
    have allowed := (knows.elements e mem long).1
    rw [same] at allowed
    have notView : s.isView = false := by simp [isView, offset, array]
    rw [cell_element offset array] at denotes
    simpa [leaf, offset, array, Source.through, Ref.value?, Ref.Anchored, allowed, notView] using denotes
  · obtain ⟨base, distance, isLeaf, address⟩ := leaf_of_isView isView m
    obtain ⟨allowed, rfl⟩ : rules.canRead (s.cell m) = true ∧ m (s.cell m) = w := by
      simpa [isView, notLiteral] using denotes
    rw [isLeaf, Ref.value?, address, if_pos allowed]
    exact ⟨rfl, trivial⟩

/-- What an expression means is what it denotes. -/
theorem Node.gives (again : Node → Meaning.Deed) (knows : m.Knows rules t) (n : Node) (isPure : n.isPure = true)
    (bound : n.Bound t) (w : Word) (denotes : n.value? rules.arithmetic rules.canRead m = some w) :
    (n.meaning rules again).Gives rules m w := by
  induction n generalizing w with
  | slot s _ =>
    rw [meaning]
    cases isLiteral : s.literal? with
    | some v =>
      obtain rfl : v = w := by
        simpa [Node.value?, Slot.value?, isLiteral, Slot.value_of_literal isLiteral] using denotes
      exact .ofLiteral v
    | none =>
      have isVariable := bound.resolve_left (by simp [isLiteral])
      obtain ⟨value, anchored⟩ := isVariable.gives knows isLiteral denotes
      exact .ofValue rfl value anchored
  | deref base _ _ ih =>
    obtain ⟨x, denotesB, found⟩ := Option.bind_eq_some_iff.1 denotes
    obtain ⟨r, source, runs, settles, read, anchored⟩ :=
      (ih isPure bound x denotesB).settle
    obtain ⟨value, anchored⟩ := Source.value?_through rules read anchored 0
    rw [meaning, (pending_eq_nil base isPure).1]
    refine .ofValue (Effect.bind_eq_some.2 ⟨r, m, runs, Effect.bind_eq_some.2
      ⟨source, m, settles, rfl⟩⟩) ?_ anchored
    rw [value]
    simpa using found
  | lookup base index _ _ ihB ihI =>
    obtain ⟨isPureB, isPureI⟩ := Bool.and_eq_true_iff.1 isPure
    obtain ⟨x, denotesB, denotes⟩ := Option.bind_eq_some_iff.1 denotes
    obtain ⟨y, denotesI, found⟩ := Option.bind_eq_some_iff.1 denotes
    obtain ⟨r, source, runs, settles, read, anchored⟩ := (ihB isPureB bound.1 x denotesB).settle
    rw [meaning, (pending_eq_nil base isPureB).1, (pending_eq_nil index isPureI).1]
    simp only [List.nil_append, ite_self]
    cases fixed : index.literal? with
    | some distance =>
      obtain rfl := value?_of_literal? fixed denotesI
      obtain ⟨value, anchored⟩ := Source.value?_through rules read anchored distance
      exact .ofValue (Effect.bind_eq_some.2 ⟨r, m, runs, Effect.bind_eq_some.2
        ⟨source, m, settles, rfl⟩⟩) (value.trans found) anchored
    | none =>
      obtain ⟨r', source', runs', settles', read', -⟩ := (ihI isPureI bound.2 y denotesI).settle
      refine .ofValue (Effect.bind_eq_some.2 ⟨r, m, runs, Effect.bind_eq_some.2 ⟨source, m, settles,
        Effect.bind_eq_some.2 ⟨r', m, runs', Effect.bind_eq_some.2 ⟨source', m, settles', rfl⟩⟩⟩⟩)
        ?_ trivial
      rw [Ref.value?, Ref.address, Source.read_plain, read, read']
      exact found
  | binary op left right _ ihL ihR =>
    obtain ⟨isPureL, isPureR⟩ := Bool.and_eq_true_iff.1 isPure
    obtain ⟨x, denotesL, denotes⟩ := Option.bind_eq_some_iff.1 denotes
    obtain ⟨y, denotesR, result⟩ := Option.bind_eq_some_iff.1 denotes
    obtain rfl := Option.some.inj result
    obtain ⟨l, runsL, valueL, -⟩ := (ihL isPureL bound.1 x denotesL).value
    obtain ⟨r, runsR, valueR, -⟩ := (ihR isPureR bound.2 y denotesR).value
    rw [meaning, (pending_eq_nil left isPureL).1, (pending_eq_nil right isPureR).1]
    refine .ofValue (Meaning.binary_eq_some.2 ⟨l, m, r, m, x, runsL, runsR, valueL, .inl ⟨.inl rfl,
      Meaning.inRegister_eq_some.2 ⟨y, valueR, rfl, rfl⟩⟩⟩) rfl trivial
  | unary op operand _ ih =>
    obtain ⟨x, denotesO, result⟩ := Option.bind_eq_some_iff.1 denotes
    cases op with
    | negate | complement =>
      obtain rfl := Option.some.inj result
      obtain ⟨r, runs, value, -⟩ := (ih isPure bound x denotesO).value
      rw [meaning, (pending_eq_nil operand isPure).1]
      exact .ofValue (Effect.bind_eq_some.2 ⟨r, m, runs, Effect.bind_eq_some.2
        ⟨x, m, Ref.read_eq_some.2 ⟨value, rfl⟩, rfl⟩⟩) rfl trivial
    | not =>
      obtain rfl := Option.some.inj result
      have test := (ih isPure bound x denotesO).test
      rw [meaning]
      refine .ofTest (Effect.bind_eq_some.2 ⟨x != 0, m, test, ?_⟩)
      simp [Effect.pure_eq_some, bne]
    | preStep step | postStep step => cases result
  | compare relation left right _ ihL ihR =>
    obtain ⟨isPureL, isPureR⟩ := Bool.and_eq_true_iff.1 isPure
    obtain ⟨x, denotesL, denotes⟩ := Option.bind_eq_some_iff.1 denotes
    obtain ⟨y, denotesR, result⟩ := Option.bind_eq_some_iff.1 denotes
    obtain rfl := Option.some.inj result
    obtain ⟨l, runsL, valueL, -⟩ := (ihL isPureL bound.1 x denotesL).value
    obtain ⟨r, runsR, valueR, -⟩ := (ihR isPureR bound.2 y denotesR).value
    rw [meaning, (pending_eq_nil left isPureL).1, (pending_eq_nil right isPureR).1]
    exact .ofTest (Meaning.relation_eq_some.2 ⟨l, m, r, m, x, y, runsL, runsR, valueL, valueR,
      Meaning.steps_nil.2 rfl, rfl⟩)
  | logic connective left right _ ihL ihR =>
    obtain ⟨isPureL, isPureR⟩ := Bool.and_eq_true_iff.1 isPure
    obtain ⟨x, denotesL, denotes⟩ := Option.bind_eq_some_iff.1 denotes
    have testL := (ihL isPureL bound.1 x denotesL).test
    -- the first operand decides, or the second one does
    have test : ∃ truth, w = Word.ofBool truth ∧
        Meaning.shortcut (connective == .or) (left.meaning rules again).test
          (right.meaning rules again).test m = some (truth, m) := by
      by_cases decides : (x != 0) = (connective == .or)
      · rw [if_pos decides] at denotes
        obtain rfl := Option.some.inj denotes
        exact ⟨x != 0, rfl, Meaning.shortcut_eq_some.2 (.inl ⟨decides ▸ testL, decides⟩)⟩
      · rw [if_neg decides] at denotes
        obtain ⟨y, denotesR, result⟩ := Option.bind_eq_some_iff.1 denotes
        obtain rfl := Option.some.inj result
        have testR := (ihR isPureR bound.2 y denotesR).test
        refine ⟨y != 0, rfl, Meaning.shortcut_eq_some.2 (.inr ⟨m, ?_, testR⟩)⟩
        rw [testL, Bool.eq_not.2 decides]
    obtain ⟨truth, rfl, test⟩ := test
    cases connective with
    | and | or =>
      rw [meaning]
      exact .ofTest test
  | ternary condition yes no _ ihC ihY ihN =>
    simp only [Node.isPure, Bool.and_eq_true] at isPure
    obtain ⟨⟨isPureC, isPureY⟩, isPureN⟩ := isPure
    obtain ⟨x, denotesC, denotes⟩ := Option.bind_eq_some_iff.1 denotes
    have test := (ihC isPureC bound.1 x denotesC).test
    have branch : ∀ n : Node, n.isPure = true → (n.meaning rules again).Gives rules m w →
        Meaning.settled rules again ((n.meaning rules again).value none)
          (n.meaning rules again).pending m = some (w, m) := by
      intro n isPure gives
      obtain ⟨r, runs, value, -⟩ := gives.value
      rw [(pending_eq_nil n isPure).1]
      exact Meaning.settled_eq_some.2 ⟨r, m, runs, value, Meaning.steps_nil.2 rfl⟩
    rw [meaning, (pending_eq_nil condition isPureC).2, (pending_eq_nil yes isPureY).1,
      (pending_eq_nil no isPureN).1]
    refine .ofValue (r := .temp w) (Effect.bind_eq_some.2 ⟨x != 0, m, test, ?_⟩) rfl trivial
    cases isTrue : x != 0 with
    | true =>
      rw [if_pos isTrue] at denotes
      exact Effect.bind_eq_some.2 ⟨w, m, branch yes isPureY (ihY isPureY bound.2.1 w denotes), rfl⟩
    | false =>
      rw [if_neg (by simp [isTrue])] at denotes
      exact Effect.bind_eq_some.2 ⟨w, m, branch no isPureN (ihN isPureN bound.2.2 w denotes), rfl⟩
  | assign | call | host => cases isPure

end

end ContractCompiler
