import ContractCompiler.Proofs.Node
import ContractCompiler.Proofs.Program

/-!
# Proofs.Reuse — when a value may be computed in the variable that it is assigned to

Where a binary operation is computed in the assigned variable, the variable is written before the right
operand is read. That makes a difference if the right operand is read from the cell of the variable
under another name: as an element of an array, or through an address.

The rule `Reuse.checked` lets an assignment mean something only where it makes none. Then the
assignment means the same under all the rules (`Node.effect_le`), and so the code that reuses assigned
variables does what the code does that does not, and else it does not (`Codegen.reuse_agrees_iff`).
-/

namespace ContractCompiler

set_option autoImplicit false

/-! ## Effects that do at least the same -/

namespace Effect

variable {α β : Type}

/-- What the first effect does where it is allowed, the second does. -/
def Le (x y : Effect α) : Prop := ∀ m result, x m = some result → y m = some result

theorem Le.refl (x : Effect α) : Le x x := fun _ _ same => same

theorem Le.bind {x y : Effect α} {f g : α → Effect β} (first : Le x y) (rest : ∀ a, Le (f a) (g a)) :
    Le (x >>= f) (y >>= g) := by
  intro m result runs
  obtain ⟨a, m₁, ran, done⟩ := bind_eq_some.1 runs
  exact bind_eq_some.2 ⟨a, m₁, first m _ ran, rest a m₁ _ done⟩

end Effect

namespace Meaning

/-- The deeds for the targets of put-off steps do at least the same, and put the same off. -/
def DeedsLe (again again' : Node → Deed) : Prop :=
  ∀ n, (again n).run.Le (again' n).run ∧ (again n).pending = (again' n).pending

/-- A value that is computed in a variable is the same word when it is computed in a register. -/
def EarlyLe (early late : Effect Ref) (a : Int) : Prop :=
  ∀ m r m', early m = some (r, m') → late m = some (r, m') ∨
    ∃ w m₀, r = .cell a ∧ m' = m₀.set a w ∧ late m = some (.temp w, m₀)

/-- What the first meaning does where it is allowed, the second does without computing in variables. -/
structure Le (μ ν : Meaning) : Prop where
  value : (μ.value none).Le (ν.value none)
  early : ∀ a, EarlyLe (μ.value (some a)) (ν.value none) a
  pending : μ.pending = ν.pending
  test : μ.test.Le ν.test
  testPending : μ.testPending = ν.testPending

variable {e : Environment} {again again' : Node → Deed}

/-- The rules under which it makes no difference where a value is computed. -/
def checked (e : Environment) : Rules := ⟨e, .checked⟩

/-- The rules under which no value is computed in a variable. -/
def never (e : Environment) : Rules := ⟨e, .never⟩

section Combinators

variable (le : DeedsLe again again')
include le

theorem leak_eq (pending : List (Step × Node)) : leak again pending = leak again' pending := by
  unfold leak
  congr 1
  funext p
  exact (le p.2).2

theorem steps_le (pending : List (Step × Node)) :
    (steps (checked e) again pending).Le (steps (never e) again' pending) := by
  induction pending with
  | nil => exact .refl _
  | cons p pending ih => exact .bind (le p.2).1 fun _ => .bind (.refl _) fun _ => ih

theorem settled_le {x y : Effect Ref} (value : x.Le y) (pending : List (Step × Node)) :
    (settled (checked e) again x pending).Le (settled (never e) again' y pending) :=
  .bind value fun _ => .bind (.refl _) fun _ => .bind (steps_le le pending) fun _ => .refl _

theorem ofPlace_le {x y : Option Int → Effect Ref} {pending pending' : List (Step × Node)}
    (same : pending = pending') (value : (x none).Le (y none))
    (early : ∀ a, EarlyLe (x (some a)) (y none) a) :
    Le (ofValue (checked e) again pending x) (ofValue (never e) again' pending' y) := by
  subst same
  exact ⟨value, early, rfl, .bind (settled_le le value pending) fun _ => .refl _, leak_eq le pending⟩

/-- A value that is computed the same way wherever it is assigned to. -/
theorem ofValue_le {x y : Effect Ref} {pending pending' : List (Step × Node)}
    (same : pending = pending') (value : x.Le y) :
    Le (ofValue (checked e) again pending fun _ => x) (ofValue (never e) again' pending' fun _ => y) :=
  ofPlace_le le same value fun _ m _ _ runs => .inl (value m _ runs)

end Combinators

theorem ofTest_le {x y : Effect Bool} {pending pending' : List (Step × Node)}
    (same : pending = pending') (test : x.Le y) : Le (ofTest pending x) (ofTest pending' y) := by
  subst same
  have value : ((ofTest pending x).value none).Le ((ofTest pending y).value none) :=
    .bind test fun _ => .refl _
  exact ⟨value, fun a m r m' runs => .inl (value m _ runs), rfl, test, rfl⟩

theorem shortcut_le (decides : Bool) {left left' right right' : Effect Bool} (first : left.Le left')
    (second : right.Le right') :
    (shortcut decides left right).Le (shortcut decides left' right') := by
  refine .bind first fun truth => ?_
  split
  · exact .refl _
  · exact second

section Operators

variable {left left' right right' : Effect Ref}

theorem relation_le (le : DeedsLe again again') (r : Relation) (first : left.Le left')
    (second : right.Le right') (pending : List (Step × Node)) :
    (relation (checked e) again r left right pending).Le
      (relation (never e) again' r left' right' pending) :=
  .bind first fun _ => .bind second fun _ => .bind (.refl _) fun _ => .bind (.refl _) fun _ =>
    .bind (steps_le le pending) fun _ => .refl _

theorem lookup_le (fixed : Option Word) (first : left.Le left') (second : right.Le right') :
    (lookup (checked e) left fixed right).Le (lookup (never e) left' fixed right') := by
  refine .bind first fun _ => .bind (.refl _) fun _ => ?_
  cases fixed with
  | some distance => exact .refl _
  | none => exact .bind second fun _ => .refl _

theorem binary_le (op : BinaryOp) (first : left.Le left') (second : right.Le right') :
    (binary (checked e) op left right none).Le (binary (never e) op left' right' none) :=
  .bind first fun _ => .bind second fun _ => .refl _

/-- An operation that is computed in a variable and makes no difference. -/
theorem binary_early_le (op : BinaryOp) (first : left.Le left') (second : right.Le right') (a : Int) :
    EarlyLe (binary (checked e) op left right (some a)) (binary (never e) op left' right' none) a := by
  intro m result m' runs
  obtain ⟨l, m₁, r, m₂, x, ranL, ranR, read, done⟩ := binary_eq_some.1 runs
  have late : ∀ result m', inRegister (never e) op x r m₂ = some (result, m') →
      binary (never e) op left' right' none m = some (result, m') := fun _ _ done =>
    binary_eq_some.2 ⟨l, m₁, r, m₂, x, first _ _ ranL, second _ _ ranR, read, .inl ⟨.inl rfl, done⟩⟩
  rcases done with ⟨-, done⟩ | ⟨_, ⟨⟩, -, done⟩
  · exact .inl (late _ _ done)
  · obtain ⟨undisturbed, y, valueR, rfl, rfl⟩ := inVariable_eq_some.1 done
    have same := undisturbed rfl
    rw [Undisturbed, valueR] at same
    obtain ⟨y', valueR', same⟩ := Option.map_eq_some_iff.1 same.symm
    refine .inr ⟨_, m₂, rfl, rfl, late _ _ (inRegister_eq_some.2 ⟨y', valueR', ?_, rfl⟩)⟩
    rw [← same]
    rfl

/-- An assignment whose value may be computed in the variable. -/
theorem assign_le {μ ν : Meaning} (target : left.Le left') (value : μ.Le ν) (right : Option Node)
    (hasCall : Bool) :
    (assign (checked e) left μ.value right hasCall).Le (assign (never e) left' ν.value right hasCall) := by
  rintro m ⟨r, m'⟩ runs
  obtain ⟨m₁, v, m₂, w, ranT, ranV, read, written⟩ := assign_eq_some.1 runs
  refine assign_eq_some.2 ⟨m₁, ?_⟩
  cases isEarly : early (checked e) right hasCall r with
  | none =>
    rw [isEarly] at ranV
    exact ⟨v, m₂, w, target _ _ ranT, value.value _ _ ranV, read, written⟩
  | some a =>
    rw [isEarly] at ranV
    obtain ⟨-, rfl, -⟩ := early_eq_some isEarly
    rcases value.early a m₁ v m₂ ranV with ranV' | ⟨w', m₀, rfl, rfl, ranV'⟩
    · exact ⟨v, m₂, w, target _ _ ranT, ranV', read, written⟩
    · -- the variable was given the word that it is assigned
      obtain rfl : w' = w := by simpa [Ref.value?] using read
      exact ⟨.temp w', m₀, w', target _ _ ranT, ranV', rfl, by simpa [Ref.write?] using written⟩

/-- Where an assignment of a binary operation means nothing under the checked rules alone, the two ways
to compute it give different words. -/
theorem assign_differs {target : Effect Ref} {op : BinaryOp} {right? : Option Node} {hasCall : Bool}
    {m m₁ m₂ : Memory} {r₁ r₂ : Ref}
    (always : assign ⟨e, .always⟩ target (binary ⟨e, .always⟩ op left right) right? hasCall m =
      some (r₁, m₁))
    (never : assign ⟨e, .never⟩ target (binary ⟨e, .never⟩ op left right) right? hasCall m =
      some (r₂, m₂))
    (unchecked : assign ⟨e, .checked⟩ target (binary ⟨e, .checked⟩ op left right) right? hasCall m =
      none) : ∃ a m', target m = some (.cell a, m') ∧ m₁ a ≠ m₂ a := by
  obtain ⟨μ₁, v, μ₂, w, ranT, ranV, read, written⟩ := assign_eq_some.1 always
  have impossible : ∀ v μ₂ w, binary ⟨e, .checked⟩ op left right
      (early ⟨e, .checked⟩ right? hasCall r₁) μ₁ = some (v, μ₂) → v.value? ⟨e, .checked⟩ μ₂ = some w →
      r₁.write? ⟨e, .checked⟩ μ₂ w = some m₁ → False := by
    intro v μ₂ w ranV read written
    have runs := assign_eq_some.2 ⟨μ₁, v, μ₂, w, ranT, ranV, read, written⟩
    rw [runs] at unchecked
    cases unchecked
  have sameEarly : early ⟨e, .checked⟩ right? hasCall r₁ = early ⟨e, .always⟩ right? hasCall r₁ := by
    cases r₁ <;> cases right? <;> rfl
  rw [sameEarly] at impossible
  cases isEarly : early ⟨e, .always⟩ right? hasCall r₁ with
  | none =>
    rw [isEarly] at impossible ranV
    exact (impossible v μ₂ w ranV read written).elim
  | some a =>
    rw [isEarly] at impossible ranV
    obtain ⟨-, rfl, -⟩ := early_eq_some isEarly
    obtain ⟨l, μ, r, μ', x, ranL, ranR, valueL, done⟩ := binary_eq_some.1 ranV
    rcases done with ⟨noPlace, done⟩ | ⟨_, ⟨⟩, notTemp, done⟩
    · exact (impossible v μ₂ w (binary_eq_some.2 ⟨l, μ, r, μ', x, ranL, ranR, valueL,
        .inl ⟨noPlace, done⟩⟩) read written).elim
    · obtain ⟨-, y, valueR, rfl, rfl⟩ := inVariable_eq_some.1 done
      obtain ⟨_, _, μ₃, w', ranT', ranV', read', written'⟩ := assign_eq_some.1 never
      obtain ⟨rfl, rfl⟩ := Prod.mk.inj (Option.some.inj (ranT'.symm.trans ranT))
      obtain ⟨_, _, _, _, _, ranL', ranR', valueL', ⟨-, done'⟩ | ⟨_, ⟨⟩, -⟩⟩ := binary_eq_some.1 ranV'
      obtain ⟨rfl, rfl⟩ := Prod.mk.inj (Option.some.inj (ranL.symm.trans ranL'))
      obtain ⟨rfl, rfl⟩ := Prod.mk.inj (Option.some.inj (ranR.symm.trans ranR'))
      obtain rfl := Option.some.inj (valueL.symm.trans valueL')
      obtain ⟨y', valueR', rfl, unchanged⟩ := inRegister_eq_some.1 done'
      obtain rfl : μ' = μ₃ := unchanged.symm
      obtain rfl := Option.some.inj read
      obtain rfl := Option.some.inj read'
      obtain rfl := Option.some.inj written
      obtain rfl := Option.some.inj written'
      refine ⟨a, _, ranT, fun same => ?_⟩
      have undisturbed : Undisturbed ⟨e, .checked⟩ op x r a μ' := by
        show (r.value? ⟨e, .always⟩ (μ'.set a x)).map _ = (r.value? ⟨e, .never⟩ μ').map _
        rw [valueR, valueR']
        simpa using same
      exact impossible _ _ _ (binary_eq_some.2 ⟨l, μ, r, μ', x, ranL, ranR, valueL, .inr ⟨a, rfl,
        notTemp, inVariable_eq_some.2 ⟨fun _ => undisturbed, y, valueR, rfl, rfl⟩⟩⟩) rfl rfl

end Operators

end Meaning

/-- The variables that stand for their own cells. -/
theorem Slot.IsVariable.eq_of_leaf {t : SlotTable} {s : Slot} {a : Int} (isVariable : s.IsVariable t)
    (leaf : s.leaf = .cell a) : s.address = a ∧ (s.kind = .long ∨ s.kind = .structRef) := by
  have direct : s.offset = none := by
    cases offset : s.offset with
    | none => rfl
    | some o =>
      cases o <;> by_cases array : s.kind = .array <;>
        simp [Slot.leaf, offset, array, Source.through] at leaf
  have notArray : s.kind ≠ .array := by
    intro array
    simp [Slot.leaf, direct, array] at leaf
  refine ⟨by simpa [Slot.leaf, direct, notArray] using leaf, ?_⟩
  have notStruct := isVariable.stored.kind_ne_struct
  cases kind : s.kind with
  | long => exact .inl rfl
  | structRef => exact .inr rfl
  | register => exact absurd kind isVariable.notRegister
  | constant => exact absurd kind isVariable.notConstant
  | array => exact absurd kind notArray
  | struct => exact absurd kind notStruct

namespace Node

open Meaning

variable {e : Environment} {again again' : Node → Deed}

/-- What a node means under the checked rules, it means without computing in variables. -/
theorem meaning_le (le : DeedsLe again again') (n : Node) :
    (n.meaning (checked e) again).Le (n.meaning (never e) again') := by
  induction n with
  | slot s line =>
    rw [meaning, meaning]
    split
    · exact ⟨.refl _, fun a m r m' runs => .inl runs, rfl, .refl _, rfl⟩
    · exact ofValue_le le rfl (.refl _)
  | deref _ _ _ base =>
    rw [meaning, meaning]
    exact ofValue_le le base.pending (.bind base.value fun _ => .bind (.refl _) fun _ => .refl _)
  | lookup _ _ _ _ base index =>
    rw [meaning, meaning]
    refine ofValue_le le ?_ (lookup_le _ base.value index.value)
    rw [base.pending, index.pending]
  | assign op _ _ _ target value =>
    have same := congrArg₂ (· ++ ·) target.pending value.pending
    cases op with
    | none =>
      rw [meaning, meaning]
      exact ofValue_le le same (assign_le target.value value _ _)
    | some op =>
      rw [meaning, meaning]
      exact ofValue_le le same (.bind target.value fun _ => .bind value.value fun _ => .refl _)
  | binary op _ _ _ left right =>
    rw [meaning, meaning]
    exact ofPlace_le le (congrArg₂ (· ++ ·) left.pending right.pending)
      (binary_le op left.value right.value) (binary_early_le op left.value right.value)
  | unary op _ _ operand =>
    cases op <;> rw [meaning, meaning]
    · exact ofValue_le le operand.pending (.bind operand.value fun _ => .bind (.refl _) fun _ => .refl _)
    · exact ofValue_le le operand.pending (.bind operand.value fun _ => .bind (.refl _) fun _ => .refl _)
    · exact ofTest_le operand.testPending (.bind operand.test fun _ => .refl _)
    · exact ofValue_le le operand.pending (.bind operand.value fun _ => .bind (.refl _) fun _ => .refl _)
    · exact ofValue_le le (by rw [operand.pending]) operand.value
  | compare r _ _ _ left right =>
    rw [meaning, meaning, left.pending, right.pending]
    exact ofTest_le (leak_eq le _) (relation_le le r left.value right.value _)
  | logic connective _ _ _ left right =>
    cases connective <;> rw [meaning, meaning] <;>
      exact ofTest_le (congrArg₂ (· ++ ·) left.testPending right.testPending) (shortcut_le _ left.test right.test)
  | ternary _ _ _ _ condition yes no =>
    rw [meaning, meaning]
    refine ofValue_le le ?_ (.bind condition.test fun truth => ?_)
    · rw [condition.testPending, yes.pending, no.pending, leak_eq le, leak_eq le]
    · rw [yes.pending, no.pending]
      cases truth
      · exact .bind (settled_le le no.value _) fun _ => .refl _
      · exact .bind (settled_le le yes.value _) fun _ => .refl _
  | call _ _ _ _ => exact ofValue_le le rfl (.refl _)
  | host _ _ _ => exact ofValue_le le rfl (.refl _)

theorem deedBelow_le (e : Environment) (depth : Nat) :
    DeedsLe (deedBelow (checked e) depth) (deedBelow (never e) depth) := by
  induction depth with
  | zero => exact fun _ => ⟨.refl _, rfl⟩
  | succ depth ih =>
    intro n
    have le := meaning_le (e := e) ih n
    exact ⟨le.value, le.pending⟩

/-- A phrase does under the checked rules what it does without computing in variables. -/
theorem effect_le (e : Environment) (n : Node) : (n.effect (checked e)).Le (n.effect (never e)) := by
  have means : ∀ n : Node, (n.means (checked e)).Le (n.means (never e)) := fun n =>
    meaning_le (deedBelow_le e n.postDepth) n
  have deeds : DeedsLe (deed (checked e)) (deed (never e)) := fun n => ⟨(means n).value, (means n).pending⟩
  refine .bind (means n).value fun _ => ?_
  rw [(means n).pending]
  exact steps_le deeds _

/-! ## Where it makes a difference -/

section Pure

variable {reuse reuse' : Reuse}

/-- Two meanings do the same and put nothing off. -/
structure Alike (μ ν : Meaning) : Prop where
  value : μ.value none = ν.value none
  test : μ.test = ν.test
  pending : μ.pending = []
  pending' : ν.pending = []

/-- Without assignments and steps, there is nothing that the rules on reuse could change. -/
theorem meaning_alike (n : Node) (isPure : n.isPure = true) :
    Alike (n.meaning ⟨e, reuse⟩ again) (n.meaning ⟨e, reuse'⟩ again') := by
  induction n with
  | slot s _ =>
    rw [meaning, meaning]
    split <;> exact ⟨rfl, rfl, rfl, rfl⟩
  | deref base _ _ ih =>
    obtain ⟨value, -, none, none'⟩ := ih isPure
    rw [meaning, meaning, value, none, none']
    exact ⟨rfl, rfl, rfl, rfl⟩
  | lookup base index _ _ ihB ihI =>
    obtain ⟨isPureB, isPureI⟩ := Bool.and_eq_true_iff.1 isPure
    obtain ⟨valueB, -, noneB, noneB'⟩ := ihB isPureB
    obtain ⟨valueI, -, noneI, noneI'⟩ := ihI isPureI
    rw [meaning, meaning, valueB, valueI, noneB, noneB', noneI, noneI', ite_self]
    exact ⟨rfl, rfl, rfl, rfl⟩
  | unary op operand _ ih =>
    cases op with
    | preStep _ | postStep _ => cases isPure
    | negate | complement =>
      obtain ⟨value, -, none, none'⟩ := ih isPure
      rw [meaning, meaning, value, none, none']
      exact ⟨rfl, rfl, rfl, rfl⟩
    | not =>
      obtain ⟨-, test, -, -⟩ := ih isPure
      rw [meaning, meaning, test, (pending_eq_nil operand isPure).2, (pending_eq_nil operand isPure).2]
      exact ⟨rfl, rfl, rfl, rfl⟩
  | binary _ left right _ ihL ihR | compare _ left right _ ihL ihR =>
    obtain ⟨isPureL, isPureR⟩ := Bool.and_eq_true_iff.1 isPure
    obtain ⟨valueL, -, noneL, noneL'⟩ := ihL isPureL
    obtain ⟨valueR, -, noneR, noneR'⟩ := ihR isPureR
    rw [meaning, meaning, valueL, valueR, noneL, noneL', noneR, noneR']
    exact ⟨rfl, rfl, rfl, rfl⟩
  | logic connective left right _ ihL ihR =>
    obtain ⟨isPureL, isPureR⟩ := Bool.and_eq_true_iff.1 isPure
    obtain ⟨-, testL, -, -⟩ := ihL isPureL
    obtain ⟨-, testR, -, -⟩ := ihR isPureR
    cases connective <;>
    · rw [meaning, meaning, testL, testR, (pending_eq_nil left isPureL).2,
        (pending_eq_nil left isPureL).2, (pending_eq_nil right isPureR).2,
        (pending_eq_nil right isPureR).2]
      exact ⟨rfl, rfl, rfl, rfl⟩
  | ternary condition yes no _ ihC ihY ihN =>
    obtain ⟨isPureCY, isPureN⟩ := Bool.and_eq_true_iff.1 isPure
    obtain ⟨isPureC, isPureY⟩ := Bool.and_eq_true_iff.1 isPureCY
    obtain ⟨-, test, -, -⟩ := ihC isPureC
    obtain ⟨valueY, -, noneY, noneY'⟩ := ihY isPureY
    obtain ⟨valueN, -, noneN, noneN'⟩ := ihN isPureN
    rw [meaning, meaning, Meaning.ternary, Meaning.ternary, test, valueY, valueN, noneY, noneY', noneN,
      noneN', (pending_eq_nil condition isPureC).2, (pending_eq_nil condition isPureC).2]
    exact ⟨rfl, rfl, rfl, rfl⟩
  | assign | call | host => cases isPure

/-- A plain assignment as a phrase, if nothing is put off in it. -/
theorem effect_assign (rules : Rules) {target value : Node} (isPureT : target.isPure = true)
    (isPureV : value.isPure = true) (line : Nat) (m : Memory) : ∃ again : Node → Deed,
    (assign none target value line).effect rules m =
      (Meaning.assign rules ((target.meaning rules again).value none) (value.meaning rules again).value
        value.right? value.hasCall m).map fun (_, m') => ((), m') := by
  refine ⟨deedBelow rules (assign none target value line).postDepth, ?_⟩
  have none : ((assign none target value line).means rules).pending = [] :=
    List.append_eq_nil_iff.2 ⟨(pending_eq_nil target isPureT).1, (pending_eq_nil value isPureV).1⟩
  show (((assign _ target value line).means rules).value _ m).bind _ = _
  rw [none, Option.map_eq_bind]
  rfl

/-- Where an assignment without other changes means nothing under the checked rules alone, the two ways
to compute it leave different words in the variable. -/
theorem effect_differs {target value : Node} {line : Nat} {m m₁ m₂ : Memory}
    (isPureT : target.isPure = true) (isPureV : value.isPure = true)
    (always : (assign none target value line).effect ⟨e, .always⟩ m = some ((), m₁))
    (never : (assign none target value line).effect ⟨e, .never⟩ m = some ((), m₂))
    (unchecked : (assign none target value line).effect ⟨e, .checked⟩ m = none) :
    ∃ a m', (target.means ⟨e, .never⟩).value none m = some (.cell a, m') ∧ m₁ a ≠ m₂ a := by
  obtain ⟨again₁, isAlways⟩ := effect_assign ⟨e, .always⟩ isPureT isPureV line m
  obtain ⟨again₂, isNever⟩ := effect_assign ⟨e, .never⟩ isPureT isPureV line m
  obtain ⟨again₃, isChecked⟩ := effect_assign ⟨e, .checked⟩ isPureT isPureV line m
  rw [isAlways] at always
  rw [isNever] at never
  rw [isChecked] at unchecked
  obtain ⟨⟨r₁, _⟩, always, ⟨⟩⟩ := Option.map_eq_some_iff.1 always
  obtain ⟨⟨r₂, _⟩, never, ⟨⟩⟩ := Option.map_eq_some_iff.1 never
  have unchecked := Option.map_eq_none_iff.1 unchecked
  have sameTarget : ∀ reuse again, (target.meaning ⟨e, reuse⟩ again).value none =
      (target.means ⟨e, .never⟩).value none := fun _ _ => (meaning_alike target isPureT).value
  rw [sameTarget] at always never unchecked
  cases isRight : value.right? with
  | none =>
    -- nothing is computed in the variable
    rw [isRight] at always unchecked
    obtain ⟨m', v, m'', w, ranT, ranV, read, written⟩ := assign_eq_some.1 always
    have late : ∀ rules : Rules, early rules none value.hasCall r₁ = none := by
      intro rules
      cases isEarly : early rules none value.hasCall r₁ with
      | none => rfl
      | some a =>
        obtain ⟨-, -, _, ⟨⟩, -⟩ := early_eq_some isEarly
    have sameValue : (value.meaning ⟨e, .always⟩ again₁).value none =
        (value.meaning ⟨e, .checked⟩ again₃).value none := (meaning_alike value isPureV).value
    rw [late, sameValue, ← late ⟨e, .checked⟩] at ranV
    rw [assign_eq_some.2 ⟨m', v, m'', w, ranT, ranV, read, written⟩] at unchecked
    cases unchecked
  | some right =>
    cases value with
    | binary op left right line' =>
      obtain ⟨isPureL, isPureR⟩ := Bool.and_eq_true_iff.1 isPureV
      have sameValue : ∀ reuse again, ((binary op left right line').meaning ⟨e, reuse⟩ again).value =
          Meaning.binary ⟨e, reuse⟩ op ((left.means ⟨e, .never⟩).value none)
            ((right.means ⟨e, .never⟩).value none) := by
        intro reuse again
        funext dest
        rw [value_binary, (meaning_alike left isPureL).value, (meaning_alike right isPureR).value]
        rfl
      rw [sameValue] at always never unchecked
      exact assign_differs always never unchecked
    | _ => cases isRight

/-- Of what changes nothing, only a variable is evaluated to its own cell. -/
theorem eq_slot_of_cell {rules : Rules} {m m' : Memory} {a : Int} (n : Node) (isPure : n.isPure = true)
    (isCell : (n.meaning rules again).value none m = some (.cell a, m')) :
    ∃ s line, n = slot s line ∧ s.literal? = none ∧ s.leaf = .cell a := by
  have notTest : ∀ {pending : List (Step × Node)} {test : Effect Bool},
      (Meaning.ofTest pending test).value none m ≠ some (.cell a, m') := by
    intro pending test runs
    obtain ⟨truth, m₁, -, done⟩ := Effect.bind_eq_some.1 runs
    cases (Effect.pure_eq_some.1 done).1
  have notThrough : ∀ (source : Source) (distance : Word), source.through distance ≠ .cell a := by
    intro source distance
    cases source <;> exact nofun
  cases n with
  | slot s line =>
    rw [meaning] at isCell
    split at isCell
    · cases (Effect.pure_eq_some.1 isCell).1
    · rename_i notLiteral
      exact ⟨s, line, rfl, notLiteral, (Effect.pure_eq_some.1 isCell).1⟩
  | deref base type line =>
    obtain ⟨r, m₁, -, rest⟩ := Effect.bind_eq_some.1 isCell
    obtain ⟨source, m₂, -, done⟩ := Effect.bind_eq_some.1 rest
    exact absurd (Effect.pure_eq_some.1 done).1 (notThrough source 0)
  | lookup base index type line =>
    rw [meaning] at isCell
    obtain ⟨r, m₁, -, rest⟩ := Effect.bind_eq_some.1 isCell
    obtain ⟨source, m₂, -, done⟩ := Effect.bind_eq_some.1 rest
    cases fixed : index.literal? with
    | some distance =>
      rw [fixed] at done
      exact absurd (Effect.pure_eq_some.1 done).1 (notThrough source _)
    | none =>
      rw [fixed] at done
      obtain ⟨i, m₃, -, rest⟩ := Effect.bind_eq_some.1 done
      obtain ⟨away, m₄, -, done⟩ := Effect.bind_eq_some.1 rest
      cases (Effect.pure_eq_some.1 done).1
  | binary op left right line =>
    rw [value_binary] at isCell
    obtain ⟨l, m₁, r, m₂, x, -, -, -, ⟨-, done⟩ | ⟨_, ⟨⟩, -⟩⟩ := binary_eq_some.1 isCell
    obtain ⟨y, -, isTemp, -⟩ := inRegister_eq_some.1 done
    cases isTemp
  | unary op operand line =>
    cases op with
    | negate | complement =>
      obtain ⟨r, m₁, -, rest⟩ := Effect.bind_eq_some.1 isCell
      obtain ⟨w, m₂, -, done⟩ := Effect.bind_eq_some.1 rest
      cases (Effect.pure_eq_some.1 done).1
    | not => exact absurd isCell notTest
    | preStep _ => cases isPure
    | postStep _ => cases isPure
  | compare relation left right line => exact absurd isCell notTest
  | logic connective left right line => cases connective <;> exact absurd isCell notTest
  | ternary condition yes no line =>
    obtain ⟨truth, m₁, -, done⟩ := Effect.bind_eq_some.1 isCell
    split at done <;>
    · obtain ⟨w, m₂, -, done⟩ := Effect.bind_eq_some.1 done
      cases (Effect.pure_eq_some.1 done).1
  | assign _ _ _ _ => cases isPure
  | call _ _ _ _ => cases isPure
  | host _ _ _ => cases isPure

end Pure

end Node

/-! ## The code of assignments -/

namespace Codegen

variable {t : SlotTable} {ctx : Context} {tokens : List Token} {line line' : Nat} {target value : Node}

/-- The phrase of an assignment does what the assignment means, under every rule on reuse that agrees
with the settings. -/
theorem assignment_ends {M : Machine} {rules : Rules} (obeys : M.Obeys rules)
    (reuse : ctx.settings.reuseAssignedVar = (rules.reuse != .never))
    (isPhrase : (ctx.names t).phrase tokens line =
      .ok (some (.value (.assign none target value line'))))
    (bound : (Node.assign none target value line').Bound t) {st : State} (valid : st.Valid)
    (interns : t.Interns st.table) (settled : st.deferred = []) :
    (phrase tokens false line).Ends ctx st fun _ code st' => t.Interns st'.table ∧
      (M.Hosts st' → ∀ {m m' mm : Memory}, M.Ready m mm →
        (Node.assign none target value line').effect rules m = some ((), m') →
          ∃ mm', M.Leads code none mm mm' ∧ M.Ready m' mm') := by
  refine phrase_bound isPhrase interns (.bind ((comment_ends M _ valid settled).mono ?_))
  rintro _ c₀ s₀ ⟨passes, silent⟩
  have interns₀ := interns.trans passes.interns
  have simulates := Node.code_simulates obeys reuse bound
  refine .bind (.capture (.bind (.bind ((simulates.value_none s₀ passes.valid interns₀).mono ?_))))
  rintro o c₁ s₁ ⟨takes, -, run⟩
  refine .release ?_
  have takes₁ := takes.releaseAll
  have interns₁ := interns₀.trans takes₁.interns
  refine .bind ((applyDeferred_ends obeys (eval_repeats obeys reuse) simulates.pending takes₁ interns₁
    (by rw [passes.settled]; rfl)).mono ?_)
  rintro _ c₂ s₂ ⟨takes₂, later, finish⟩
  refine (checkRegisters_ends _).mono ?_
  rintro _ c₃ s₃ ⟨rfl, rfl⟩
  refine .emitAll ⟨interns₀.trans takes₂.interns, fun hosts {m m' mm} ready means => ?_⟩
  obtain ⟨r, m₁, ran, done⟩ := Effect.bind_eq_some.1 means
  obtain ⟨mm₁, leads₁, ready₁, -, -⟩ := run (later.hosts hosts).of_release ready ran
  obtain ⟨mm₂, leads₂, ready₂, -⟩ := finish hosts ready₁ done
  exact ⟨mm₂, (silent mm).append (by simpa using leads₁.append leads₂), ready₂⟩

/-- The code of an assignment that computes in the assigned variable does what the code does that uses
a register, if the assignment means something under the checked rules: if, that is, writing the variable
early makes no difference. Where nothing else is changed on the way, it agrees only then. -/
theorem reuse_agrees_iff {ctx' : Context} {M M' : Machine} {e : Environment} {st st' s s' : State}
    {code code' : List Instr} {m m₁ m₂ : Memory} (laid : t.Laid) (small : t.Small)
    (isPhrase : (ctx.names t).phrase tokens line =
      .ok (some (.value (.assign none target value line'))))
    (uncalled : (Node.assign none target value line').hasCall = false)
    (reuse : ctx.settings.reuseAssignedVar = true)
    (other : ctx' = { ctx with settings := { ctx.settings with reuseAssignedVar := false } })
    (valid : st.Valid) (interns : t.Interns st.table) (settled : st.deferred = [])
    (valid' : st'.Valid) (interns' : t.Interns st'.table) (settled' : st'.deferred = [])
    (done : phrase tokens false line ctx st = .done () code s)
    (done' : phrase tokens false line ctx' st' = .done () code' s')
    (hosts : M.Hosts s) (hosts' : M'.Hosts s') (obeys : M.Obeys ⟨e, .always⟩)
    (obeys' : M'.Obeys ⟨e, .never⟩) (fixed : M.Fixed m) (fixed' : M'.Fixed m)
    (always : (Node.assign none target value line').effect ⟨e, .always⟩ m = some ((), m₁))
    (never : (Node.assign none target value line').effect ⟨e, .never⟩ m = some ((), m₂)) :
    ∃ mm₁ mm₂, M.Leads code none m mm₁ ∧ M'.Leads code' none m mm₂ ∧
      (((Node.assign none target value line').effect ⟨e, .checked⟩ m).isSome →
        ∀ a, ¬ M.IsRegister a → mm₁ a = mm₂ a) ∧
      (target.isPure = true → value.isPure = true → (∀ a, ¬ M.IsRegister a → mm₁ a = mm₂ a) →
        ((Node.assign none target value line').effect ⟨e, .checked⟩ m).isSome) := by
  subst other
  have isPhrase' : (({ ctx with settings := { ctx.settings with reuseAssignedVar := false } } :
      Context).names t).phrase tokens line = .ok (some (.value (.assign none target value line'))) :=
    isPhrase
  have bound := ((ctx.names t).phrase_bound laid small tokens line _ isPhrase _ rfl).1 uncalled
  have ready : M.Ready m m := ⟨fixed, fun _ _ => rfl⟩
  have ready' : M'.Ready m m := ⟨fixed', fun _ _ => rfl⟩
  obtain ⟨internsS, run⟩ :=
    assignment_ends obeys reuse isPhrase bound valid interns settled _ _ _ done
  obtain ⟨internsS', run'⟩ :=
    assignment_ends obeys' rfl isPhrase' bound valid' interns' settled' _ _ _ done'
  obtain ⟨mm₂, leads₂, ready₂⟩ := run' hosts' ready' never
  -- both tables have the registers of the table at the start
  have sameRegisters : M'.table.registers = M.table.registers := by
    rw [hosts.grows.registers, hosts'.grows.registers, internsS.grows.registers,
      internsS'.grows.registers]
  have agrees₂ : ∀ a, ¬ M.IsRegister a → mm₂ a = m₂ a := by
    intro a notRegister
    refine ready₂.agrees a ?_
    rw [Machine.IsRegister, sameRegisters]
    exact notRegister
  cases checked : (Node.assign none target value line').effect ⟨e, .checked⟩ m with
  | some result =>
    -- the code that reuses the variable follows the checked rules as well
    obtain ⟨⟨⟩, m₃⟩ := result
    have obeysChecked : M.Obeys ⟨e, .checked⟩ := ⟨obeys.arithmetic, obeys.canRead, obeys.canWrite⟩
    obtain ⟨-, runChecked⟩ :=
      assignment_ends obeysChecked reuse isPhrase bound valid interns settled _ _ _ done
    obtain ⟨mm₁, leads₁, ready₁⟩ := runChecked hosts ready checked
    have same : some ((), m₂) = some ((), m₃) := never.symm.trans (Node.effect_le e _ m _ checked)
    cases same
    refine ⟨mm₁, mm₂, leads₁, leads₂, fun _ a notRegister => ?_, fun _ _ _ => rfl⟩
    rw [ready₁.agrees a notRegister, agrees₂ a notRegister]
  | none =>
    obtain ⟨mm₁, leads₁, ready₁⟩ := run hosts ready always
    refine ⟨mm₁, mm₂, leads₁, leads₂, by simp, fun isPureT isPureV same => ?_⟩
    obtain ⟨a, m', isCell, differs⟩ := Node.effect_differs isPureT isPureV always never checked
    obtain ⟨x, line₁, rfl, notLiteral, leaf⟩ := Node.eq_slot_of_cell target isPureT isCell
    have isVariable : x.IsVariable t := bound.1.resolve_left (by simp [notLiteral])
    obtain ⟨rfl, kind⟩ := isVariable.eq_of_leaf leaf
    have notRegister := (hosts.open_of_kind (isVariable.stored.mono internsS) kind).not_isRegister
    have same := same _ notRegister
    rw [ready₁.agrees _ notRegister, agrees₂ _ notRegister] at same
    exact absurd same differs

end Codegen

namespace Sample

/-- An element is assigned by its own name, and read by its index. -/
def renamed : String := "long a[2], y; void main(void) \x7b a_1 = y - a[1]; \x7d"

/-- The array is the address of its first element, and `y` is 9. -/
def nine : Memory := fun a => [0, 0, 0, 4, 1, 3, 9].getD a.toNat 0

/-- The parts of an assignment. -/
def assigned? : Option Command → Option (Node × Node × Nat)
  | some (.value (.assign none target value line)) => some (target, value, line)
  | _ => none

theorem assigned?_eq_some {found : Option Command} {p : Node × Node × Nat}
    (isAssigned : assigned? found = some p) : found = some (.value (.assign none p.1 p.2.1 p.2.2)) := by
  unfold assigned? at isAssigned
  split at isAssigned <;> cases isAssigned
  rfl

set_option synthInstance.maxSize 1000 in
/-- The assignment is compiled both ways, and only the checked rules leave it without a meaning. -/
theorem renamed_differs : (Contract.read renamed {}).Succeeds fun c =>
    (tokenize "a_1 = y - a[1]").Succeeds fun tokens => (((context c).names c.layout.table).phrase tokens 1).Succeeds
      fun found => ∃ p ∈ assigned? found, (Codegen.phrase tokens false 1).Succeeds (context c)
        (.ofLayout c.layout) fun _ code s => (Codegen.phrase tokens false 1).Succeeds
          (context c { reuseAssignedVar := false }) (.ofLayout c.layout) fun _ code' s' =>
          let M : Machine := ⟨arithmetic, s.table, code⟩
          let M' : Machine := ⟨arithmetic, s'.table, code'⟩
          let n := Node.assign none p.1 p.2.1 p.2.2
          c.layout.table.Small ∧ s.table = c.layout.table ∧ s'.table = c.layout.table ∧ M.Fixed nine ∧
            M'.Fixed nine ∧ n.hasCall = false ∧ p.1.isPure = true ∧ p.2.1.isPure = true ∧
            (n.effect ⟨M.environment, .always⟩ nine).isSome ∧
            (n.effect ⟨M.environment, .never⟩ nine).isSome ∧
            (n.effect ⟨M.environment, .checked⟩ nine).isNone := by
  decide +kernel

end Sample

/-- The element is 6 if a register is used, and 0 if it is computed in its own cell. -/
theorem Codegen.reuse_agrees_iff_renamed : ∃ (c : Contract) (tokens : List Token)
    (code code' : List Instr) (s s' : State) (M M' : Machine) (mm₁ mm₂ : Memory),
    Contract.read Sample.renamed {} = .ok c ∧ tokenize "a_1 = y - a[1]" = .ok tokens ∧
    phrase tokens false 1 ⟨{}, c.layout.functions, LabelId.scrambled 0, none, none, false⟩
      (.ofLayout c.layout) = .done () code s ∧
    phrase tokens false 1 ⟨{ reuseAssignedVar := false }, c.layout.functions, LabelId.scrambled 0, none,
      none, false⟩ (.ofLayout c.layout) = .done () code' s' ∧
    M = ⟨Sample.arithmetic, s.table, code⟩ ∧ M' = ⟨Sample.arithmetic, s'.table, code'⟩ ∧
    M.Leads code none Sample.nine mm₁ ∧ M'.Leads code' none Sample.nine mm₂ ∧
    ¬ ∀ a, ¬ M.IsRegister a → mm₁ a = mm₂ a := by
  obtain ⟨c, isContract, tokens, isTokens, _, isPhrase, p, isAssigned, _, code, s, done, _, code', s', done',
    small, table, table', fixed, fixed', uncalled, isPureT, isPureV, always, never, unchecked⟩ :=
    Sample.renamed_differs
  rw [Sample.assigned?_eq_some isAssigned] at isPhrase
  obtain ⟨⟨⟨⟩, m₁⟩, always⟩ := Option.isSome_iff_exists.1 always
  obtain ⟨⟨⟨⟩, m₂⟩, never⟩ := Option.isSome_iff_exists.1 never
  have laid := Layout.ofProgram_laid c.program c.settings _ (Contract.layout_of_read isContract)
  have valid := State.ofLayout_valid laid.valid
  let M : Machine := ⟨Sample.arithmetic, s.table, code⟩
  let M' : Machine := ⟨Sample.arithmetic, s'.table, code'⟩
  have isTable : M.table = c.layout.table := table
  have isTable' : M'.table = c.layout.table := table'
  have hosts : M.Hosts s := ⟨isTable ▸ laid.valid, .refl _⟩
  have hosts' : M'.Hosts s' := ⟨isTable' ▸ laid.valid, .refl _⟩
  have obeys' : M'.Obeys ⟨M.environment, .never⟩ := by
    refine ⟨rfl, fun a allowed => ?_, fun a allowed => ?_⟩
    · have notRegister : ¬ M.IsRegister a := of_decide_eq_true allowed
      rwa [Machine.IsRegister, isTable', ← isTable]
    · have isOpen : M.Open a := of_decide_eq_true allowed
      rwa [Machine.Open, isTable', ← isTable]
  obtain ⟨mm₁, mm₂, leads, leads', -, only⟩ := Codegen.reuse_agrees_iff laid small isPhrase uncalled
    rfl rfl valid (.refl _) rfl valid (.refl _) rfl done done' hosts hosts'
    (M.obeys_rules .always) obeys' fixed fixed' always never
  refine ⟨c, tokens, code, code', s, s', M, M', mm₁, mm₂, isContract, isTokens, done, done', rfl,
    rfl, leads, leads', fun same => ?_⟩
  have defined := only isPureT isPureV same
  rw [Option.isNone_iff_eq_none.1 unchecked] at defined
  cases defined

end ContractCompiler
