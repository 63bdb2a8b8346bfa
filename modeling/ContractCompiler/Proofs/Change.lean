import ContractCompiler.Proofs.Statement

/-!
# Proofs.Change — what assignments and steps mean is what they do

The effect of an assignment or a step whose parts change nothing is one store (`Node.effect_eq`).
An assigned variable that serves as the place to compute the value in makes no difference if the value
is read from variables alone (`Node.isDirect`): what is read after the first write is not the variable.
-/

namespace ContractCompiler

set_option autoImplicit false

variable {rules : Rules} {again : Node → Meaning.Deed} {t : SlotTable} {m m' : Memory} {w : Word}

/-- A value is computed in the variable that it is assigned to only if the right operand does not
mention the variable. -/
theorem Meaning.early_eq_some {right? : Option Node} {hasCall : Bool} {r : Ref} {a : Int}
    (isEarly : early rules right? hasCall r = some a) :
    rules.reuse ≠ .never ∧ r = .cell a ∧ ∃ right, right? = some right ∧ right.mentions a = false := by
  unfold early at isEarly
  split at isEarly
  · cases isEarly
  · rename_i notNever
    obtain ⟨⟨notMentions, -⟩, rfl⟩ := by simpa using isEarly
    exact ⟨notNever, rfl, _, rfl, notMentions⟩
  · cases isEarly

/-! ## Targets -/

/-- A write to the cell at a distance from an address. -/
theorem Source.write?_through (rules : Rules) {source : Source} (read : source.read m = w)
    (anchored : ∀ a first, source = .array a first → first = w) (distance v : Word) :
    (source.through distance).write? rules m v = m.store? rules.canWrite (w + distance) v := by
  cases source with
  | array a first =>
    obtain rfl := anchored a first rfl
    rfl
  | word _ =>
    subst read
    rfl
  | cell _ =>
    subst read
    rfl

/-- A write to a variable or a view of one. -/
theorem Slot.IsVariable.write {s : Slot} (isVariable : s.IsVariable t) (knows : m.Knows rules t)
    (direct : s.kind = .array → s.offset.isSome = true)
    (stores : (if s.isView && !rules.canWrite (s.cell m) then none
      else some (m.set (s.cell m) w)) = some m') : s.leaf.write? rules m w = some m' := by
  rcases s.shape with offset | ⟨distance, offset, array⟩ | isView
  · have notArray : s.kind ≠ .array := fun array => by simpa [offset] using direct array
    have notView : s.isView = false := by simp [isView, offset]
    rw [cell_direct offset] at stores
    simpa [leaf, offset, notArray, Ref.write?, notView] using stores
  · obtain ⟨e, mem, long, same⟩ := isVariable.element distance offset array
    have allowed := (knows.elements e mem long).2
    rw [same] at allowed
    have notView : s.isView = false := by simp [isView, offset, array]
    rw [cell_element offset array] at stores
    simpa [leaf, offset, array, Source.through, Ref.write?, allowed, notView] using stores
  · obtain ⟨base, distance, isLeaf, address⟩ := leaf_of_isView isView m
    obtain ⟨allowed, rfl⟩ : rules.canWrite (s.cell m) = true ∧ m.set (s.cell m) w = m' := by
      simpa [isView] using stores
    rw [isLeaf, Ref.write?, address, if_pos allowed]

namespace Node

/-- A target is evaluated to a reference to the cell that it stands for. -/
theorem stores (again : Node → Meaning.Deed) (knows : m.Knows rules t) (n : Node) (isPure : n.isPure = true)
    (bound : n.Bound t) (assignable : n.isAssignable = true)
    (stores : n.store? rules.toEnvironment m w = some m') :
    ∃ r, (n.meaning rules again).value none m = some (r, m) ∧ r.write? rules m w = some m' := by
  cases n with
  | slot s line =>
    have notConstant : s.kind ≠ .constant := by
      rintro constant
      simp [isAssignable, constant] at assignable
    have notLiteral : s.literal? = none := by simp [Slot.literal?, Slot.constant?, notConstant]
    have isVariable := bound.resolve_left (by simp [notLiteral])
    refine ⟨s.leaf, by simp only [meaning, notLiteral]; rfl, isVariable.write knows ?_ stores⟩
    intro array
    simpa [isAssignable, array] using assignable
  | deref base type line =>
    obtain ⟨b, denotes, stores⟩ := Option.bind_eq_some_iff.1 stores
    obtain ⟨r, source, runs, settles, read, anchored⟩ :=
      (gives again knows base isPure bound b denotes).settle
    refine ⟨source.through 0, ?_, ?_⟩
    · exact Effect.bind_eq_some.2 ⟨r, m, runs, Effect.bind_eq_some.2 ⟨source, m, settles, rfl⟩⟩
    · rw [Source.write?_through rules read anchored]
      simpa using stores
  | lookup base index type line =>
    obtain ⟨isPureB, isPureI⟩ := Bool.and_eq_true_iff.1 isPure
    obtain ⟨b, denotesB, stores⟩ := Option.bind_eq_some_iff.1 stores
    obtain ⟨i, denotesI, stores⟩ := Option.bind_eq_some_iff.1 stores
    obtain ⟨r, source, runs, settles, read, anchored⟩ :=
      (gives again knows base isPureB bound.1 b denotesB).settle
    have isLookup : ((lookup base index type line).meaning rules again).value none =
        Meaning.lookup rules ((base.meaning rules again).value none) index.literal?
          ((index.meaning rules again).value none) := by
      rw [meaning]
      rfl
    rw [isLookup]
    cases fixed : index.literal? with
    | some distance =>
      obtain rfl := value?_of_literal? fixed denotesI
      refine ⟨source.through distance, ?_, ?_⟩
      · exact Effect.bind_eq_some.2 ⟨r, m, runs, Effect.bind_eq_some.2 ⟨source, m, settles, rfl⟩⟩
      · rw [Source.write?_through rules read anchored]
        exact stores
    | none =>
      obtain ⟨r', source', runs', settles', read', -⟩ :=
        (gives again knows index isPureI bound.2 i denotesI).settle
      refine ⟨.view source source'.plain, ?_, ?_⟩
      · exact Effect.bind_eq_some.2 ⟨r, m, runs, Effect.bind_eq_some.2 ⟨source, m, settles,
          Effect.bind_eq_some.2 ⟨r', m, runs', Effect.bind_eq_some.2 ⟨source', m, settles', rfl⟩⟩⟩⟩
      · rw [Ref.write?, Ref.address, Source.read_plain, read, read']
        exact stores
  | _ => cases stores

/-! ## Assigned variables that values are computed in -/

/-- Every cell that is read is that of a variable: no element, no view and nothing at an address that
is computed. -/
def isDirect : Node → Bool
  | slot s _ => s.isDirect
  | deref _ _ _ => false
  | lookup _ _ _ _ => false
  | assign _ target value _ => target.isDirect && value.isDirect
  | binary _ left right _ => left.isDirect && right.isDirect
  | unary _ operand _ => operand.isDirect
  | compare _ left right _ => left.isDirect && right.isDirect
  | logic _ left right _ => left.isDirect && right.isDirect
  | ternary condition yes no _ => condition.isDirect && yes.isDirect && no.isDirect
  | call _ _ _ _ => false
  | host _ _ _ => false

theorem value_binary (op : BinaryOp) (left right : Node) (line : Nat) (dest : Option Int) :
    ((binary op left right line).meaning rules again).value dest =
      Meaning.binary rules op ((left.meaning rules again).value none)
        ((right.meaning rules again).value none) dest := by
  rw [meaning]
  rfl

/-- A value that is read from variables alone stays the same when a variable changes that it does not
mention. -/
theorem value?_set {n : Node} {a : Int} {r : Ref} (isPure : n.isPure = true)
    (isDirect : n.isDirect = true) (notMentions : n.mentions a = false)
    (runs : (n.meaning rules again).value none m = some (r, m')) (x : Word) (mm : Memory) :
    r.value? rules (mm.set a x) = r.value? rules mm := by
  have ofTemp : ∀ v, Ref.temp v = r → r.value? rules (mm.set a x) = r.value? rules mm := by
    rintro v rfl
    rfl
  cases n with
  | slot s line =>
    obtain ⟨elsewhere, -⟩ : s.address ≠ a ∧ _ := by simpa [mentions] using notMentions
    have direct : s.offset = none := by simpa [Node.isDirect, Slot.isDirect] using isDirect
    cases isLiteral : s.literal? with
    | some v =>
      simp only [meaning, isLiteral] at runs
      obtain ⟨rfl, -⟩ := Effect.pure_eq_some.1 runs
      rfl
    | none =>
      simp only [meaning, isLiteral] at runs
      obtain ⟨rfl, -⟩ := Effect.pure_eq_some.1 runs
      unfold Slot.leaf
      rw [direct]
      dsimp only
      split <;> simp [Ref.value?, Memory.set_of_ne elsewhere]
  | binary op left right line =>
    rw [value_binary] at runs
    obtain ⟨_, _, _, _, _, -, -, -, ⟨-, done⟩ | ⟨_, ⟨⟩, -⟩⟩ := Meaning.binary_eq_some.1 runs
    obtain ⟨_, -, rfl, -⟩ := Meaning.inRegister_eq_some.1 done
    rfl
  | unary op operand line =>
    cases op with
    | preStep _ => cases isPure
    | postStep _ => cases isPure
    | negate | complement =>
      obtain ⟨_, _, -, done⟩ := Effect.bind_eq_some.1 runs
      obtain ⟨_, _, -, done⟩ := Effect.bind_eq_some.1 done
      exact ofTemp _ (Effect.pure_eq_some.1 done).1
    | not =>
      obtain ⟨_, _, -, done⟩ := Effect.bind_eq_some.1 runs
      exact ofTemp _ (Effect.pure_eq_some.1 done).1
  | compare relation left right line =>
    obtain ⟨_, _, -, done⟩ := Effect.bind_eq_some.1 runs
    exact ofTemp _ (Effect.pure_eq_some.1 done).1
  | logic connective left right line =>
    cases connective <;>
    · obtain ⟨_, _, -, done⟩ := Effect.bind_eq_some.1 runs
      exact ofTemp _ (Effect.pure_eq_some.1 done).1
  | ternary condition yes no line =>
    obtain ⟨truth, _, -, done⟩ := Effect.bind_eq_some.1 runs
    cases truth <;>
    · obtain ⟨_, _, -, done⟩ := Effect.bind_eq_some.1 done
      exact ofTemp _ (Effect.pure_eq_some.1 done).1
  | deref _ _ _ => cases isDirect
  | lookup _ _ _ _ => cases isDirect
  | assign _ _ _ _ => cases isPure
  | call _ _ _ _ => cases isPure
  | host _ _ _ => cases isPure

/-- A value that is computed in the variable that it is assigned to. -/
theorem value_early {n right : Node} {a : Int} (again : Node → Meaning.Deed) (knows : m.Knows rules t)
    (isPure : n.isPure = true) (bound : n.Bound t) (isDirect : n.isDirect = true) (notChecked : rules.reuse ≠ .checked)
    (isRight : n.right? = some right) (notMentions : right.mentions a = false)
    (denotes : n.value? rules.arithmetic rules.canRead m = some w) :
    ∃ r m₁, (n.meaning rules again).value (some a) m = some (r, m₁) ∧ r.value? rules m₁ = some w ∧
      m₁.set a w = m.set a w := by
  cases n with
  | binary op left right line =>
    obtain rfl := Option.some.inj isRight
    obtain ⟨isPureL, isPureR⟩ := Bool.and_eq_true_iff.1 isPure
    obtain ⟨-, isDirectR⟩ := Bool.and_eq_true_iff.1 isDirect
    obtain ⟨x, denotesL, denotes⟩ := Option.bind_eq_some_iff.1 denotes
    obtain ⟨y, denotesR, result⟩ := Option.bind_eq_some_iff.1 denotes
    obtain rfl := Option.some.inj result
    obtain ⟨l, runsL, valueL, -⟩ := (gives again knows left isPureL bound.1 x denotesL).value
    obtain ⟨r, runsR, valueR, -⟩ := (gives again knows right isPureR bound.2 y denotesR).value
    rw [value_binary]
    cases temp : Meaning.anyTemp op l r with
    | true =>
      exact ⟨_, m, Meaning.binary_eq_some.2 ⟨l, m, r, m, x, runsL, runsR, valueL, .inl ⟨.inr temp,
        Meaning.inRegister_eq_some.2 ⟨y, valueR, rfl, rfl⟩⟩⟩, rfl, rfl⟩
    | false =>
      have valueR' : r.value? rules (m.set a x) = some y :=
        (value?_set isPureR isDirectR notMentions runsR x m).trans valueR
      exact ⟨.cell a, _, Meaning.binary_eq_some.2 ⟨l, m, r, m, x, runsL, runsR, valueL, .inr ⟨a, rfl,
        temp, Meaning.inVariable_eq_some.2 ⟨fun checked => absurd checked notChecked, y, valueR', rfl,
          rfl⟩⟩⟩, by simp [Ref.value?], by simp⟩
  | _ => cases isRight

/-! ## Phrases -/

section

variable {target value : Node} (again : Node → Meaning.Deed) (knows : m.Knows rules t)
  (isPureT : target.isPure = true) (boundT : target.Bound t) (assignable : target.isAssignable = true)
  (isPureV : value.isPure = true) (boundV : value.Bound t)
  (denotes : value.value? rules.arithmetic rules.canRead m = some w)
  (stores : target.store? rules.toEnvironment m w = some m')
include knows isPureT boundT assignable isPureV boundV denotes stores

/-- A plain assignment stores the value, if this is not computed in the target. -/
theorem assign_stores_late (late : ∀ r, (target.meaning rules again).value none m = some (r, m) →
      Meaning.early rules value.right? value.hasCall r = none) :
    ∃ r, Meaning.assign rules ((target.meaning rules again).value none)
      (value.meaning rules again).value value.right? value.hasCall m = some (r, m') := by
  obtain ⟨r, runsT, write⟩ := target.stores again knows isPureT boundT assignable stores
  obtain ⟨v, runsV, valueV, -⟩ := (gives again knows value isPureV boundV w denotes).value
  exact ⟨r, Meaning.assign_eq_some.2 ⟨m, v, m, w, runsT, late r runsT ▸ runsV, valueV, write⟩⟩

/-- A plain assignment stores the value. -/
theorem assign_stores (reuse : rules.reuse = .never ∨ rules.reuse = .always ∧ value.isDirect = true) :
    ∃ r, Meaning.assign rules ((target.meaning rules again).value none)
      (value.meaning rules again).value value.right? value.hasCall m = some (r, m') := by
  obtain ⟨r, runsT, write⟩ := target.stores again knows isPureT boundT assignable stores
  cases early : Meaning.early rules value.right? value.hasCall r with
  | none =>
    refine assign_stores_late again knows isPureT boundT assignable isPureV boundV denotes stores ?_
    intro r' runs'
    obtain rfl : r = r' := congrArg Prod.fst (Option.some.inj (runsT.symm.trans runs'))
    exact early
  | some a =>
    -- the target is a variable that the right operand does not mention
    obtain ⟨notNever, rfl, right, isRight, notMentions⟩ := Meaning.early_eq_some early
    obtain ⟨reuse, isDirect⟩ := reuse.resolve_left notNever
    obtain ⟨v, m₁, runsV, valueV, same⟩ := value_early again knows isPureV boundV isDirect
      (by simp [reuse]) isRight notMentions denotes
    obtain rfl : m.set a w = m' := Option.some.inj write
    exact ⟨.cell a, Meaning.assign_eq_some.2 ⟨m, v, m₁, w, runsT, early ▸ runsV, valueV, congrArg some same⟩⟩

end

/-- What is read and stored by one operation on a target. -/
theorem change_stores {target : Node} {f : Word → Word} {x : Word} (again : Node → Meaning.Deed)
    (knows : m.Knows rules t)
    (isPure : target.isPure = true) (bound : target.Bound t) (assignable : target.isAssignable = true)
    (denotes : target.value? rules.arithmetic rules.canRead m = some x)
    (stores : target.store? rules.toEnvironment m (f x) = some m') :
    ∃ r, (target.meaning rules again).value none m = some (r, m) ∧
      Meaning.change rules f r m = some ((), m') := by
  obtain ⟨r, runs, write⟩ := target.stores again knows isPure bound assignable stores
  obtain ⟨r', runs', value, -⟩ := (gives again knows target isPure bound x denotes).value
  obtain rfl : r = r' := congrArg Prod.fst (Option.some.inj (runs.symm.trans runs'))
  exact ⟨r, runs, Effect.bind_eq_some.2
    ⟨x, m, Ref.read_eq_some.2 ⟨value, rfl⟩, Ref.write_eq_some.2 write⟩⟩

end Node

/-! ## Changes -/

namespace Change

/-- The parts of a change are bound, change nothing themselves, and the target can be assigned to. -/
def Bound (t : SlotTable) : Change → Prop
  | nothing => True
  | assign _ target value => target.Bound t ∧ target.isPure = true ∧ target.isAssignable = true ∧
      value.Bound t ∧ value.isPure = true
  | step _ target => target.Bound t ∧ target.isPure = true ∧ target.isAssignable = true

/-- An assigned value is read from variables alone. -/
def isDirect : Change → Bool
  | assign _ _ value => value.isDirect
  | _ => true

end Change

/-- All assigned values are read from variables alone. -/
def Statement.isDirect : Statement → Bool
  | change c => c.isDirect
  | leave _ => true
  | seq first second => first.isDirect && second.isDirect
  | choose _ yes no => yes.isDirect && no.isDirect
  | whileLoop _ body => body.isDirect
  | doLoop body _ => body.isDirect
  | forLoop init _ step body => init.isDirect && step.isDirect && body.isDirect

/-- The phrase that an expression is does what the change does that it is. -/
theorem Node.effect_eq {n : Node} {c : Change} (knows : m.Knows rules t)
    (isChange : (Command.value n).change? = some c) (bound : c.Bound t)
    (reuse : rules.reuse = .never ∨ rules.reuse = .always ∧ c.isDirect = true)
    (applies : c.after? rules.toEnvironment m = some m') : n.effect rules m = some ((), m') := by
  have ofValue : ∀ r, (n.means rules).value none m = some (r, m') → (n.means rules).pending = [] →
      n.effect rules m = some ((), m') := by
    intro r runs none
    exact Effect.bind_eq_some.2 ⟨r, m', runs, by rw [none]; rfl⟩
  cases Command.isChange isChange with
  | @assign target value op line isPureT isPureV =>
    obtain ⟨boundT, -, assignable, boundV, -⟩ := bound
    obtain ⟨w, denotes, stores⟩ := Option.bind_eq_some_iff.1 applies
    have none : ((assign op target value line).means rules).pending = [] := by
      cases op <;>
      · rw [means, meaning]
        show _ ++ _ = []
        rw [(pending_eq_nil target isPureT).1, (pending_eq_nil value isPureV).1]
        rfl
    cases op with
    | none =>
      obtain ⟨r, runs⟩ := Node.assign_stores _ knows isPureT boundT assignable isPureV
        boundV denotes stores reuse
      exact ofValue r runs none
    | some op =>
      obtain ⟨x, denotesT, stores⟩ := Option.bind_eq_some_iff.1 stores
      obtain ⟨r, runs, changes⟩ := Node.change_stores _
        (f := (op.apply rules.arithmetic · w)) knows isPureT boundT assignable denotesT stores
      obtain ⟨v, runsV, valueV, -⟩ := (gives _ knows value isPureV boundV w denotes).value
      refine ofValue r (Effect.bind_eq_some.2 ⟨r, m, runs, Effect.bind_eq_some.2 ⟨v, m, runsV,
        Effect.bind_eq_some.2 ⟨w, m, Ref.read_eq_some.2 ⟨valueV, rfl⟩,
          Effect.bind_eq_some.2 ⟨(), m', changes, rfl⟩⟩⟩⟩) none
  | @preStep target s line isPure =>
    obtain ⟨x, denotes, stores⟩ := Option.bind_eq_some_iff.1 applies
    obtain ⟨r, runs, changes⟩ := Node.change_stores _ knows isPure bound.1 bound.2.2 denotes stores
    exact ofValue r (Effect.bind_eq_some.2 ⟨r, m, runs,
      Effect.bind_eq_some.2 ⟨(), m', changes, rfl⟩⟩) (pending_eq_nil target isPure).1
  | @postStep target s line isPure =>
    obtain ⟨x, denotes, stores⟩ := Option.bind_eq_some_iff.1 applies
    obtain ⟨r, runs, -⟩ := Node.change_stores _ knows isPure bound.1 bound.2.2 denotes stores
    obtain ⟨r', runs', changes⟩ := Node.change_stores _ knows isPure bound.1 bound.2.2 denotes stores
    have pending : ((unary (.postStep s) target line).means rules).pending = [(s, target)] := by
      rw [means, meaning]
      exact congrArg (_ :: ·) (pending_eq_nil target isPure).1
    refine Effect.bind_eq_some.2 ⟨r, m, runs, ?_⟩
    rw [pending]
    exact Effect.bind_eq_some.2 ⟨r', m, runs', Effect.bind_eq_some.2 ⟨(), m', changes, rfl⟩⟩

end ContractCompiler
