import ContractCompiler.Proofs.Account
import ContractCompiler.Proofs.Reuse

/-!
# Proofs.PostStep — steps that are done after a use

A step after a use is put off: its target is evaluated for the use, and once more when the step is done.
The two evaluations give one cell unless something that the target is read from changes in between. In
the assignment of one such step the assigned variable may be a part of the target, and the cell that is
stepped is the one that the target stands for after the assignment (`Codegen.postStep_follows`).
-/

namespace ContractCompiler

set_option autoImplicit false

open Codegen (State Context)

theorem Step.apply_ne (step : Step) (w : Word) : step.apply w ≠ w := by
  cases step with
  | up => exact fun same => absurd (UInt64.add_eq_left.1 same) (by decide)
  | down =>
    intro same
    have : w - 1 + 1 = w + 1 := congrArg (· + 1) same
    rw [UInt64.sub_add_cancel] at this
    exact absurd (UInt64.add_eq_left.1 this.symm) (by decide)

/-! ## Variables as targets -/

namespace Node

variable {rules : Rules} {again : Node → Meaning.Deed} {n : Node} {x : Slot}

theorem var?_eq_some (isVar : n.var? = some x) : ∃ line, n = slot x line ∧ x.offset = none ∧
    x.literal? = none ∧ x.kind ≠ .array ∧ n.isAssignable = true := by
  cases n with
  | slot s line =>
    simp only [var?, Option.ite_none_right_eq_some, Option.some.injEq, Bool.and_eq_true] at isVar
    obtain ⟨⟨isDirect, assignable⟩, rfl⟩ := isVar
    have direct : s.offset = none := by simpa [Slot.isDirect] using isDirect
    refine ⟨line, rfl, direct, ?_, ?_, assignable⟩
    · cases kind : s.kind <;> simp_all [isAssignable, Slot.literal?, Slot.constant?]
    · intro array
      simp [isAssignable, array, direct] at assignable
  | _ => cases isVar

/-- A variable is evaluated to its own cell, and puts nothing off. -/
theorem meaning_of_var? (isVar : n.var? = some x) (rules : Rules) (again : Node → Meaning.Deed) :
    (∀ dest, (n.meaning rules again).value dest = pure (.cell x.address)) ∧
      (n.meaning rules again).pending = [] := by
  obtain ⟨line, rfl, direct, notLiteral, notArray, -⟩ := var?_eq_some isVar
  have isCell : x.leaf = .cell x.address := by simp [Slot.leaf, direct, notArray]
  have isLeaf : (slot x line).meaning rules again = .ofValue rules again [] fun _ => pure x.leaf := by
    simp only [meaning, notLiteral]
  rw [isLeaf, isCell]
  exact ⟨fun _ => rfl, rfl⟩

theorem kind_of_var? {t : SlotTable} (isVar : n.var? = some x) (bound : n.Bound t) :
    x.IsVariable t ∧ (x.kind = .long ∨ x.kind = .structRef) := by
  obtain ⟨line, rfl, direct, notLiteral, notArray, -⟩ := var?_eq_some isVar
  have isVariable : x.IsVariable t := bound.resolve_left (by simp [notLiteral])
  have isCell : x.leaf = .cell x.address := by simp [Slot.leaf, direct, notArray]
  exact ⟨isVariable, (isVariable.eq_of_leaf isCell).2⟩

end Node

namespace Codegen

variable {t : SlotTable} {ctx : Context} {tokens : List Token} {line line' : Nat} {target value : Node}
  {M : Machine} {st s : State} {code : List Instr} {m m' : Memory} {x : Slot}

/-- The code of an assignment to a variable, run on the memory that the assignment is to change. -/
theorem assignment_leads (laid : t.Laid) (small : t.Small)
    (isPhrase : (ctx.names t).phrase tokens line =
      .ok (some (.value (.assign none target value line'))))
    (isVar : target.var? = some x) (uncalled : value.hasCall = false) (valid : st.Valid)
    (interns : t.Interns st.table) (settled : st.deferred = [])
    (done : phrase tokens false line ctx st = .done () code s) (hosts : M.Hosts s) (fixed : M.Fixed m) :
    (Node.assign none target value line').Bound t ∧ t.Interns s.table ∧ M.Open x.address ∧
      ∀ m', (Node.assign none target value line').effect (M.rules ctx.settings.reuse) m =
        some ((), m') → ∃ mm, M.Leads code none m mm ∧ ∀ a, ¬ M.IsRegister a → mm a = m' a := by
  have uncalled' : (Node.assign none target value line').hasCall = false := by
    obtain ⟨_, rfl, -⟩ := Node.var?_eq_some isVar
    exact uncalled
  have bound := ((ctx.names t).phrase_bound laid small tokens line _ isPhrase _ rfl).1 uncalled'
  obtain ⟨internsS, run⟩ := assignment_ends (M.obeys_rules _) ctx.settings.reuse_ne_never isPhrase bound
    valid interns settled _ _ _ done
  obtain ⟨isVariable, kind⟩ := Node.kind_of_var? isVar bound.1
  refine ⟨bound, internsS, hosts.open_of_kind (isVariable.stored.mono internsS) kind, fun m' means => ?_⟩
  obtain ⟨mm, leads, ready⟩ := run hosts ⟨fixed, fun _ _ => rfl⟩ means
  exact ⟨mm, leads, ready.agrees⟩

end Codegen

/-! ## One step on any target -/

namespace Node

variable {e : Environment} {m : Memory} {n : Node} {c : Int}

/-- The cell that a target stands for. -/
def cell? (e : Environment) (m : Memory) : Node → Option Int
  | slot s _ => if s.literal?.isSome then none else some (s.cell m)
  | deref base _ _ => (base.value? e.arithmetic e.canRead m).map Word.toSigned
  | lookup base index _ _ => do
    let b ← base.value? e.arithmetic e.canRead m
    return Word.toSigned (b + (← index.value? e.arithmetic e.canRead m))
  | _ => none

/-- What is read and written is the cell that the target stands for. -/
theorem access_of_cell? (isCell : n.cell? e m = some c) :
    (e.canRead c = true → n.value? e.arithmetic e.canRead m = some (m c)) ∧
      (e.canWrite c = true → ∀ w, n.store? e m w = some (m.set c w)) := by
  cases n with
  | slot s _ =>
    obtain ⟨notLiteral, rfl⟩ : s.literal? = none ∧ s.cell m = c := by simpa [cell?] using isCell
    simp +contextual [value?, Slot.value?, store?, Slot.value_of_not_literal notLiteral]
  | deref base _ _ =>
    obtain ⟨b, denotes, rfl⟩ := Option.map_eq_some_iff.1 isCell
    simp +contextual [value?, store?, denotes, Memory.at?, Memory.store?]
  | lookup base index _ _ =>
    obtain ⟨b, denotesB, isCell⟩ := Option.bind_eq_some_iff.1 isCell
    obtain ⟨i, denotesI, isCell⟩ := Option.bind_eq_some_iff.1 isCell
    obtain rfl := Option.some.inj isCell
    simp +contextual [value?, store?, denotesB, denotesI, Memory.at?, Memory.store?]
  | _ => cases isCell

/-- The target is evaluated before the assignment, and once more after it. -/
theorem effect_postStep {t : SlotTable} {rules : Rules} {target : Node} {x : Slot} {step : Step}
    {c' : Int} (line line' : Nat) (isVar : target.var? = some x) (isPure : n.isPure = true)
    (bound : n.Bound t) (assignable : n.isAssignable = true) (knows : m.Knows rules t)
    (isCell : n.cell? rules.toEnvironment m = some c) (allowed : rules.canRead c = true)
    (knows' : (m.set x.address (m c)).Knows rules t)
    (isCell' : n.cell? rules.toEnvironment (m.set x.address (m c)) = some c')
    (allowed' : rules.canRead c' = true) (allowedW : rules.canWrite c' = true) :
    (assign none target (unary (.postStep step) n line) line').effect rules m =
      some ((), (m.set x.address (m c)).set c' (step.apply (m.set x.address (m c) c'))) := by
  let whole := assign none target (unary (.postStep step) n line) line'
  have isTarget := meaning_of_var? isVar rules (deedBelow rules whole.postDepth)
  obtain ⟨r, runs, value, -⟩ := (gives (deedBelow rules whole.postDepth) knows n isPure bound _
    ((access_of_cell? isCell).1 allowed)).value
  obtain ⟨r', runs', changes⟩ := change_stores (f := step.apply) (deedBelow rules n.postDepth) knows'
    isPure bound assignable ((access_of_cell? isCell').1 allowed') ((access_of_cell? isCell').2 allowedW _)
  have pending : (whole.means rules).pending = [(step, n)] :=
    congrArg₂ (· ++ (step, n) :: ·) isTarget.2 (pending_eq_nil n isPure).1
  refine Effect.bind_eq_some.2 ⟨.cell x.address, m.set x.address (m c), ?_, ?_⟩
  · exact Effect.bind_eq_some.2 ⟨.cell x.address, m, by rw [isTarget.1]; rfl, Effect.bind_eq_some.2
      ⟨r, m, runs, Effect.bind_eq_some.2 ⟨m c, m, Ref.read_eq_some.2 ⟨value, rfl⟩, rfl⟩⟩⟩
  · rw [pending]
    exact Effect.bind_eq_some.2 ⟨r', _, runs', Effect.bind_eq_some.2 ⟨(), _, changes, rfl⟩⟩

end Node

/-- A step on a target that changes nothing, whose value is assigned to a variable: the variable is
given what the cell of the target held, and then the cell is stepped that the target stands for with the
variable assigned. So the cell that was read is stepped, and nothing else is changed, if and only if the
assignment does not move the target. -/
theorem Codegen.postStep_follows {t : SlotTable} {ctx : Context} {tokens : List Token} {target n : Node}
    {step : Step} {line line₁ line₂ : Nat} {M : Machine} {st s : State} {code : List Instr}
    {m : Memory} {x : Slot} {c c' : Int} (laid : t.Laid) (small : t.Small)
    (isPhrase : (ctx.names t).phrase tokens line =
      .ok (some (.value (.assign none target (.unary (.postStep step) n line₁) line₂))))
    (isVar : target.var? = some x) (isPure : n.isPure = true) (assignable : n.isAssignable = true)
    (valid : st.Valid) (interns : t.Interns st.table) (settled : st.deferred = [])
    (done : phrase tokens false line ctx st = .done () code s) (hosts : M.Hosts s) (fixed : M.Fixed m)
    (isCell : n.cell? M.environment m = some c) (isOpen : M.Open c) (other : c ≠ x.address)
    (isCell' : n.cell? M.environment (m.set x.address (m c)) = some c') (isOpen' : M.Open c') :
    ∃ mm, M.Leads code none m mm ∧
      (∀ a, ¬ M.IsRegister a → mm a =
        (m.set x.address (m c)).set c' (step.apply (m.set x.address (m c) c')) a) ∧
      ((mm x.address = m c ∧ mm c = step.apply (m c) ∧
        ∀ a, a ≠ x.address → a ≠ c → ¬ M.IsRegister a → mm a = m a) ↔ c' = c) := by
  obtain ⟨bound, internsS, openX, run⟩ := assignment_leads laid small isPhrase isVar
    (n.hasCall_of_isPure isPure) valid interns settled done hosts fixed
  have ready : M.Ready m m := ⟨fixed, fun _ _ => rfl⟩
  obtain ⟨mm, leads, agrees⟩ := run _ (Node.effect_postStep line₁ line₂ isVar isPure bound.2 assignable
    (hosts.knows internsS fixed _) isCell (decide_eq_true isOpen.not_isRegister)
    (hosts.knows internsS (ready.set openX _).fixed _) isCell' (decide_eq_true isOpen'.not_isRegister)
    (decide_eq_true isOpen'))
  refine ⟨mm, leads, agrees, fun same => ?_, ?_⟩
  · by_contra moved
    have kept : mm c = m c := by
      rw [agrees c isOpen.not_isRegister, Memory.set_of_ne (Ne.symm moved), Memory.set_of_ne other]
    exact step.apply_ne _ (same.2.1.symm.trans kept)
  · rintro rfl
    refine ⟨?_, ?_, fun a notX notC notRegister => ?_⟩
    · rw [agrees _ openX.not_isRegister, Memory.set_of_ne other.symm, Memory.set_self]
    · rw [agrees _ isOpen.not_isRegister, Memory.set_self, Memory.set_of_ne other]
    · rw [agrees a notRegister, Memory.set_of_ne notC, Memory.set_of_ne notX]

namespace Sample

/-- An assignment is compiled without new constants, and something holds of its parts and its code. -/
abbrev Assigns (source text : String) (holds : Node → Node → Machine → Bool) : Prop :=
  (Contract.read source {}).Succeeds fun c => (tokenize text).Succeeds fun tokens =>
    (((context c).names c.layout.table).phrase tokens 1).Succeeds fun found => ∃ p ∈ assigned? found,
      (Codegen.phrase tokens false 1).Succeeds (context c) (.ofLayout c.layout) fun _ code s =>
        c.layout.table.Small ∧ s.table = c.layout.table ∧ holds p.1 p.2.1 ⟨arithmetic, s.table, code⟩ = true

theorem Assigns.parts {source text : String} {holds : Node → Node → Machine → Bool}
    (assigns : Assigns source text holds) :
    ∃ (c : Contract) (tokens : List Token) (target value : Node) (line : Nat) (code : List Instr)
      (s : State), Contract.read source {} = .ok c ∧ tokenize text = .ok tokens ∧
      ((context c).names c.layout.table).phrase tokens 1 =
        .ok (some (.value (.assign none target value line))) ∧
      Codegen.phrase tokens false 1 (context c) (.ofLayout c.layout) = .done () code s ∧
      c.layout.table.Laid ∧ c.layout.table.Small ∧ (State.ofLayout c.layout).Valid ∧
      (⟨Sample.arithmetic, s.table, code⟩ : Machine).Hosts s ∧
      holds target value ⟨Sample.arithmetic, s.table, code⟩ = true := by
  obtain ⟨c, isContract, tokens, isTokens, _, isPhrase, p, isAssigned, _, code, s, done, small, table,
    holds⟩ := assigns
  rw [assigned?_eq_some isAssigned] at isPhrase
  have laid := Layout.ofProgram_laid c.program c.settings _ (Contract.layout_of_read isContract)
  have isTable : (⟨Sample.arithmetic, s.table, code⟩ : Machine).table = c.layout.table := table
  exact ⟨c, tokens, p.1, p.2.1, p.2.2, code, s, isContract, isTokens, isPhrase, done, laid, small,
    State.ofLayout_valid laid.valid, ⟨isTable ▸ laid.valid, .refl _⟩, holds⟩

def moving : String := "long a[4], x; void main(void) \x7b x = a[x]++; \x7d"

/-- The array is the address of its first element, `a[1]` is 2, `a[2]` is 7 and `x` is 1. -/
def seven : Memory := fun a => [0, 0, 0, 4, 0, 2, 7, 0, 1].getD a.toNat 0

def movingHolds (target value : Node) (M : Machine) : Bool :=
  match value with
  | .unary (.postStep .up) n _ =>
    (target.var?.map (·.address) == some 8) && n.isPure && n.isAssignable &&
    decide (M.Fixed seven ∧ n.cell? M.environment seven = some 5 ∧ M.Open 5 ∧
      n.cell? M.environment (seven.set 8 2) = some 6 ∧ M.Open 6 ∧ M.Open 8)
  | _ => false

theorem assigns_moving : Assigns moving "x = a[x]++" movingHolds := by decide +kernel

end Sample

/-- With `x` assigned, `a[x]` is the element after the one that was read. -/
theorem Codegen.postStep_follows_moving : ∃ (c : Contract) (tokens : List Token) (code : List Instr)
    (s : State) (mm : Memory), Contract.read Sample.moving {} = .ok c ∧
    tokenize "x = a[x]++" = .ok tokens ∧
    phrase tokens false 1 (Sample.context c) (.ofLayout c.layout) = .done () code s ∧
    (⟨Sample.arithmetic, s.table, code⟩ : Machine).Leads code none Sample.seven mm ∧
    mm 8 = 2 ∧ mm 5 = 2 ∧ mm 6 = 8 := by
  obtain ⟨c, tokens, target, value, line, code, s, isContract, isTokens, isPhrase, done, laid, small,
    valid, hosts, holds⟩ := Sample.assigns_moving.parts
  unfold Sample.movingHolds at holds
  split at holds
  · simp only [Bool.and_eq_true, decide_eq_true_eq, beq_iff_eq, Option.map_eq_some_iff] at holds
    obtain ⟨⟨⟨⟨x, isVar, isX⟩, isPure⟩, assignable⟩, fixed, isCell, isOpen, isCell', isOpen', openX⟩ :=
      holds
    obtain ⟨mm, leads, agrees, -⟩ := Codegen.postStep_follows laid small isPhrase isVar isPure assignable
      valid (.refl _) rfl done hosts fixed isCell isOpen (by simp [isX]) (by rw [isX]; exact isCell') isOpen'
    rw [isX] at agrees
    exact ⟨c, tokens, code, s, mm, isContract, isTokens, done, leads, agrees 8 openX.not_isRegister,
      agrees 5 isOpen.not_isRegister, agrees 6 isOpen'.not_isRegister⟩
  · cases holds

end ContractCompiler
