import ContractCompiler.Node.Bind
import ContractCompiler.Proofs.Outcome
import ContractCompiler.Proofs.Word
import Mathlib.Data.List.Forall2

/-!
# Proofs.Bind.Relate — what binding keeps of an expression

A relation between expressions and nodes holds of every expression and what it is bound to, if it is
kept by the ways to make a node (`Names.Relates`, `Expr.bind_relates`). What is refused is refused at a line
of the expression. One such relation is that binding does not nest steps after a use deeper than they are
written (`Names.phrase_postDepth`).
-/

namespace ContractCompiler

set_option autoImplicit false

open Outcome (Ensures)

variable {inside : Nat → Prop} {strict : Prop}

/-! ## Lines of expressions -/

namespace Expr

variable (inside) in
mutual

/-- All the lines of an operator tree are lines of the source. -/
def Within : Expr → Prop
  | name _ line => inside line
  | number _ line => inside line
  | call _ line args => inside line ∧ AllWithin args
  | index line base position => inside line ∧ base.Within ∧ position.Within
  | member line _ base _ => inside line ∧ base.Within
  | prefixed _ line operand => inside line ∧ operand.Within
  | stepped _ line operand => inside line ∧ operand.Within
  | infixed _ line left right => inside line ∧ left.Within ∧ right.Within
  | ternary line condition yes no => inside line ∧ condition.Within ∧ yes.Within ∧ no.Within

def AllWithin : List Expr → Prop
  | [] => True
  | e :: rest => e.Within ∧ AllWithin rest

end

theorem Within.line {e : Expr} (within : e.Within inside) : inside e.line := by
  cases e with
  | name _ _ | number _ _ => exact within
  | _ => exact within.1

theorem Within.name? {e : Expr} (within : e.Within inside) {n : String} {line : Nat}
    (isName : e.name? = some (n, line)) : inside line := by
  cases e with
  | name _ _ =>
    cases isName
    exact within
  | _ => cases isName

mutual

theorem within_true : (e : Expr) → e.Within fun _ => True
  | name _ _ => trivial
  | number _ _ => trivial
  | call _ _ args => ⟨trivial, allWithin_true args⟩
  | index _ base position => ⟨trivial, base.within_true, position.within_true⟩
  | member _ _ base _ => ⟨trivial, base.within_true⟩
  | prefixed _ _ operand => ⟨trivial, operand.within_true⟩
  | stepped _ _ operand => ⟨trivial, operand.within_true⟩
  | infixed _ _ left right => ⟨trivial, left.within_true, right.within_true⟩
  | ternary _ condition yes no => ⟨trivial, condition.within_true, yes.within_true, no.within_true⟩

theorem allWithin_true : (es : List Expr) → AllWithin (fun _ => True) es
  | [] => trivial
  | e :: rest => ⟨e.within_true, allWithin_true rest⟩

end

end Expr

/-! ## Names -/

/-- What is found under a name is a variable of the table. -/
theorem SlotTable.lookup?_mem {t : SlotTable} {s : Slot} {name : String} {function : Option String}
    (found : t.lookup? name function = some s) : s ∈ t.slots ∧ s.kind ≠ .register := by
  have inScope : ∀ scope, t.inScope? name scope = some s → s ∈ t.slots ∧ s.kind ≠ .register := by
    intro scope found
    have holds := List.find?_some found
    simp only [Bool.and_eq_true, bne_iff_ne] at holds
    exact ⟨List.mem_of_find?_eq_some found, holds.1.2⟩
  rcases Option.or_eq_some_iff.1 found with here | ⟨-, outside⟩
  · obtain ⟨scope, -, found⟩ := Option.bind_eq_some_iff.1 here
    exact inScope scope found
  · exact inScope _ outside

theorem Member.find?_mem {name : String} {members : List Member} {found : Nat × ValueType}
    (isMember : Member.find? name members = some found) : ∃ m ∈ members, m.name = name := by
  induction members generalizing found with
  | nil => cases isMember
  | cons m rest ih =>
    rw [Member.find?] at isMember
    split at isMember
    · exact ⟨m, List.mem_cons_self, ‹_›⟩
    · obtain ⟨inner, found, -⟩ := Option.map_eq_some_iff.1 isMember
      obtain ⟨m', listed, same⟩ := ih found
      exact ⟨m', List.mem_cons_of_mem _ listed, same⟩

namespace Names

variable {names : Names} {line : Nat} (atLine : inside line)

/-- What is called by a name with that many arguments. -/
def Calls (names : Names) (function : String) (count : Nat) : Signature ⊕ HostCall → Prop
  | .inl f => Signature.find? names.functions function = some f ∧ f.params.length = count
  | .inr c => HostCall.find? function = some c ∧ c.arity = count

theorem memberSlot_isSlot (names : Names) (name : String) (nameLine : Nat) (field : String) (line : Nat) :
    Ensures (names.memberSlot name nameLine field line) fun n => ∃ s, n = .slot s line := by
  refine .bind fun s _ => ?_
  dsimp only
  split
  · refine .guard fun _ => .bind fun _ _ => ?_
    split
    · exact .ok ⟨_, rfl⟩
    · exact .error
  · exact .error

include atLine

theorem resolveVariable_within (name : String) :
    Outcome.Within inside strict (names.resolveVariable name line) fun s =>
      s ∈ names.table.slots ∧ s.kind ≠ .register := by
  unfold resolveVariable
  split
  · rename_i found
    exact .ok (SlotTable.lookup?_mem found)
  · exact .error atLine rfl

theorem memberOf_within (tag field : String) :
    Outcome.Within inside strict (names.memberOf tag field line) fun _ => ∃ members m,
      names.table.members? tag = some members ∧ m ∈ members ∧ m.name = field := by
  unfold memberOf
  split
  · rename_i found
    obtain ⟨members, known, found⟩ := Option.bind_eq_some_iff.1 found
    obtain ⟨m, listed, same⟩ := Member.find?_mem found
    exact .ok ⟨members, m, known, listed, same⟩
  · exact .error atLine rfl

theorem checkedCallee_within (function : String) (count : Nat) :
    Outcome.Within inside strict (names.checkedCallee function count line) (names.Calls function count) := by
  unfold checkedCallee callee
  split
  · rename_i f _ found
    exact .bind (.guard atLine rfl fun same => .ok ⟨found, (Decidable.not_not.1 same).symm⟩)
  · rename_i c _ found
    exact .bind (.guard atLine rfl fun same => .ok ⟨found, (Decidable.not_not.1 same).symm⟩)
  · exact .bind (.error atLine rfl)

end Names

theorem Slot.literal?_literal (value : Word) : (Slot.literal value).literal? = some value := by
  simp [literal, fresh, literal?, constant?]

namespace Node

theorem literal?_literal (value : Word) (line : Nat) : (literal value line).literal? = some value :=
  Slot.literal?_literal value

/-- Only a plain variable is viewed through an offset. -/
theorem base?_eq {base : Node} {line : Nat} {s : Slot} (viewed : base.base? line = .ok (some s)) :
    ∃ line', base = slot s line' ∧ s.literal? = none ∧ s.offset = none := by
  unfold base? at viewed
  split at viewed
  · split at viewed
    · rename_i direct
      split at viewed
      · cases viewed
      · cases viewed
        simp only [Bool.and_eq_true, bne_iff_ne] at direct
        exact ⟨_, rfl, by simp [Slot.literal?, direct.2], by simpa [Slot.isDirect] using direct.1⟩
    · split at viewed <;> cases viewed
  · cases viewed

variable {line : Nat} (atLine : inside line)
include atLine

theorem base?_within (base : Node) : Outcome.Within inside strict (base.base? line) fun _ => True := by
  unfold base?
  split
  · split
    · split
      · exact .error atLine rfl
      · exact .ok trivial
    · split
      · exact .error atLine rfl
      · exact .ok trivial
  · exact .ok trivial

theorem assignable_within (n : Node) (operator : String) :
    Outcome.Within inside strict (n.assignable operator line) fun n' => n' = n ∧ n.isAssignable = true :=
  .test (fun assignable => ⟨rfl, assignable⟩) atLine rfl

theorem slotOf_within (n : Node) : Outcome.Within inside strict (n.slotOf line) fun _ => True := by
  unfold slotOf
  split
  · exact .ok trivial
  · exact .error atLine rfl

end Node

theorem Token.literal_within {t : Token} (atLine : inside t.line) :
    Outcome.Within inside strict t.literal fun _ => True := by
  unfold literal
  split
  · exact .ok trivial
  · exact .error atLine rfl

/-! ## Binding -/

/-- A relation that is kept by every way to bind an expression at lines of the source. -/
structure Names.Relates (names : Names) (inside : Nat → Prop) (strict : Prop) (R : Expr → Node → Prop) :
    Prop where
  stored : ∀ e s {line}, inside line → s ∈ names.table.slots → s.kind ≠ .register → s.kind ≠ .struct →
    R e (.slot s line)
  member : ∀ e name field {nameLine line}, inside nameLine → inside line →
    Outcome.Within inside strict (names.memberSlot name nameLine field line) (R e)
  literal : ∀ e value {line}, inside line → R e (.literal value line)
  view : ∀ e {base n s offset} type {line}, inside line → R base n → n.base? line = .ok (some s) →
    (∀ index, offset = .fixed index → s.kind = .array → index.toNat < s.size) →
    (∀ a, offset = .dynamic a → ∃ index n', R index n' ∧ n'.offset? = some offset) →
    R e (.slot (s.withOffset offset type) line)
  deref : ∀ {base n} type {line}, inside line → R base n → n.base? line = .ok none →
    R (.prefixed .deref line base) (.deref n type line)
  lookup : ∀ {base index n n' viewed} type {line}, inside line → R base n → R index n' →
    n.base? line = .ok viewed → (viewed = none ∨ n'.offset? = none) →
    R (.index line base index) (.lookup n n' type line)
  arrow : ∀ {base n} field value type {line}, inside line → R base n → n.base? line = .ok none →
    R (.member line true base field) (.lookup n (.literal value line) type line)
  prefixed : ∀ {operand n} op op' {line}, inside line → (∀ step, op' ≠ .postStep step) →
    (∀ step, op' = .preStep step → n.isAssignable = true) → R operand n →
    R (.prefixed op line operand) (.unary op' n line)
  stepped : ∀ {operand n} step {line}, inside line → n.isAssignable = true → R operand n →
    R (.stepped step line operand) (.unary (.postStep step) n line)
  assign : ∀ {left right n n'} op {line}, inside line → n.isAssignable = true → R left n → R right n' →
    R (.infixed (.assign op) line left right) (.assign op n n' line)
  binary : ∀ {left right n n'} op {line}, inside line → R left n → R right n' →
    R (.infixed (.arith op) line left right) (.binary op n n' line)
  compare : ∀ {left right n n'} relation {line}, inside line → R left n → R right n' →
    R (.infixed (.compare relation) line left right) (.compare relation n n' line)
  logic : ∀ {left right n n'} connective {line}, inside line → R left n → R right n' →
    R (.infixed (.logic connective) line left right) (.logic connective n n' line)
  ternary : ∀ {condition yes no n n' n'' line}, inside line → R condition n → R yes n' → R no n'' →
    R (.ternary line condition yes no) (.ternary n n' n'' line)
  call : ∀ {args ns function callee line}, inside line → names.Calls function args.length callee →
    List.Forall₂ R args ns → R (.call function line args) (Node.ofCall callee ns line)

namespace Names.Relates

variable {names : Names} {R : Expr → Node → Prop} (rules : names.Relates inside strict R) {line : Nat}
  (atLine : inside line)
include rules atLine

theorem valueOf (e : Expr) (name : String) :
    Outcome.Within inside strict (names.valueOf name line) (R e) := by
  refine .bind ((resolveVariable_within atLine name).mono fun s ⟨stored, notRegister⟩ => ?_)
  exact .guard atLine rfl fun notStruct => .ok (rules.stored e s atLine stored notRegister notStruct)

theorem addressLiteral (e : Expr) (s : Slot) :
    Outcome.Within inside strict (names.addressLiteral s line) (R e) := by
  unfold Names.addressLiteral
  split
  · exact .test (fun _ => rules.literal e _ atLine) atLine rfl
  · exact .error atLine rfl

theorem viewOf {base : Expr} {n : Node} {s : Slot} {offset : Offset} (related : R base n)
    (isBase : n.base? line = .ok (some s))
    (computed : ∀ a, offset = .dynamic a → ∃ index n', R index n' ∧ n'.offset? = some offset) (e : Expr)
    (type : ValueType) : Outcome.Within inside strict (Node.viewOf s offset type line) (R e) := by
  unfold Node.viewOf
  split
  · rename_i index isArray
    split
    · exact .error atLine rfl
    · rename_i inside
      refine .ok (rules.view e type atLine related isBase ?_ computed)
      rintro _ ⟨⟩ -
      omega
  · rename_i notElement
    refine .ok (rules.view e type atLine related isBase ?_ computed)
    exact fun index fixed isArray => (notElement index isArray fixed).elim

/-- An index is a view where base and index are plain, and else it is computed. -/
theorem indexed {base index : Expr} {n n' : Node} (related : R base n) (related' : R index n') (e : Expr)
    (type : ValueType) (computed : ∀ viewed, n.base? line = .ok viewed → (viewed = none ∨ n'.offset? = none) →
      R e (.lookup n n' type line)) :
    Outcome.Within inside strict (n.indexed n' type line) (R e) := by
  refine .bind ((Node.base?_within atLine n).eq.mono fun viewed isBase => ?_)
  cases viewed with
  | none => exact .ok (computed none isBase (.inl rfl))
  | some s =>
    cases isOffset : n'.offset? with
    | none => exact .ok (computed _ isBase (.inr isOffset))
    | some offset => exact rules.viewOf atLine related isBase (fun _ _ => ⟨index, n', related', isOffset⟩) e type

theorem dereference {base : Expr} {n : Node} (related : R base n) :
    Outcome.Within inside strict (n.dereference .long line) (R (.prefixed .deref line base)) := by
  refine .bind ((Node.base?_within atLine n).eq.mono fun viewed isBase => ?_)
  cases viewed with
  | none => exact .ok (rules.deref _ atLine related isBase)
  | some s => exact rules.viewOf atLine related isBase (by simp) _ _

theorem throughPointer {base : Expr} {n : Node} (related : R base n) (field : String) :
    Outcome.Within inside strict (n.throughPointer names field line) (R (.member line true base field)) := by
  unfold Node.throughPointer
  split
  · refine .bind ((memberOf_within atLine _ field).mono fun found _ => ?_)
    refine rules.indexed atLine related (rules.literal base _ atLine) _ _ fun viewed isBase plain => ?_
    obtain rfl := plain.resolve_right (by simp [Node.offset?, Node.literal?_literal])
    exact rules.arrow field _ _ atLine related isBase
  · exact .error atLine rfl

theorem negated {operand : Expr} {n : Node} (related : R operand n) :
    R (.prefixed .negate line operand) (n.negated line) := by
  unfold Node.negated
  split
  · exact rules.literal _ _ atLine
  · exact rules.prefixed _ _ atLine (by simp) (by simp) related

theorem complemented {operand : Expr} {n : Node} (related : R operand n) :
    R (.prefixed .complement line operand) (n.complemented line) := by
  unfold Node.complemented
  split
  · exact rules.literal _ _ atLine
  · exact rules.prefixed _ _ atLine (by simp) (by simp) related

end Names.Relates

mutual

/-- An expression is related to what it is bound to. -/
theorem Expr.bind_relates {names : Names} {R : Expr → Node → Prop} (rules : names.Relates inside strict R) :
    {e : Expr} → e.Within inside → Outcome.Within inside strict (e.bind names) (R e)
  | .name n line, within => by
    rw [Expr.bind]
    exact rules.valueOf within _ n
  | .number digits line, within => by
    rw [Expr.bind]
    exact .bind ((Token.literal_within within).mono fun _ _ => .ok (rules.literal _ _ within))
  | .call function line args, within => by
    rw [Expr.bind]
    refine .bind ((Names.checkedCallee_within within.1 function args.length).mono fun callee calls => ?_)
    exact .bind ((bindAll_relates rules within.2).mono fun ns related => .ok (rules.call within.1 calls related))
  | .index line base position, within => by
    rw [Expr.bind]
    refine .bind ((bind_relates rules within.2.1).mono fun n related => ?_)
    refine .bind ((bind_relates rules within.2.2).mono fun n' related' => ?_)
    exact rules.indexed within.1 related related' _ _ fun _ => rules.lookup _ within.1 related related'
  | .member line arrow base field, within => by
    cases arrow with
    | true =>
      rw [Expr.bind, if_pos rfl]
      exact .bind ((bind_relates rules within.2).mono fun n related =>
        rules.throughPointer within.1 related field)
    | false =>
      rw [Expr.bind, if_neg Bool.false_ne_true]
      split
      · rename_i isName
        exact rules.member _ _ _ (within.2.name? isName) within.1
      · exact .error within.1 rfl
  | .prefixed op line operand, within => by
    have ih := bind_relates rules (e := operand) within.2
    cases op with
    | addressOf =>
      rw [Expr.bind]
      split
      · rename_i isName
        exact .bind ((Names.resolveVariable_within (within.2.name? isName) _).mono fun s _ =>
          rules.addressLiteral within.1 _ s)
      · exact .bind (ih.mono fun n _ => .bind ((Node.slotOf_within within.1 n).mono fun s _ =>
          rules.addressLiteral within.1 _ s))
    | deref =>
      rw [Expr.bind]
      exact .bind (ih.mono fun n related => rules.dereference within.1 related)
    | step s =>
      rw [Expr.bind]
      refine .bind (ih.mono fun n related => .bind ((Node.assignable_within within.2.line n _).mono ?_))
      rintro _ ⟨rfl, assignable⟩
      exact .ok (rules.prefixed _ _ within.1 (by simp) (fun _ _ => assignable) related)
    | negate =>
      rw [Expr.bind]
      exact .bind (ih.mono fun n related => .ok (rules.negated within.1 related))
    | complement =>
      rw [Expr.bind]
      exact .bind (ih.mono fun n related => .ok (rules.complemented within.1 related))
    | not =>
      rw [Expr.bind]
      exact .bind (ih.mono fun n related => .ok (rules.prefixed _ _ within.1 (by simp) (by simp) related))
  | .stepped s line operand, within => by
    rw [Expr.bind]
    refine .bind ((bind_relates rules within.2).mono fun n related =>
      .bind ((Node.assignable_within within.2.line n _).mono ?_))
    rintro _ ⟨rfl, assignable⟩
    exact .ok (rules.stepped s within.1 assignable related)
  | .infixed op line left right, within => by
    have ihL := bind_relates rules (e := left) within.2.1
    have ihR := bind_relates rules (e := right) within.2.2
    cases op with
    | assign arith =>
      rw [Expr.bind]
      refine .bind (ihL.mono fun n related => .bind ((Node.assignable_within within.2.1.line n _).mono ?_))
      rintro _ ⟨rfl, assignable⟩
      exact .bind (ihR.mono fun _ related' => .ok (rules.assign arith within.1 assignable related related'))
    | arith op =>
      rw [Expr.bind]
      exact .bind (ihL.mono fun _ related => .bind (ihR.mono fun _ related' =>
        .ok (rules.binary op within.1 related related')))
    | compare relation =>
      rw [Expr.bind]
      exact .bind (ihL.mono fun _ related => .bind (ihR.mono fun _ related' =>
        .ok (rules.compare relation within.1 related related')))
    | logic connective =>
      rw [Expr.bind]
      exact .bind (ihL.mono fun _ related => .bind (ihR.mono fun _ related' =>
        .ok (rules.logic connective within.1 related related')))
  | .ternary line condition yes no, within => by
    rw [Expr.bind]
    exact .bind ((bind_relates rules within.2.1).mono fun _ related =>
      .bind ((bind_relates rules within.2.2.1).mono fun _ relatedYes =>
      .bind ((bind_relates rules within.2.2.2).mono fun _ relatedNo =>
        .ok (rules.ternary within.1 related relatedYes relatedNo))))

theorem Expr.bindAll_relates {names : Names} {R : Expr → Node → Prop} (rules : names.Relates inside strict R) :
    {es : List Expr} → Expr.AllWithin inside es →
      Outcome.Within inside strict (Expr.bindAll names es) (List.Forall₂ R es)
  | [], _ => by
    rw [Expr.bindAll]
    exact .ok .nil
  | e :: rest, within => by
    rw [Expr.bindAll]
    exact .bind ((bind_relates rules within.1).mono fun _ related =>
      .bind ((bindAll_relates rules within.2).mono fun _ relatedRest => .ok (.cons related relatedRest)))

end

/-! ## Phrases -/

def Phrase.expr? : Phrase → Option Expr
  | .control _ _ operand => operand
  | .value e => some e

def Command.node? : Command → Option Node
  | .control _ operand _ => operand
  | .value n => some n

namespace Phrase

def Within (inside : Nat → Prop) : Phrase → Prop
  | control _ line operand => inside line ∧ ∀ e, operand = some e → e.Within inside
  | value e => e.Within inside

theorem within_true : (p : Phrase) → p.Within fun _ => True
  | control _ _ _ => ⟨trivial, fun e _ => e.within_true⟩
  | value e => e.within_true

/-- A phrase is bound to one of the same form. Only `return` and `sleep` take a value, and `sleep` needs
one. -/
inductive BoundTo (R : Expr → Node → Prop) : Phrase → Command → Prop
  | value {e : Expr} {n : Node} (related : R e n) : BoundTo R (.value e) (.value n)
  | keyword {word : Control} {line : Nat} (awake : word ≠ .sleep) :
    BoundTo R (.control word line none) (.control word none line)
  | control {word : Control} {line : Nat} {e : Expr} {n : Node} (takes : word = .return_ ∨ word = .sleep)
    (related : R e n) : BoundTo R (.control word line (some e)) (.control word (some n) line)

theorem BoundTo.node {R : Expr → Node → Prop} {p : Phrase} {c : Command} (bound : p.BoundTo R c) {n : Node}
    (isNode : c.node? = some n) : ∃ e, p.expr? = some e ∧ R e n := by
  cases bound with
  | keyword _ => cases isNode
  | value related | control _ related =>
    cases isNode
    exact ⟨_, rfl, related⟩

theorem bind_relates {names : Names} {R : Expr → Node → Prop} (rules : names.Relates inside strict R)
    {p : Phrase} (within : p.Within inside) :
    Outcome.Within inside strict (p.bind names) (p.BoundTo R) := by
  cases p with
  | value e => exact .bind ((Expr.bind_relates rules within).mono fun n related => .ok (.value related))
  | control word line value =>
    cases value with
    | none =>
      rw [Phrase.bind]
      split
      · exact .error within.1 rfl
      · exact .ok (.keyword ‹_›)
    | some e =>
      rw [Phrase.bind]
      refine .bind ((Expr.bind_relates rules (within.2 e rfl)).mono fun n related => ?_)
      split
      · exact .ok (.control ‹_› related)
      · exact .error within.1 rfl

end Phrase

namespace Names

variable {names : Names} {R : Expr → Node → Prop}

/-- What a phrase is bound to. -/
theorem phrase_relates (rules : names.Relates (fun _ => True) False R) {tokens : List Token} {line : Nat}
    {c : Command} (isPhrase : names.phrase tokens line = .ok (some c)) :
    ∃ p, Phrase.ofTokens tokens line = .ok (some p) ∧ p.BoundTo R c := by
  have ensures : Ensures (names.phrase tokens line) fun found => ∀ c, found = some c →
      ∃ p, Phrase.ofTokens tokens line = .ok (some p) ∧ p.BoundTo R c := by
    refine .bind fun read isRead => ?_
    cases read with
    | none => exact .ok (by simp)
    | some p =>
      refine .bind ((Phrase.bind_relates rules p.within_true).ensures.mono fun c bound => .ok ?_)
      intro c' same
      cases same
      exact ⟨p, isRead, bound⟩
  exact ensures _ isPhrase c rfl

theorem condition_relates (rules : names.Relates (fun _ => True) False R) {tokens : List Token} {line : Nat}
    {n : Node} (isNode : names.condition tokens line = .ok n) : ∃ e, R e n := by
  have ensures : Ensures (names.condition tokens line) fun n => ∃ e, R e n :=
    .bind fun e _ => (Expr.bind_relates rules e.within_true).ensures.mono fun _ related => ⟨e, related⟩
  exact ensures n isNode

end Names

/-! ## How deep steps are nested -/

mutual

/-- How deep steps after a use are nested in the operands of other such steps. -/
def Expr.postDepth : Expr → Nat
  | .name _ _ => 0
  | .number _ _ => 0
  | .call _ _ args => Expr.maxPostDepth args
  | .index _ base position => max base.postDepth position.postDepth
  | .member _ _ base _ => base.postDepth
  | .prefixed _ _ operand => operand.postDepth
  | .stepped _ _ operand => operand.postDepth + 1
  | .infixed _ _ left right => max left.postDepth right.postDepth
  | .ternary _ condition yes no => max condition.postDepth (max yes.postDepth no.postDepth)

def Expr.maxPostDepth : List Expr → Nat
  | [] => 0
  | e :: rest => max e.postDepth (Expr.maxPostDepth rest)

end

def Phrase.postDepth (p : Phrase) : Nat := (p.expr?.map Expr.postDepth).getD 0

theorem Node.maxPostDepth_le {es : List Expr} {ns : List Node}
    (related : List.Forall₂ (fun e n => n.postDepth ≤ e.postDepth) es ns) :
    maxPostDepth ns ≤ Expr.maxPostDepth es := by
  induction related with
  | nil => exact Nat.le_refl 0
  | cons first _ ih =>
    rw [maxPostDepth, Expr.maxPostDepth]
    omega

theorem Names.relates_postDepth (names : Names) :
    names.Relates (fun _ => True) False fun e n => n.postDepth ≤ e.postDepth where
  stored _ _ _ _ _ _ _ := Nat.zero_le _
  member e name field nameLine line _ _ := by
    refine .of_ensures ((names.memberSlot_isSlot name nameLine field line).mono ?_)
    rintro _ ⟨s, rfl⟩
    exact Nat.zero_le _
  literal _ _ _ _ := Nat.zero_le _
  view _ _ _ _ _ _ _ _ _ _ _ _ := Nat.zero_le _
  deref _ _ _ related _ := related
  lookup _ _ _ related related' _ _ := by
    rw [Node.postDepth, Expr.postDepth]
    omega
  arrow _ _ _ _ _ related _ := by
    rw [Node.postDepth, Expr.postDepth]
    exact Nat.max_le.2 ⟨related, Nat.zero_le _⟩
  prefixed op op' _ _ notPost _ related := by
    cases op' with
    | postStep step => exact absurd rfl (notPost step)
    | _ => exact related
  stepped _ _ _ _ related := Nat.succ_le_succ related
  assign _ _ _ _ related related' := by
    rw [Node.postDepth, Expr.postDepth]
    omega
  binary _ _ _ related related' := by
    rw [Node.postDepth, Expr.postDepth]
    omega
  compare _ _ _ related related' := by
    rw [Node.postDepth, Expr.postDepth]
    omega
  logic _ _ _ related related' := by
    rw [Node.postDepth, Expr.postDepth]
    omega
  ternary _ related relatedYes relatedNo := by
    rw [Node.postDepth, Expr.postDepth]
    omega
  call {_ _ _ callee _} _ _ related := by
    have le := Node.maxPostDepth_le related
    cases callee with
    | inl f => exact le
    | inr c => exact le

/-- Binding does not nest steps deeper than they are written. -/
theorem Names.phrase_postDepth {names : Names} {tokens : List Token} {line : Nat} {c : Command} {n : Node}
    (isPhrase : names.phrase tokens line = .ok (some c)) (isNode : c.node? = some n) :
    ∃ p, Phrase.ofTokens tokens line = .ok (some p) ∧ n.postDepth ≤ p.postDepth := by
  obtain ⟨p, isRead, bound⟩ := Names.phrase_relates names.relates_postDepth isPhrase
  obtain ⟨e, isExpr, le⟩ := bound.node isNode
  refine ⟨p, isRead, ?_⟩
  rw [Phrase.postDepth, isExpr]
  exact le

end ContractCompiler
