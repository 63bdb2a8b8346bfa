import ContractCompiler.Proofs.Accessible
import ContractCompiler.Proofs.Bind.Relate
import ContractCompiler.Proofs.Change
import ContractCompiler.Proofs.Layout

/-!
# Proofs.Bind — what names are bound to

A phrase that is bound in a laid out table speaks of variables of the table alone (`Node.Bound`), and
what it assigns to can be assigned to. Constants that are stored later do not change what a phrase is
bound to (`Names.phrase_interns`), since names are looked up in the order in which they were stored.
-/

namespace ContractCompiler

set_option autoImplicit false

open Outcome (Ensures)

/-- Words below 2^63 are not negative. -/
theorem Word.toSigned_of_lt {w : Word} (small : w.toNat < 9223372036854775808) :
    w.toSigned = Int.ofNat w.toNat := by
  show w.toBitVec.toInt = _
  rw [BitVec.toInt_eq_toNat_of_lt]
  · rfl
  · show 2 * w.toNat < _
    omega

namespace SlotTable

variable {t t' : SlotTable} {s : Slot}

/-- The addresses of the table can be told apart as words. -/
def Small (t : SlotTable) : Prop := t.next ≤ 9223372036854775808

instance (t : SlotTable) : Decidable t.Small :=
  inferInstanceAs (Decidable (t.next ≤ 9223372036854775808))

namespace Laid

variable (laid : t.Laid)
include laid

/-- The element of an array at an index that lies inside of it. -/
theorem element (small : t.Small) (stored : s ∈ t.slots) (isArray : s.kind = .array) {index : Word}
    (inside : index.toNat < s.size) : ∃ e ∈ t.slots, e.kind = .long ∧ e.scope = s.scope ∧
      e.address = Word.toSigned (s.initial + index) := by
  obtain ⟨first, contents, elements⟩ := laid.arrays s stored isArray
  obtain ⟨e, stored, long, scope, address⟩ := elements index.toNat inside
  refine ⟨e, stored, long, scope, address.trans ?_⟩
  have below := (laid.valid.address_lt stored (by simp [long])).2
  rw [address] at below
  have below : first + index.toNat < 9223372036854775808 :=
    Nat.lt_of_lt_of_le (Int.ofNat_lt.1 below) small
  have initial : s.initial = UInt64.ofNat first := by simp [Slot.initial, contents]
  have sum : (s.initial + index).toNat = first + index.toNat := by
    rw [initial, UInt64.toNat_add, UInt64.toNat_ofNat']
    omega
  rw [Word.toSigned_of_lt (by omega), sum]

/-- The table that a contract is laid out in is complete. -/
theorem complete (small : t.Small) : t.Complete where
  valid := laid.valid
  constants s stored constant := absurd constant (laid.noConstants s stored)
  arrays s stored array := by
    refine ⟨s.initial, ?_, fun index inside => laid.element small stored array inside⟩
    obtain ⟨first, contents, -⟩ := laid.arrays s stored array
    simp [Slot.initial, contents]
  structVariables := laid.structVariables

end Laid

namespace Complete

variable (complete : t.Complete)
include complete

theorem isVariable (stored : s ∈ t.slots) (hasCell : s.kind ≠ .struct) (notRegister : s.kind ≠ .register)
    (notConstant : s.kind ≠ .constant) : s.IsVariable t where
  stored := .of_mem stored hasCell
  notRegister := notRegister
  notConstant := notConstant
  index a offset := by simp [complete.valid.direct s stored] at offset
  array isArray := by
    obtain ⟨first, isFirst, -⟩ := complete.arrays s stored isArray
    obtain ⟨hex, contents, -⟩ := Option.bind_eq_some_iff.1 isFirst
    simp [contents]
  element index offset := by simp [complete.valid.direct s stored] at offset

/-- A view of a variable. -/
theorem view (isVariable : s.IsVariable t) (offset : Offset) (type : ValueType)
    (inside : ∀ index, offset = .fixed index → s.kind = .array → index.toNat < s.size)
    (index : ∀ a, offset = .dynamic a → ∃ s₁ ∈ t.slots, s₁.kind ≠ .struct ∧ s₁.kind ≠ .register ∧
      s₁.kind ≠ .constant ∧ s₁.address = a) : (s.withOffset offset type).IsVariable t where
  stored := isVariable.stored.withOffset offset type
  notRegister := isVariable.notRegister
  notConstant := isVariable.notConstant
  index a same := index a (Option.some.inj same)
  array := isVariable.array
  element distance same isArray := by
    obtain ⟨s₀, mem, -, same₀⟩ := isVariable.stored
    have kind : s.kind = s₀.kind := by rw [same₀]
    have size : s.size = s₀.size := by rw [same₀]
    have contents : s.contents = s₀.contents := by rw [same₀]
    have inside := inside distance (Option.some.inj same) isArray
    obtain ⟨first, isFirst, elements⟩ := complete.arrays s₀ mem (kind.symm.trans isArray)
    obtain ⟨e, storedE, long, -, address⟩ := elements distance (size ▸ inside)
    have initial : s.initial = first := by rw [Slot.initial, contents, isFirst]; rfl
    exact ⟨e, storedE, long, by rw [address, ← initial]; rfl⟩

end Complete

end SlotTable

theorem Slot.literal_bound (t : SlotTable) (value : Word) : (Slot.literal value).Bound t :=
  .inl ⟨by simp [literal?_literal], rfl⟩

/-! ## Bound nodes -/

/-- The node is bound, unless something is called in it. -/
def Node.BoundUncalled (t : SlotTable) (n : Node) : Prop := n.hasCall = false → n.Bound t

namespace Node

/-- What is assigned or stepped by the node itself can be assigned to. -/
def TargetAssignable : Node → Prop
  | assign _ target _ _ => target.isAssignable = true
  | unary (.preStep _) target _ => target.isAssignable = true
  | unary (.postStep _) target _ => target.isAssignable = true
  | _ => True

/-- The index of a view is a variable. -/
theorem offset?_index {t : SlotTable} {index : Node} (bound : index.BoundUncalled t) {a : Int}
    (isOffset : index.offset? = some (.dynamic a)) : ∃ s₁ ∈ t.slots, s₁.kind ≠ .struct ∧
      s₁.kind ≠ .register ∧ s₁.kind ≠ .constant ∧ s₁.address = a := by
  unfold offset? at isOffset
  split at isOffset
  · cases isOffset
  · rename_i notLiteral
    split at isOffset
    · cases isOffset
      have isVariable := (bound rfl).resolve_left fun ⟨isLiteral, _⟩ => by
        simp [show Slot.literal? _ = none from notLiteral] at isLiteral
      obtain ⟨s₀, stored, hasCell, same⟩ := isVariable.stored
      exact ⟨s₀, stored, hasCell, by have := isVariable.notRegister; rw [same] at this; exact this,
        by have := isVariable.notConstant; rw [same] at this; exact this, by rw [same]⟩
    · cases isOffset
  · cases isOffset

/-- Two operands without calls. -/
theorem boundUncalled_pair {t : SlotTable} {l r : Node} (boundL : l.BoundUncalled t)
    (boundR : r.BoundUncalled t) (uncalled : (l.hasCall || r.hasCall) = false) : l.Bound t ∧ r.Bound t := by
  obtain ⟨uncalledL, uncalledR⟩ := Bool.or_eq_false_iff.1 uncalled
  exact ⟨boundL uncalledL, boundR uncalledR⟩

end Node

section

variable {names : Names} (laid : names.table.Laid) (small : names.table.Small)

namespace Names

theorem resolveVariable_ensures (names : Names) (name : String) (line : Nat) :
    Ensures (names.resolveVariable name line) fun s => s ∈ names.table.slots ∧ s.kind ≠ .register :=
  Outcome.Within.ensures (resolveVariable_within trivial name : Outcome.Within (fun _ => True) False _ _)

/-- A member of a struct variable is a variable of its own. -/
theorem memberSlot_ensures (names : Names) (valid : names.table.Valid)
    (hasMembers : ∀ s ∈ names.table.slots, s.kind = .struct → names.table.HasMembers s)
    (name : String) (nameLine : Nat) (field : String) (line : Nat) :
    Ensures (names.memberSlot name nameLine field line) fun n =>
      ∃ e ∈ names.table.slots, e.kind = .long ∧ n = .slot e line := by
  refine .bind ((names.resolveVariable_ensures name nameLine).mono fun s ⟨stored, _⟩ => ?_)
  dsimp only
  split
  · rename_i tag type
    have isMember : Outcome.Within (fun _ => True) False (names.memberOf tag field line) _ :=
      memberOf_within trivial tag field
    refine .guard fun isStruct => .bind (isMember.ensures.mono ?_)
    rintro - ⟨members, m, known, listed, rfl⟩
    obtain ⟨e, stored', long, same⟩ := hasMembers s stored (by simpa using isStruct) tag members type known
      m listed
    have found : names.table.find? (s.asmName ++ "_" ++ m.name) = some e := by
      rw [← same]
      exact valid.find?_eq stored'
    simp only [found]
    exact .ok ⟨e, stored', long, rfl⟩
  · exact .error

include laid small in
/-- An expression is bound to variables of the table, and what it assigns or steps can be assigned to. -/
theorem relates_bound : names.Relates (fun _ => True) False fun _ n =>
    n.BoundUncalled names.table ∧ n.TargetAssignable where
  stored _ s _ _ stored notRegister hasCell :=
    ⟨fun _ => .inr ((laid.complete small).isVariable stored hasCell notRegister (laid.noConstants s stored)),
      trivial⟩
  member _ name field nameLine line _ _ := by
    refine .of_ensures ((names.memberSlot_ensures laid.valid laid.structVariables name nameLine field line).mono ?_)
    rintro _ ⟨e, stored, long, rfl⟩
    exact ⟨fun _ => .inr ((laid.complete small).isVariable stored (by simp [long]) (by simp [long])
      (by simp [long])), trivial⟩
  literal _ value _ _ := ⟨fun _ => Slot.literal_bound _ value, trivial⟩
  view _ _ n s offset type _ _ bound isBase inside index := by
    obtain ⟨line', rfl, notLiteral, -⟩ := Node.base?_eq isBase
    have isVariable := (bound.1 rfl).resolve_left (by simp [notLiteral])
    refine ⟨fun _ => .inr ((laid.complete small).view isVariable offset type inside fun a isDynamic => ?_), trivial⟩
    obtain ⟨_, n', bound', isOffset⟩ := index a isDynamic
    exact Node.offset?_index bound'.1 (isDynamic ▸ isOffset)
  deref _ _ _ bound _ := ⟨bound.1, trivial⟩
  lookup _ _ _ bound bound' _ _ := ⟨Node.boundUncalled_pair bound.1 bound'.1, trivial⟩
  arrow _ value _ _ _ bound _ :=
    ⟨Node.boundUncalled_pair bound.1 fun _ => Slot.literal_bound _ value, trivial⟩
  prefixed _ op' _ _ notPost assignable bound := by
    refine ⟨bound.1, ?_⟩
    cases op' with
    | preStep step => exact assignable step rfl
    | postStep step => exact absurd rfl (notPost step)
    | _ => trivial
  stepped _ _ _ assignable bound := ⟨bound.1, assignable⟩
  assign _ _ _ assignable bound bound' := ⟨Node.boundUncalled_pair bound.1 bound'.1, assignable⟩
  binary _ _ _ bound bound' := ⟨Node.boundUncalled_pair bound.1 bound'.1, trivial⟩
  compare _ _ _ bound bound' := ⟨Node.boundUncalled_pair bound.1 bound'.1, trivial⟩
  logic _ _ _ bound bound' := ⟨Node.boundUncalled_pair bound.1 bound'.1, trivial⟩
  ternary _ bound boundYes boundNo := by
    refine ⟨fun uncalled => ?_, trivial⟩
    obtain ⟨uncalled, uncalledNo⟩ := Bool.or_eq_false_iff.1 uncalled
    obtain ⟨boundC, boundY⟩ := Node.boundUncalled_pair bound.1 boundYes.1 uncalled
    exact ⟨boundC, boundY, boundNo.1 uncalledNo⟩
  call {_ _ _ callee _} _ _ _ := by
    refine ⟨fun uncalled => ?_, ?_⟩
    · cases callee <;> cases uncalled
    · cases callee <;> trivial

end Names

include laid small in
theorem Expr.bind_bound (e : Expr) : Ensures (e.bind names) (·.BoundUncalled names.table) :=
  (Expr.bind_relates (Names.relates_bound laid small) e.within_true).ensures.mono fun _ bound => bound.1

/-! ## Bound phrases -/

/-- Nothing is called where nothing changes. -/
theorem Node.hasCall_of_isPure (n : Node) (isPure : n.isPure = true) : n.hasCall = false := by
  induction n with
  | slot _ _ => rfl
  | unary op operand _ ih =>
    refine ih ?_
    cases op with
    | preStep _ | postStep _ => cases isPure
    | _ => exact isPure
  | assign | call | host => cases isPure
  | _ => simp_all [Node.isPure, hasCall]

namespace Names

/-- Only some keywords of control take a value. -/
theorem phrase_control (names : Names) (tokens : List Token) (line : Nat) :
    Ensures (names.phrase tokens line) fun found => ∀ word value line,
      found = some (.control word value line) → value = none ∨ word = .return_ ∨ word = .sleep := by
  rintro _ isPhrase word value line' rfl
  obtain ⟨p, -, bound⟩ := phrase_relates names.relates_postDepth isPhrase
  cases bound with
  | keyword _ => exact .inl rfl
  | control takes _ => exact .inr takes

include laid small

theorem phrase_bound (tokens : List Token) (line : Nat) :
    Ensures (names.phrase tokens line) fun found => ∀ n, found = some (.value n) →
      n.BoundUncalled names.table ∧ n.TargetAssignable := by
  rintro _ isPhrase n rfl
  obtain ⟨p, -, bound⟩ := phrase_relates (relates_bound laid small) isPhrase
  obtain ⟨e, -, bound⟩ := bound.node rfl
  exact bound

/-- The change that a phrase is speaks of variables of the table. -/
theorem change?_bound {tokens : List Token} {line : Nat} {c : Change}
    (isChange : names.change? tokens line = some c) : c.Bound names.table := by
  unfold change? at isChange
  split at isChange
  · cases isChange
    trivial
  · rename_i command isPhrase
    have bound := names.phrase_bound laid small tokens line _ isPhrase
    cases Command.isChange isChange with
    | assign op line isPureT isPureV =>
      obtain ⟨boundN, assignable⟩ := bound _ rfl
      obtain ⟨boundT, boundV⟩ := boundN (Bool.or_eq_false_iff.2
        ⟨Node.hasCall_of_isPure _ isPureT, Node.hasCall_of_isPure _ isPureV⟩)
      exact ⟨boundT, isPureT, assignable, boundV, isPureV⟩
    | preStep s line isPure | postStep s line isPure =>
      obtain ⟨boundN, assignable⟩ := bound _ rfl
      have uncalled := Node.hasCall_of_isPure _ isPure
      exact ⟨boundN uncalled, isPure, assignable⟩
  · cases isChange

/-- The test that a condition is speaks of variables of the table. -/
theorem test?_bound {tokens : List Token} {line : Nat} {n : Node}
    (isTest : names.test? tokens line = some n) : n.Bound names.table ∧ n.isPure = true := by
  have bound : Ensures (names.condition tokens line) (·.BoundUncalled names.table) :=
    .bind fun e _ => e.bind_bound laid small
  unfold test? at isTest
  split at isTest
  · rename_i node isNode
    split at isTest
    · rename_i isPure
      cases isTest
      exact ⟨bound _ isNode (Node.hasCall_of_isPure _ isPure), isPure⟩
    · cases isTest
  · cases isTest

end Names

end

end ContractCompiler
