import ContractCompiler.Proofs.Anchor
import ContractCompiler.Proofs.Bind
import ContractCompiler.Proofs.Codegen.World

/-!
# Proofs.Anchor.Bind — what is reported while a phrase is read and bound

The nodes of an operator tree keep the lines of tokens, and binding keeps the lines of the tree. So a
phrase that can not be read, or whose names mean nothing, is reported at a line of the source
(`Names.phrase_within`, `Names.condition_within`). A complete table has a slot for all that a name can be
bound to, so binding is not refused for a defect, and what it gives is sound: a view starts from a cell that
holds an address, a fixed index lies inside its array, and what is changed can be written to.
-/

namespace ContractCompiler

set_option autoImplicit false

variable {inside : Nat → Prop} {named : String → Prop} {strict : Prop}

/-! ## Operator trees -/

namespace Expr

theorem allWithin_iff {es : List Expr} : AllWithin inside es ↔ ∀ e ∈ es, e.Within inside := by
  induction es with
  | nil => simp [AllWithin]
  | cons e rest ih => simp [AllWithin, ih]

/-- A token that is read as something, with its line. -/
theorem lined_keeps {α : Type} (f : Token → Option α) :
    Parser.Keeps inside named (Parser.tokenMap fun t => (f t).map (·, t.line)) fun found => inside found.2 := by
  refine .tokenMap fun t found stands made => ?_
  obtain ⟨_, -, rfl⟩ := Option.map_eq_some_iff.1 made
  exact stands.1

open Sentence (satisfy_keeps)

section Parts

variable {inner : Nat → Parser Expr} (keeps : ∀ power, Parser.Keeps inside named (inner power) (·.Within inside))
include keeps

theorem prefixedParser_keeps : Parser.Keeps inside named (prefixedParser inner) (·.Within inside) :=
  .bind (lined_keeps _) fun _ atLine => .bind (keeps _) fun _ within => .pure ⟨atLine, within⟩

theorem callParser_keeps : Parser.Keeps inside named (callParser inner) (·.Within inside) :=
  .bind (satisfy_keeps _) fun _ atLine => .bind (.between _ _ (.sepBy (keeps 0) (satisfy_keeps _)))
    fun _ within => .pure ⟨atLine, allWithin_iff.2 within⟩

theorem atomParser_keeps : Parser.Keeps inside named (atomParser inner) (·.Within inside) := by
  have leaf : ∀ (test : Token → Bool) (make : Token → Expr), (∀ t, inside t.line → (make t).Within inside) →
      Parser.Keeps inside named (Parser.tokenMap fun t => if test t then some (make t) else none)
        (·.Within inside) := by
    intro test make within
    refine .tokenMap fun t e stands made => ?_
    split at made
    · cases made
      exact within t stands.1
    · cases made
  refine .choice ?_
  simp only [List.forall_mem_cons]
  exact ⟨callParser_keeps keeps, leaf _ _ fun _ atLine => atLine, leaf _ _ fun _ atLine => atLine,
    .between _ _ (keeps 0), by simp⟩

theorem suffixParser_keeps {operand : Expr} (within : operand.Within inside) :
    Parser.Keeps inside named (suffixParser inner operand) (·.Within inside) := by
  refine .choice ?_
  simp only [List.forall_mem_cons]
  refine ⟨?_, ?_, ?_, by simp⟩
  · exact .bind (lined_keeps _) fun _ atLine => .pure ⟨atLine, within⟩
  · exact .bind (satisfy_keeps _) fun _ atLine => .bind (keeps 0) fun _ within' =>
      .bind (satisfy_keeps _) fun _ _ => .pure ⟨atLine, within, within'⟩
  · exact .bind (satisfy_keeps _) fun _ _ => .bind (satisfy_keeps _) fun _ atLine =>
      .pure ⟨atLine, within⟩

theorem infixedParser_keeps (power : Nat) {left : Expr} (within : left.Within inside) :
    Parser.Keeps inside named (infixedParser inner power left) (·.Within inside) :=
  .bind (lined_keeps _) fun _ atLine => .bind (keeps _) fun _ within' => .pure ⟨atLine, within, within'⟩

theorem ternaryParser_keeps (power : Nat) {condition : Expr} (within : condition.Within inside) :
    Parser.Keeps inside named (ternaryParser inner power condition) (·.Within inside) := by
  unfold ternaryParser
  split
  · exact .bind (satisfy_keeps _) fun _ atLine => .bind (keeps 0) fun _ inYes =>
      .bind (satisfy_keeps _) fun _ _ => .bind (keeps _) fun _ inNo => .pure ⟨atLine, within, inYes, inNo⟩
  · exact .fail

theorem extensionParser_keeps (power : Nat) {left : Expr} (within : left.Within inside) :
    Parser.Keeps inside named (extensionParser inner power left) (·.Within inside) := by
  refine .choice ?_
  simp only [List.forall_mem_cons]
  exact ⟨suffixParser_keeps keeps within, infixedParser_keeps keeps power within,
    ternaryParser_keeps keeps power within, by simp⟩

end Parts

theorem parser_keeps (fuel power : Nat) : Parser.Keeps inside named (parser fuel power) (·.Within inside) := by
  induction fuel generalizing power with
  | zero => exact .fail
  | succ fuel ih =>
    exact .bind (.orElse (prefixedParser_keeps ih) (atomParser_keeps ih)) fun _ within =>
      .iterate (fun _ within => extensionParser_keeps ih power within) within

/-- Tokens that are no expression are reported at the line of one of them, or at the line of the
sentence. -/
theorem unreadable_fair {tokens : List Token} {line : Nat} (stand : ∀ t ∈ tokens, inside t.line)
    (atLine : inside line) (f : Failure) : (unreadable tokens line f).Fair inside strict := by
  unfold unreadable
  split
  · rename_i found
    exact ⟨stand _ (Failure.mem_of_found? found), fun _ => rfl⟩
  · rename_i isLast
    exact ⟨stand _ (List.mem_of_getLast? isLast), fun _ => rfl⟩
  · exact ⟨atLine, fun _ => rfl⟩

theorem ofCondition_within {tokens : List Token} {line : Nat} (stand : ∀ t ∈ tokens, inside t.line)
    (atLine : inside line) :
    Outcome.Within inside strict (Expr.ofCondition tokens line) (·.Within inside) := by
  unfold ofCondition
  split
  · exact .error atLine rfl
  · split
    · rename_i isRead
      have keeps : Parser.Keeps inside (fun _ => True) (parser (tokens.length + 1) 0) _ := parser_keeps _ 0
      exact .ok (keeps.run (fun t mem => ⟨stand t mem, fun _ => trivial⟩) isRead)
    · exact unreadable_fair stand atLine _

end Expr

namespace Phrase

theorem parser_keeps (fuel : Nat) : Parser.Keeps inside named (Phrase.parser fuel) (·.Within inside) :=
  .orElse (.bind (Expr.lined_keeps _) fun _ atLine =>
      .bind (.option (Expr.parser_keeps fuel 0)) fun _ within => .pure ⟨atLine, within⟩)
    (.bind (Expr.parser_keeps fuel 0) fun _ within => .pure within)

theorem ofTokens_within {tokens : List Token} {line : Nat} (stand : ∀ t ∈ tokens, inside t.line)
    (atLine : inside line) :
    Outcome.Within inside strict (Phrase.ofTokens tokens line) fun found =>
      ∀ p, found = some p → p.Within inside := by
  unfold ofTokens
  split
  · exact .ok (by simp)
  · split
    · rename_i isRead
      refine .ok fun p same => ?_
      cases same
      have keeps : Parser.Keeps inside (fun _ => True) _ _ := parser_keeps (tokens.length + 1)
      exact keeps.run (fun t mem => ⟨stand t mem, fun _ => trivial⟩) isRead
    · exact Expr.unreadable_fair stand atLine _

end Phrase

/-! ## Complete tables -/

namespace SlotTable

variable {t : SlotTable} {s : Slot}

theorem Complete.accessible (complete : t.Complete) (stored : s ∈ t.slots) (hasCell : s.kind ≠ .struct) :
    s.Accessible t :=
  .of_direct (.of_mem stored hasCell (complete.arrays s stored)) (complete.valid.direct s stored)

end SlotTable

/-! ## Nodes -/

namespace Node

/-- The lines of the node are lines of the source, and it is sound if that counts. -/
structure Firm (inside : Nat → Prop) (strict : Prop) (t : SlotTable) (n : Node) : Prop where
  within : n.Within inside
  sound : strict → n.Sound t

/-- What a view can start from. What is no slot for that is computed at run time, and gives a cell. -/
def Views (t : SlotTable) (base : Node) : Option Slot → Prop
  | some s => s.Rooted t ∧ s.kind ≠ .constant ∧ base.IsBase
  | none => base.IsCell

variable {t : SlotTable}

theorem Sound.views {base : Node} {line : Nat} {viewed : Option Slot} (sound : base.Sound t) (valid : t.Valid)
    (isBase : base.base? line = .ok viewed) : base.Views t viewed := by
  unfold base? at isBase
  split at isBase
  · rename_i s line'
    have accessible : s.Accessible t := sound
    split at isBase
    · rename_i direct
      simp only [Bool.and_eq_true, bne_iff_ne] at direct
      split at isBase
      · cases isBase
      · rename_i notAggregate
        simp only [Bool.or_eq_true, beq_iff_eq, not_or] at notAggregate
        cases isBase
        exact ⟨accessible.rooted (by simp [Slot.literal?, direct.2]), notAggregate.2, notAggregate.2⟩
    · rename_i notDirect
      split at isBase
      · cases isBase
      · rename_i notLiteral
        cases isBase
        obtain ⟨rooted, view⟩ := accessible.resolve_left fun isLiteral => notLiteral isLiteral.1
        have somewhere := rooted.somewhere valid
        show s.isUnwritable = false
        cases offset : s.offset with
        | none => simp [Slot.isDirect, offset, somewhere] at notDirect
        | some distance =>
          simp [Slot.isUnwritable, Slot.isDirect, offset, (view distance offset).1, rooted.kind_ne_struct]
  · rename_i notSlot
    cases isBase
    cases base with
    | slot s line' => exact absurd rfl (notSlot s line')
    | _ => trivial

/-- An index that need not be computed stands in a cell. -/
theorem offset?_hasCell {index : Node} (sound : index.Sound t) {a : Int}
    (isOffset : index.offset? = some (.dynamic a)) : t.HasCell a := by
  unfold offset? at isOffset
  split at isOffset
  · cases isOffset
  · rename_i notLiteral
    split at isOffset
    · cases isOffset
      exact (Slot.Accessible.rooted sound notLiteral).hasCell
    · cases isOffset
  · cases isOffset

theorem literal?_eq_none {index : Node} (computed : index.offset? = none) : index.literal? = none := by
  unfold offset? at computed
  split at computed
  · cases computed
  · assumption
  · assumption

/-- What can be assigned to can be written to. -/
theorem isCell_of_assignable {n : Node} (assignable : n.isAssignable = true) : n.IsCell := by
  cases n with
  | slot s line =>
    show s.isUnwritable = false
    cases kind : s.kind <;> simp_all [isAssignable, Slot.isUnwritable, Slot.isDirect]
  | _ => trivial

theorem allFirm_of_forall₂ {es : List Expr} {ns : List Node}
    (firm : List.Forall₂ (fun _ n => n.Firm inside strict t) es ns) :
    AllWithin inside ns ∧ (strict → AllSound t ns) := by
  induction firm with
  | nil => exact ⟨trivial, fun _ => trivial⟩
  | cons first _ ih => exact ⟨⟨first.within, ih.1⟩, fun h => ⟨first.sound h, ih.2 h⟩⟩

end Node

/-! ## Binding -/

variable {names : Names} (complete : strict → names.table.Complete)
include complete

namespace Names

/-- The slots of the members of a struct variable are there. -/
theorem memberSlot_within {nameLine line : Nat} (atName : inside nameLine) (atLine : inside line)
    (name field : String) : Outcome.Within inside strict (names.memberSlot name nameLine field line)
      (·.Firm inside strict names.table) := by
  refine .bind ((resolveVariable_within atName name).mono fun s ⟨stored, _⟩ => ?_)
  dsimp only
  split
  · rename_i tag type
    refine .guard atLine rfl fun isStruct => .bind ((memberOf_within atLine tag field).mono ?_)
    rintro - ⟨members, m, known, listed, rfl⟩
    have has := fun h => (complete h).structVariables s stored (by simpa using isStruct) tag members type known
      m listed
    split
    · rename_i e found
      have stored' := List.mem_of_find?_eq_some found
      refine .ok ⟨atLine, fun h => (complete h).accessible stored' ?_⟩
      obtain ⟨e', storedE, long, same⟩ := has h
      have isMember := (complete h).valid.find?_eq storedE
      rw [same, found] at isMember
      simp [Option.some.inj isMember, long]
    · rename_i missing
      refine .defect atLine fun h => ?_
      obtain ⟨e', storedE, -, same⟩ := has h
      have isMember := (complete h).valid.find?_eq storedE
      rw [same, missing] at isMember
      cases isMember
  · exact .error atLine rfl

/-- Binding gives a node that is firm. -/
theorem relates_firm : names.Relates inside strict fun _ n => n.Firm inside strict names.table where
  stored _ _ _ atLine stored _ hasCell := ⟨atLine, fun h => (complete h).accessible stored hasCell⟩
  member _ name field _ _ atName atLine := memberSlot_within complete atName atLine name field
  literal _ value _ atLine := ⟨atLine, fun _ => Slot.Accessible.literal value⟩
  view _ _ _ _ offset type _ atLine firm isBase inside index := by
    refine ⟨atLine, fun h => ?_⟩
    obtain ⟨rooted, notConstant, -⟩ := (firm.sound h).views (complete h).valid isBase
    refine Slot.Accessible.view rooted notConstant ?_ type
    cases offset with
    | fixed distance => exact inside distance rfl
    | dynamic a =>
      obtain ⟨_, n', firm', isOffset⟩ := index a rfl
      exact Node.offset?_hasCell (firm'.sound h) isOffset
  deref _ _ atLine firm isBase :=
    ⟨⟨atLine, firm.within⟩, fun h => ⟨firm.sound h, (firm.sound h).views (complete h).valid isBase⟩⟩
  lookup {_ _ n _ viewed} _ _ atLine firm firm' isBase computed := by
    refine ⟨⟨atLine, firm.within, firm'.within⟩, fun h => ⟨firm.sound h, firm'.sound h, ?_⟩⟩
    have views := (firm.sound h).views (complete h).valid isBase
    cases viewed with
    | none =>
      have isCell : n.IsCell := views
      exact ⟨isCell.isBase, fun _ => isCell⟩
    | some s =>
      refine ⟨views.2.2, fun isLiteral => ?_⟩
      simp [Node.literal?_eq_none (computed.resolve_left (by simp))] at isLiteral
  arrow {_ n} _ value _ _ atLine firm isBase := by
    refine ⟨⟨atLine, firm.within, atLine⟩, fun h => ?_⟩
    have isCell : n.IsCell := (firm.sound h).views (complete h).valid isBase
    exact ⟨firm.sound h, Slot.Accessible.literal value, isCell.isBase, fun _ => isCell⟩
  prefixed _ op' _ atLine notPost assignable firm := by
    refine ⟨⟨atLine, firm.within⟩, fun h => ⟨firm.sound h, ?_⟩⟩
    cases op' with
    | preStep step => exact Node.isCell_of_assignable (assignable step rfl)
    | postStep step => exact absurd rfl (notPost step)
    | _ => trivial
  stepped _ _ atLine assignable firm :=
    ⟨⟨atLine, firm.within⟩, fun h => ⟨firm.sound h, Node.isCell_of_assignable assignable⟩⟩
  assign _ _ atLine assignable firm firm' := ⟨⟨atLine, firm.within, firm'.within⟩,
    fun h => ⟨firm.sound h, firm'.sound h, Node.isCell_of_assignable assignable⟩⟩
  binary _ _ atLine firm firm' :=
    ⟨⟨atLine, firm.within, firm'.within⟩, fun h => ⟨firm.sound h, firm'.sound h⟩⟩
  compare _ _ atLine firm firm' :=
    ⟨⟨atLine, firm.within, firm'.within⟩, fun h => ⟨firm.sound h, firm'.sound h⟩⟩
  logic _ _ atLine firm firm' :=
    ⟨⟨atLine, firm.within, firm'.within⟩, fun h => ⟨firm.sound h, firm'.sound h⟩⟩
  ternary atLine firm firmYes firmNo := ⟨⟨atLine, firm.within, firmYes.within, firmNo.within⟩,
    fun h => ⟨firm.sound h, firmYes.sound h, firmNo.sound h⟩⟩
  call {_ _ _ callee _} atLine _ firm := by
    obtain ⟨within, sound⟩ := Node.allFirm_of_forall₂ firm
    cases callee <;> exact ⟨⟨atLine, within⟩, sound⟩

variable {tokens : List Token} {line : Nat} (stand : ∀ t ∈ tokens, inside t.line) (atLine : inside line)
include stand atLine

theorem phrase_within :
    Outcome.Within inside strict (names.phrase tokens line) fun found => ∀ c, found = some c →
      c.Within inside ∧ (strict → c.Sound names.table) := by
  refine .bind ((Phrase.ofTokens_within stand atLine).mono fun found within => ?_)
  cases found with
  | none => exact .ok (by simp)
  | some p =>
    have within := within p rfl
    refine .bind ((Phrase.bind_relates (relates_firm complete) within).mono fun c bound => .ok ?_)
    rintro _ ⟨⟩
    cases bound with
    | value firm => exact ⟨firm.within, firm.sound⟩
    | keyword awake => exact ⟨⟨within.1, by simp⟩, fun _ => ⟨by simp, fun sleep => absurd sleep awake⟩⟩
    | control _ firm =>
      refine ⟨⟨within.1, fun n isNode => ?_⟩, fun h => ⟨fun n isNode => ?_, fun _ => rfl⟩⟩
      · exact Option.some.inj isNode ▸ firm.within
      · exact Option.some.inj isNode ▸ firm.sound h

theorem condition_within :
    Outcome.Within inside strict (names.condition tokens line) (·.Firm inside strict names.table) :=
  .bind ((Expr.ofCondition_within stand atLine).mono fun _ within =>
    Expr.bind_relates (relates_firm complete) within)

end Names

end ContractCompiler
