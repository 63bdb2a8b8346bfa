import ContractCompiler.Proofs.Bind.Relate
import ContractCompiler.Proofs.Variation.Table

/-!
# Proofs.Variation.Bind — names mean the same variables, with more registers

A phrase is bound to the image of what it was bound to before, or refused for the same reason. The one
place where an address becomes a number is the address-of operator, so that this needs a phrase without
it, or no added registers.
-/

namespace ContractCompiler

set_option autoImplicit false

/-! ## Addresses in phrases -/

mutual

/-- The address of something is taken. -/
def Expr.takesAddress : Expr → Bool
  | .name _ _ => false
  | .number _ _ => false
  | .call _ _ args => Expr.anyTakesAddress args
  | .index _ base position => base.takesAddress || position.takesAddress
  | .member _ _ base _ => base.takesAddress
  | .prefixed op _ operand => op == .addressOf || operand.takesAddress
  | .stepped _ _ operand => operand.takesAddress
  | .infixed _ _ left right => left.takesAddress || right.takesAddress
  | .ternary _ condition yes no => condition.takesAddress || (yes.takesAddress || no.takesAddress)

def Expr.anyTakesAddress : List Expr → Bool
  | [] => false
  | e :: rest => e.takesAddress || Expr.anyTakesAddress rest

end

namespace Variation

variable {v : Variation}

def command (v : Variation) : Command → Command
  | .control word value line => .control word (value.map v.node) line
  | .value node => .value (v.node node)

/-- What names mean in the first compilation and in the second. -/
structure Namings (v : Variation) (names names' : Names) : Prop where
  tables : v.Tables names.table names'.table
  functions : names'.functions = names.functions
  scope : names'.scope = names.scope

abbrev Nodes (v : Variation) (n n' : Node) : Prop := n' = v.node n

/-! ## Nodes -/

section Nodes

theorem node_ofCall (callee : Signature ⊕ HostCall) (args : List Node) (line : Nat) :
    v.node (Node.ofCall callee args line) = Node.ofCall callee (v.nodes args) line := by
  cases callee <;> rfl

theorem node_negated (n : Node) (line : Nat) : v.node (n.negated line) = (v.node n).negated line := by
  unfold Node.negated
  rw [node_literal?]
  split
  · exact v.node_literal _ _
  · rfl

theorem node_complemented (n : Node) (line : Nat) :
    v.node (n.complemented line) = (v.node n).complemented line := by
  unfold Node.complemented
  rw [node_literal?]
  split
  · exact v.node_literal _ _
  · rfl

theorem node_offset? (n : Node) : (v.node n).offset? = n.offset?.map v.offset := by
  unfold Node.offset?
  rw [node_literal?]
  cases n.literal? with
  | some value => rfl
  | none =>
    cases n with
    | slot s line =>
      simp only [node, slot_isDirect, slot_kind, slot_address]
      split <;> rfl
    | _ => rfl

theorem viewOf_agrees (s : Slot) (offset : Offset) (type : ValueType) (line : Nat) :
    v.Outcomes v.Nodes (Node.viewOf s offset type line)
      (Node.viewOf (v.slot s) (v.offset offset) type line) := by
  have view : v.Outcomes v.Nodes (.ok (.slot (s.withOffset offset type) line))
      (.ok (.slot ((v.slot s).withOffset (v.offset offset) type) line)) := .ok rfl
  unfold Node.viewOf
  rw [slot_kind]
  cases s.kind with
  | array =>
    cases offset with
    | fixed index =>
      simp only [Variation.offset, slot_size, slot_name]
      split
      · exact .error _
      · exact view
    | dynamic a => exact view
  | _ => cases offset <;> exact view

theorem base?_agrees (n : Node) (line : Nat) :
    v.Outcomes (fun s s' => s' = s.map v.slot) (n.base? line) ((v.node n).base? line) := by
  cases n with
  | slot s _ =>
    have nowhere : ((v.slot s).address != Slot.nowhere) = (s.address != Slot.nowhere) := by
      simp [bne, Bool.beq_eq_decide_eq]
    simp only [Node.base?, node, slot_isDirect, nowhere, slot_kind, slot_name, slot_literal?]
    split
    · split
      · exact .error _
      · exact .ok rfl
    · split
      · exact .error _
      · exact .ok rfl
  | _ => exact .ok rfl

theorem dereference_agrees (n : Node) (type : ValueType) (line : Nat) :
    v.Outcomes v.Nodes (n.dereference type line) ((v.node n).dereference type line) := by
  refine .bind (base?_agrees n line) ?_
  rintro base _ rfl
  cases base with
  | none => exact .ok rfl
  | some s => exact viewOf_agrees s (.fixed 0) type line

theorem indexed_agrees (n index : Node) (type : ValueType) (line : Nat) :
    v.Outcomes v.Nodes (n.indexed index type line) ((v.node n).indexed (v.node index) type line) := by
  refine .bind (base?_agrees n line) ?_
  rintro base _ rfl
  rw [node_offset?]
  cases base with
  | none => exact .ok rfl
  | some s =>
    cases index.offset? with
    | none => exact .ok rfl
    | some offset => exact viewOf_agrees s offset type line

theorem assignable_agrees (n : Node) (operator : String) (line : Nat) :
    v.Outcomes v.Nodes (n.assignable operator line) ((v.node n).assignable operator line) := by
  unfold Node.assignable
  rw [node_isAssignable]
  split
  · exact .ok rfl
  · exact .error _

theorem slotOf_agrees (n : Node) (line : Nat) :
    v.Outcomes (fun s s' => s' = v.slot s) (n.slotOf line) ((v.node n).slotOf line) := by
  cases n with
  | slot s _ => exact .ok rfl
  | _ => exact .error _

end Nodes

/-! ## Names -/

namespace Namings

variable {names names' : Names} (namings : v.Namings names names')
include namings

theorem resolveVariable (name : String) (line : Nat) :
    v.Outcomes (fun s s' => s' = v.slot s) (names.resolveVariable name line)
      (names'.resolveVariable name line) := by
  unfold Names.resolveVariable
  rw [namings.scope, namings.tables.lookup?]
  cases names.table.lookup? name names.scope with
  | some s => exact .ok rfl
  | none => exact .error _

theorem valueOf (name : String) (line : Nat) :
    v.Outcomes v.Nodes (names.valueOf name line) (names'.valueOf name line) := by
  refine .bind (namings.resolveVariable name line) ?_
  rintro s _ rfl
  simp only [slot_kind]
  exact .guard (.ok rfl)

theorem memberOf (tag field : String) (line : Nat) :
    names'.memberOf tag field line = names.memberOf tag field line := by
  rw [Names.memberOf, Names.memberOf, namings.tables.members?]

omit namings in
/-- The name of a member is no register's. -/
theorem member_ne_registerName (name field : String) (n : Nat) :
    name ++ "_" ++ field ≠ SlotTable.registerName n := by
  intro same
  have listed : '_' ∈ (SlotTable.registerName n).toList := by simp [← same]
  simp [SlotTable.registerName] at listed

theorem memberSlot (name : String) (nameLine : Nat) (field : String) (line : Nat) :
    v.Outcomes v.Nodes (names.memberSlot name nameLine field line)
      (names'.memberSlot name nameLine field line) := by
  refine .bind (namings.resolveVariable name nameLine) ?_
  rintro s _ rfl
  simp only [slot_type, slot_kind, slot_asmName, namings.memberOf,
    namings.tables.find? (member_ne_registerName s.asmName field)]
  cases s.type with
  | struct tag =>
    refine .guard (.bind (.refl _) fun _ _ _ => ?_)
    cases names.table.find? (s.asmName ++ "_" ++ field) with
    | some member => exact .ok rfl
    | none => exact fun _ => rfl
  | _ => exact fun _ => rfl

/-- Without added registers the address of a slot stays. -/
theorem addressOf? (none : v.extra = 0) (s : Slot) : names'.addressOf? (v.slot s) = names.addressOf? s := by
  have stays := address_of_extra_eq_zero none
  have elements : s.kind = .array → (v.slot s).contents.bind Word.ofHex? = s.contents.bind Word.ofHex? := by
    intro isArray
    rw [v.slot_elements isArray, none]
    simp
  unfold Names.addressOf?
  rw [slot_kind, slot_type, slot_asmName, slot_offset, slot_address, stays]
  cases kind : s.kind with
  | struct =>
    cases s.type with
    | struct tag =>
      dsimp only
      rw [namings.tables.members?]
      cases names.table.members? tag with
      | none => rfl
      | some members =>
        cases isFirst : members.head? with
        | none => simp [isFirst]
        | some first =>
          have found := namings.tables.find? (member_ne_registerName s.asmName first.name)
          cases isMember : names.table.find? (s.asmName ++ "_" ++ first.name) with
          | none => simp [isFirst, found, isMember]
          | some member => simp [isFirst, found, isMember, stays]
    | _ => rfl
  | array =>
    cases s.offset with
    | none => rfl
    | some o =>
      cases o with
      | dynamic a => rfl
      | fixed index =>
        have reads : ∀ contents : Option String,
            (do
              let first ← Word.ofHex? (← contents)
              return Word.toSigned (first + index)) =
              (contents.bind Word.ofHex?).map fun first => Word.toSigned (first + index) := by
          intro contents
          cases contents with
          | none => rfl
          | some hex => cases isHex : Word.ofHex? hex <;> simp [isHex]
        exact (reads _).trans ((congrArg _ (elements kind)).trans (reads _).symm)
  | _ => cases s.offset <;> rfl

theorem addressLiteral (none : v.extra = 0) (s : Slot) (line : Nat) :
    v.Outcomes v.Nodes (names.addressLiteral s line) (names'.addressLiteral (v.slot s) line) := by
  unfold Names.addressLiteral
  rw [namings.addressOf? none]
  split
  · split
    · exact .ok (v.node_literal _ _).symm
    · exact .error _
  · exact .error _

theorem checkedCallee (function : String) (count line : Nat) :
    names'.checkedCallee function count line = names.checkedCallee function count line := by
  unfold Names.checkedCallee Names.callee
  rw [namings.functions]

theorem throughPointer (n : Node) (field : String) (line : Nat) :
    v.Outcomes v.Nodes (n.throughPointer names field line) ((v.node n).throughPointer names' field line) := by
  unfold Node.throughPointer
  rw [node_type]
  cases n.type with
  | structPtr tag =>
    dsimp only
    rw [namings.memberOf]
    refine .bind (.refl _) ?_
    rintro ⟨position, type⟩ _ rfl
    have moved := indexed_agrees (v := v) n (.literal (UInt64.ofNat position) line) type line
    rwa [v.node_literal] at moved
  | _ => exact fun _ => rfl

end Namings

/-! ## Expressions -/

mutual

/-- An expression is bound to the image of what it was bound to. -/
theorem bind_agrees {names names' : Names} (namings : v.Namings names names') : (e : Expr) →
    v.extra = 0 ∨ e.takesAddress = false → v.Outcomes v.Nodes (e.bind names) (e.bind names')
  | .name n line, _ => by
    rw [Expr.bind, Expr.bind]
    exact namings.valueOf n line
  | .number digits line, _ => by
    rw [Expr.bind, Expr.bind]
    refine .bind (.refl _) ?_
    rintro value _ rfl
    exact .ok (v.node_literal value line).symm
  | .call function line args, allowed => by
    rw [Expr.takesAddress] at allowed
    rw [Expr.bind, Expr.bind, namings.checkedCallee]
    refine .bind (.refl _) ?_
    rintro callee _ rfl
    refine .bind (bindAll_agrees namings args allowed) ?_
    rintro nodes _ rfl
    exact .ok (node_ofCall callee nodes line).symm
  | .index line base position, allowed => by
    rw [Expr.takesAddress, Bool.or_eq_false_iff, or_and_left] at allowed
    rw [Expr.bind, Expr.bind]
    refine .bind (bind_agrees namings base allowed.1) ?_
    rintro base _ rfl
    refine .bind (bind_agrees namings position allowed.2) ?_
    rintro position _ rfl
    exact indexed_agrees base position _ line
  | .member line arrow base field, allowed => by
    rw [Expr.takesAddress] at allowed
    rw [Expr.bind, Expr.bind]
    cases arrow with
    | true =>
      refine .bind (bind_agrees namings base allowed) ?_
      rintro base _ rfl
      exact namings.throughPointer base field line
    | false =>
      simp only [Bool.false_eq_true, if_false]
      cases base.name? with
      | some found => exact namings.memberSlot _ _ _ _
      | none => exact .error _
  | .prefixed op line operand, allowed => by
    rw [Expr.takesAddress, Bool.or_eq_false_iff, or_and_left] at allowed
    have ih := bind_agrees namings operand allowed.2
    cases op with
    | addressOf =>
      have none : v.extra = 0 := by simpa using allowed.1
      rw [Expr.bind, Expr.bind]
      cases operand.name? with
      | some found =>
        refine .bind (namings.resolveVariable _ _) ?_
        rintro s _ rfl
        exact namings.addressLiteral none s line
      | none =>
        refine .bind ih ?_
        rintro n _ rfl
        refine .bind (slotOf_agrees n line) ?_
        rintro s _ rfl
        exact namings.addressLiteral none s line
    | deref =>
      rw [Expr.bind, Expr.bind]
      refine .bind ih ?_
      rintro n _ rfl
      exact dereference_agrees n _ line
    | step s =>
      rw [Expr.bind, Expr.bind]
      refine .bind ih ?_
      rintro n _ rfl
      refine .bind (assignable_agrees n _ _) ?_
      rintro target _ rfl
      exact .ok rfl
    | negate =>
      rw [Expr.bind, Expr.bind]
      refine .bind ih ?_
      rintro n _ rfl
      exact .ok (node_negated n line).symm
    | complement =>
      rw [Expr.bind, Expr.bind]
      refine .bind ih ?_
      rintro n _ rfl
      exact .ok (node_complemented n line).symm
    | not =>
      rw [Expr.bind, Expr.bind]
      refine .bind ih ?_
      rintro n _ rfl
      exact .ok rfl
  | .stepped s line operand, allowed => by
    rw [Expr.takesAddress] at allowed
    rw [Expr.bind, Expr.bind]
    refine .bind (bind_agrees namings operand allowed) ?_
    rintro n _ rfl
    refine .bind (assignable_agrees n _ _) ?_
    rintro target _ rfl
    exact .ok rfl
  | .infixed op line left right, allowed => by
    rw [Expr.takesAddress, Bool.or_eq_false_iff, or_and_left] at allowed
    have ihL := bind_agrees namings left allowed.1
    have ihR := bind_agrees namings right allowed.2
    cases op with
    | assign arith =>
      rw [Expr.bind, Expr.bind]
      refine .bind ihL ?_
      rintro n _ rfl
      refine .bind (assignable_agrees n _ _) ?_
      rintro target _ rfl
      refine .bind ihR ?_
      rintro value _ rfl
      exact .ok rfl
    | _ =>
      rw [Expr.bind, Expr.bind]
      refine .bind ihL ?_
      rintro n _ rfl
      refine .bind ihR ?_
      rintro n' _ rfl
      exact .ok rfl
  | .ternary line condition yes no, allowed => by
    rw [Expr.takesAddress, Bool.or_eq_false_iff, Bool.or_eq_false_iff, or_and_left, or_and_left] at allowed
    rw [Expr.bind, Expr.bind]
    refine .bind (bind_agrees namings condition allowed.1) ?_
    rintro condition _ rfl
    refine .bind (bind_agrees namings yes allowed.2.1) ?_
    rintro yes _ rfl
    refine .bind (bind_agrees namings no allowed.2.2) ?_
    rintro no _ rfl
    exact .ok rfl

theorem bindAll_agrees {names names' : Names} (namings : v.Namings names names') : (es : List Expr) →
    v.extra = 0 ∨ Expr.anyTakesAddress es = false →
    v.Outcomes (fun ns ns' => ns' = v.nodes ns) (Expr.bindAll names es) (Expr.bindAll names' es)
  | [], _ => by
    rw [Expr.bindAll, Expr.bindAll]
    exact .ok rfl
  | e :: rest, allowed => by
    rw [Expr.anyTakesAddress, Bool.or_eq_false_iff, or_and_left] at allowed
    rw [Expr.bindAll, Expr.bindAll]
    refine .bind (bind_agrees namings e allowed.1) ?_
    rintro n _ rfl
    refine .bind (bindAll_agrees namings rest allowed.2) ?_
    rintro nodes _ rfl
    exact .ok rfl

end

end Variation

/-! ## Phrases -/

/-- The tokens form a phrase in which an address is taken. -/
def Phrase.readsAddress (tokens : List Token) (line : Nat) : Bool :=
  match Phrase.ofTokens tokens line with
  | .ok (some p) => p.expr?.any Expr.takesAddress
  | _ => false

/-- The tokens form a condition in which an address is taken. -/
def Expr.readsAddress (tokens : List Token) (line : Nat) : Bool :=
  match Expr.ofCondition tokens line with
  | .ok e => e.takesAddress
  | .error _ => false

namespace Variation.Namings

variable {v : Variation} {names names' : Names} (namings : v.Namings names names')
include namings

/-- A phrase is bound to the image of what it was bound to. -/
theorem phrase (tokens : List Token) (line : Nat)
    (allowed : v.extra = 0 ∨ Phrase.readsAddress tokens line = false) :
    v.Outcomes (fun c c' => c' = c.map v.command) (names.phrase tokens line) (names'.phrase tokens line) := by
  unfold Names.phrase
  rw [Phrase.readsAddress] at allowed
  cases read : Phrase.ofTokens tokens line with
  | error e => exact .error e
  | ok found =>
    rw [read] at allowed
    cases found with
    | none => exact .ok rfl
    | some p =>
      refine .bind (R := fun c c' => c' = v.command c) ?_ ?_
      · cases p with
        | value e =>
          refine .bind (bind_agrees namings e allowed) ?_
          rintro n _ rfl
          exact .ok rfl
        | control word line value =>
          cases value with
          | none =>
            rw [Phrase.bind, Phrase.bind]
            split
            · exact .error _
            · exact .ok rfl
          | some e =>
            rw [Phrase.bind, Phrase.bind]
            refine .bind (bind_agrees namings e allowed) ?_
            rintro n _ rfl
            split
            · exact .ok rfl
            · exact fun _ => rfl
      · rintro c _ rfl
        exact .ok rfl

/-- A condition is bound to the image of what it was bound to. -/
theorem condition (tokens : List Token) (line : Nat)
    (allowed : v.extra = 0 ∨ Expr.readsAddress tokens line = false) :
    v.Outcomes v.Nodes (names.condition tokens line) (names'.condition tokens line) := by
  unfold Names.condition
  rw [Expr.readsAddress] at allowed
  cases read : Expr.ofCondition tokens line with
  | error e => exact .error e
  | ok e =>
    rw [read] at allowed
    exact bind_agrees namings e allowed

end Variation.Namings

end ContractCompiler
