import ContractCompiler.Codegen.Node
import ContractCompiler.Proofs.Bind
import ContractCompiler.Proofs.Flow
import ContractCompiler.Proofs.Label
import ContractCompiler.Proofs.Node

/-!
# Proofs.Variation — two ways to compile one contract

A contract may be compiled with more registers, and with labels that carry something else. With more
registers every variable lies further back, and the elements of an array do so too, so that the slots of
one compilation have images among the slots of the other (`Variation.slot`). An image differs from its
slot in addresses only. Since addresses keep apart what they kept apart before, everything that the
compiler asks about a slot or a node has the same answer for its image.
-/

namespace ContractCompiler

set_option autoImplicit false

/-- How a second compilation differs from a first. -/
structure Variation where
  /-- How many registers the first has. -/
  registers : Nat
  /-- How many more the second has. -/
  extra : Nat
  /-- What a label carries in the first and in the second. -/
  id : String → String → Prop

namespace Variation

variable (v : Variation)

/-! ## Slots -/

/-- Where a cell lies in the second compilation. -/
def address (a : Int) : Int := if a < v.registers then a else a + v.extra

def offset : Offset → Offset
  | .dynamic a => .dynamic (v.address a)
  | .fixed distance => .fixed distance

/-- The address of the first element of an array, in digits. -/
def first (hex : String) : String :=
  match Word.ofHex? hex with
  | some first => Word.toHex (first + UInt64.ofNat v.extra)
  | none => hex

def slot (s : Slot) : Slot :=
  { s with
    address := v.address s.address
    contents := if s.kind = .array then s.contents.map v.first else s.contents
    offset := s.offset.map v.offset }

section Address

variable {v} {a b : Int}

theorem address_of_lt (inside : a < v.registers) : v.address a = a := if_pos inside

theorem address_of_le (outside : v.registers ≤ a) : v.address a = a + v.extra :=
  if_neg (Int.not_lt.2 outside)

@[simp] theorem address_inj : v.address a = v.address b ↔ a = b := by
  unfold address
  split <;> split <;> omega

@[simp] theorem address_eq_nowhere : v.address a = Slot.nowhere ↔ a = Slot.nowhere := by
  unfold address Slot.nowhere
  split <;> omega

/-- No cell is moved to where the added registers are. -/
theorem address_not_added {n : Nat} (added : v.registers ≤ n) (among : n < v.registers + v.extra) :
    v.address a ≠ n := by
  unfold address
  split <;> omega

@[simp] theorem offset_inj {o o' : Offset} : v.offset o = v.offset o' ↔ o = o' := by
  cases o <;> cases o' <;> simp [offset]

theorem address_of_extra_eq_zero (none : v.extra = 0) (a : Int) : v.address a = a := by
  simp [address, none]

end Address

-- The proofs stand in brackets so that the condition of an `if` is rewritten together with its instance.
@[simp] theorem slot_address (s : Slot) : (v.slot s).address = v.address s.address := (rfl)

@[simp] theorem slot_name (s : Slot) : (v.slot s).name = s.name := (rfl)

@[simp] theorem slot_asmName (s : Slot) : (v.slot s).asmName = s.asmName := (rfl)

@[simp] theorem slot_kind (s : Slot) : (v.slot s).kind = s.kind := (rfl)

@[simp] theorem slot_scope (s : Slot) : (v.slot s).scope = s.scope := (rfl)

@[simp] theorem slot_type (s : Slot) : (v.slot s).type = s.type := (rfl)

@[simp] theorem slot_size (s : Slot) : (v.slot s).size = s.size := (rfl)

@[simp] theorem slot_offset (s : Slot) : (v.slot s).offset = s.offset.map v.offset := (rfl)

theorem slot_contents {s : Slot} (notArray : s.kind ≠ .array) : (v.slot s).contents = s.contents :=
  if_neg notArray

@[simp] theorem slot_isDirect (s : Slot) : (v.slot s).isDirect = s.isDirect := by
  simp [Slot.isDirect]

@[simp] theorem slot_isFrozen (s : Slot) : (v.slot s).isFrozen = s.isFrozen := by
  unfold Slot.isFrozen slot
  dsimp only
  split
  · simp
  · rfl

@[simp] theorem slot_constant? (s : Slot) : (v.slot s).constant? = s.constant? := by
  unfold Slot.constant?
  by_cases isConstant : s.kind = .constant
  · rw [v.slot_contents (by simp [isConstant])]
    rfl
  · simp [isConstant]

@[simp] theorem slot_literal? (s : Slot) : (v.slot s).literal? = s.literal? := by
  simp [Slot.literal?]

@[simp] theorem slot_isUnwritable (s : Slot) : (v.slot s).isUnwritable = s.isUnwritable := by
  simp [Slot.isUnwritable]

@[simp] theorem slot_sameLocation (s s' : Slot) : (v.slot s).sameLocation (v.slot s') = s.sameLocation s' := by
  simp only [Slot.sameLocation, slot_address, slot_isDirect, bne, Bool.beq_eq_decide_eq, address_inj,
    address_eq_nowhere]

theorem slot_withOffset (s : Slot) (offset : Offset) (type : ValueType) :
    v.slot (s.withOffset offset type) = (v.slot s).withOffset (v.offset offset) type := rfl

/-- What has no cell stays as it is. -/
theorem slot_literal (value : Word) : v.slot (Slot.literal value) = Slot.literal value := by
  have nowhere : v.address Slot.nowhere = Slot.nowhere := address_eq_nowhere.2 rfl
  simp [slot, Slot.literal, Slot.fresh, nowhere]

/-- The registers of the first compilation stay where they are. -/
theorem slot_registerSlot {n : Nat} (inside : n < v.registers) :
    v.slot (SlotTable.registerSlot n) = SlotTable.registerSlot n := by
  have same : v.address (n : Int) = n := address_of_lt (by omega)
  simp [slot, SlotTable.registerSlot, Slot.fresh, same]

theorem ofHex?_first (hex : String) :
    Word.ofHex? (v.first hex) = (Word.ofHex? hex).map (· + UInt64.ofNat v.extra) := by
  unfold first
  cases isHex : Word.ofHex? hex with
  | none => simp [isHex]
  | some w => simp

/-- The elements of an array are moved by the added registers. -/
theorem slot_elements {s : Slot} (isArray : s.kind = .array) :
    (v.slot s).contents.bind Word.ofHex? =
      (s.contents.bind Word.ofHex?).map (· + UInt64.ofNat v.extra) := by
  have contents : (v.slot s).contents = s.contents.map v.first := if_pos isArray
  rw [contents]
  cases s.contents with
  | none => rfl
  | some hex => exact v.ofHex?_first hex

/-! ## Operands and places -/

def operand (o : Operand) : Operand := ⟨v.slot o.slot, o.holds.map v.slot⟩

@[simp] theorem operand_isTemp (o : Operand) : (v.operand o).isTemp = o.isTemp := by
  simp [Operand.isTemp, operand, List.any_map, Function.comp_def, Bool.beq_eq_decide_eq]

/-- The image of a place. The names in it stay. -/
def place : Place → Place
  | .direct s => .direct (v.slot s)
  | .indirect base offset holds => .indirect base offset (holds.map v.slot)

/-! ## Nodes -/

mutual

def node : Node → Node
  | .slot s line => .slot (v.slot s) line
  | .deref base type line => .deref (node base) type line
  | .lookup base index type line => .lookup (node base) (node index) type line
  | .assign op target value line => .assign op (node target) (node value) line
  | .binary op left right line => .binary op (node left) (node right) line
  | .unary op operand line => .unary op (node operand) line
  | .compare relation left right line => .compare relation (node left) (node right) line
  | .logic connective left right line => .logic connective (node left) (node right) line
  | .ternary condition yes no line => .ternary (node condition) (node yes) (node no) line
  | .call function args returns line => .call function (nodes args) returns line
  | .host operation args line => .host operation (nodes args) line

def nodes : List Node → List Node
  | [] => []
  | n :: rest => node n :: nodes rest

end

theorem node_literal (value : Word) (line : Nat) : v.node (.literal value line) = .literal value line := by
  simp [Node.literal, node, slot_literal]

@[simp] theorem node_line (n : Node) : (v.node n).line = n.line := by
  cases n <;> rfl

@[simp] theorem node_literal? (n : Node) : (v.node n).literal? = n.literal? := by
  cases n with
  | slot s line => simp [node, Node.literal?]
  | _ => rfl

@[simp] theorem node_isAssignable (n : Node) : (v.node n).isAssignable = n.isAssignable := by
  cases n with
  | slot s line => simp [node, Node.isAssignable]
  | _ => rfl

theorem node_right? (n : Node) : (v.node n).right? = n.right?.map v.node := by
  cases n <;> rfl

@[simp] theorem node_type (n : Node) : (v.node n).type = n.type := by
  induction n with
  | slot s _ => simp [node, Node.type]
  | _ => simp_all [node, Node.type]

theorem nodes_eq (ns : List Node) : v.nodes ns = ns.map v.node := by
  induction ns with
  | nil => rfl
  | cons n rest ih => rw [nodes, ih, List.map_cons]

@[simp] theorem node_hasCall (n : Node) : (v.node n).hasCall = n.hasCall := by
  induction n <;> simp_all [node, Node.hasCall]

@[simp] theorem node_mentions (a : Int) (n : Node) : (v.node n).mentions (v.address a) = n.mentions a := by
  induction n with
  | slot s _ =>
    have sameOffset : (s.offset.map v.offset == some (.dynamic (v.address a))) =
        (s.offset == some (.dynamic a)) := by
      rw [Bool.eq_iff_iff, beq_iff_eq, beq_iff_eq]
      cases s.offset with
      | none => simp
      | some o =>
        rw [Option.map_some, Option.some.injEq, Option.some.injEq]
        show v.offset o = v.offset (.dynamic a) ↔ _
        exact offset_inj
    simp [node, Node.mentions, sameOffset, Bool.beq_eq_decide_eq]
  | call _ args _ _ ih | host _ args _ ih =>
    rw [node, Node.mentions, Node.mentions, nodes_eq, Node.anyMentions_eq, Node.anyMentions_eq, List.any_map]
    grind
  | _ => simp_all [node, Node.mentions]

@[simp] theorem node_postDepth (n : Node) : (v.node n).postDepth = n.postDepth := by
  have all : ∀ ns : List Node, (∀ n ∈ ns, (v.node n).postDepth = n.postDepth) →
      Node.maxPostDepth (v.nodes ns) = Node.maxPostDepth ns := by
    intro ns each
    induction ns with
    | nil => rfl
    | cons n rest ih => simp_all [nodes, Node.maxPostDepth]
  induction n with
  | unary op operand _ ih => simp only [node, Node.postDepth, ih]
  | call _ args _ _ ih | host _ args _ ih => exact all args ih
  | _ => simp_all [node, Node.postDepth]

/-! ## Lines -/

/-- A label of the first compilation and its name in the second. -/
inductive Labels : String → String → Prop where
  | mark (m : Mark) {id id' : String} : v.id id id' → Labels (m.text id) (m.text id')

/-- A line of the first compilation and what stands there in the second. Functions keep their labels. -/
inductive Lines : Instr → Instr → Prop where
  | same {i : Instr} (noLabel : Instr.labels [i] = []) (noTarget : i.target? = none) : Lines i i
  | function (name : String) :
    Lines (.label (Codegen.functionLabel name)) (.label (Codegen.functionLabel name))
  | label {l l' : String} : v.Labels l l' → Lines (.label l) (.label l')
  | jump {l l' : String} : v.Labels l l' → Lines (.jump l) (.jump l')
  | branchZero (src : String) {l l' : String} : v.Labels l l' → Lines (.branchZero src l) (.branchZero src l')
  | branchNonzero (src : String) {l l' : String} :
    v.Labels l l' → Lines (.branchNonzero src l) (.branchNonzero src l')
  | branch (relation : Relation) (left right : String) {l l' : String} :
    v.Labels l l' → Lines (.branch relation left right l) (.branch relation left right l')

/-- Where labels carry the same, the code is the same. -/
theorem Lines.eq {v : Variation} (sameId : ∀ id id', v.id id id' → id = id') {code code' : List Instr}
    (related : List.Forall₂ v.Lines code code') : code = code' := by
  have sameLabel : ∀ l l', v.Labels l l' → l = l' := by
    rintro _ _ ⟨m, related⟩
    rw [sameId _ _ related]
  have sameLine : ∀ i i', v.Lines i i' → i = i' := by
    rintro _ _ (_ | _ | related | related | ⟨_, related⟩ | ⟨_, related⟩ | ⟨_, _, _, related⟩)
    · rfl
    · rfl
    all_goals rw [sameLabel _ _ related]
  exact List.forall₂_eq_eq_eq ▸ related.imp sameLine

end Variation

/-! ## Comments -/

namespace Instr

def isComment : Instr → Bool
  | comment _ => true
  | _ => false

def uncommented (code : List Instr) : List Instr := code.filter (!·.isComment)

@[simp] theorem uncommented_append (code rest : List Instr) :
    uncommented (code ++ rest) = uncommented code ++ uncommented rest := List.filter_append _ _

theorem uncommented_of_none {code : List Instr} (none : ∀ i ∈ code, i.isComment = false) :
    uncommented code = code :=
  List.filter_eq_self.2 fun i mem => by simp [none i mem]

end Instr

/-- Two compilations of one contract: how the second differs from the first, whether it leaves the comments
out, and whether there are any in the code that is looked at. -/
structure Pairing extends Variation where
  bare : Bool
  quiet : Prop

namespace Pairing

variable {v : Pairing} {code code' rest rest' : List Instr}

/-- The lines of the first compilation that the second has. -/
def visible (v : Pairing) (code : List Instr) : List Instr := if v.bare then Instr.uncommented code else code

theorem visible_append (code rest : List Instr) : v.visible (code ++ rest) = v.visible code ++ v.visible rest := by
  unfold visible
  split
  · exact Instr.uncommented_append code rest
  · rfl

theorem visible_of_none (none : Instr.uncommented code = code) : v.visible code = code := by
  unfold visible
  split
  · exact none
  · rfl

/-- Some code of the first compilation and that of the second. -/
structure Code (v : Pairing) (code code' : List Instr) : Prop where
  lines : List.Forall₂ v.Lines (v.visible code) code'
  quiet : v.quiet → Instr.uncommented code = code

namespace Code

theorem of_none (none : Instr.uncommented code = code) (lines : List.Forall₂ v.Lines code code') :
    v.Code code code' := ⟨(visible_of_none none).symm ▸ lines, fun _ => none⟩

theorem nil : v.Code [] [] := of_none rfl .nil

theorem append (first : v.Code code code') (second : v.Code rest rest') :
    v.Code (code ++ rest) (code' ++ rest') where
  lines := visible_append code rest ▸ List.rel_append first.lines second.lines
  quiet isQuiet := by rw [Instr.uncommented_append, first.quiet isQuiet, second.quiet isQuiet]

/-- A line that is no comment. -/
theorem line {i i' : Instr} (lines : v.Lines i i') (noComment : i.isComment = false) :
    v.Code [i] [i'] :=
  of_none (Instr.uncommented_of_none (List.forall_mem_singleton.2 noComment)) (.cons lines .nil)

/-- Lines without labels stay. -/
theorem refl (stay : ∀ i ∈ code, i.isComment = false ∧ Instr.labels [i] = [] ∧ i.target? = none) :
    v.Code code code :=
  of_none (Instr.uncommented_of_none fun i mem => (stay i mem).1)
    (List.forall₂_same.2 fun i mem => .same (stay i mem).2.1 (stay i mem).2.2)

/-- Lines of one kind that carry no label stay. -/
theorem map {α : Type} {f : α → Instr}
    (stay : ∀ x, (f x).isComment = false ∧ Instr.labels [f x] = [] ∧ (f x).target? = none) (l : List α) :
    v.Code (l.map f) (l.map f) := by
  refine refl fun i mem => ?_
  obtain ⟨x, -, rfl⟩ := List.mem_map.1 mem
  exact stay x

/-- What is known without comments is known. -/
theorem ofQuiet (code_ : ({ v with quiet := True } : Pairing).Code code code') : v.Code code code' :=
  ⟨code_.lines, fun _ => code_.quiet trivial⟩

end Code

end Pairing

end ContractCompiler
