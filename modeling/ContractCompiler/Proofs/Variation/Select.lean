import ContractCompiler.Proofs.Codegen.Straight
import ContractCompiler.Proofs.Variation.Codegen

/-!
# Proofs.Variation.Select — single operations agree

An operation on slots and the same operation on their images agree. The one address that an operation
computes is that of an array's element at a fixed index; it is moved as the elements are.
-/

namespace ContractCompiler

set_option autoImplicit false

theorem Word.toNat_of_toSigned_nonneg {w : Word} (nonneg : 0 ≤ w.toSigned) :
    w.toNat < 9223372036854775808 := by
  have cond : w.toSigned = if 2 * w.toNat < 18446744073709551616 then (w.toNat : Int)
      else (w.toNat : Int) - 18446744073709551616 := BitVec.toInt_eq_toNat_cond w.toBitVec
  have below : w.toNat < 18446744073709551616 := w.toNat_lt
  split at cond <;> omega

/-- Adding to a word that stays small adds to the number. -/
theorem Word.toSigned_add {w : Word} {n : Nat} (nonneg : 0 ≤ w.toSigned)
    (small : w.toSigned + n < 9223372036854775808) :
    (w + UInt64.ofNat n).toSigned = w.toSigned + n := by
  have inside := toNat_of_toSigned_nonneg nonneg
  rw [toSigned_of_lt inside, Int.ofNat_eq_natCast] at small ⊢
  have sum : (w + UInt64.ofNat n).toNat = w.toNat + n := by
    rw [UInt64.toNat_add, UInt64.toNat_ofNat']
    omega
  rw [toSigned_of_lt (by omega), sum]
  rfl

namespace Pairing

open Codegen Variation

variable {v : Pairing} {α β : Type}

abbrev Operands (v : Pairing) (o o' : Operand) : Prop := o' = v.operand o

abbrev Slots (v : Pairing) (s s' : Slot) : Prop := s' = v.slot s

/-! ## Operands -/

theorem operand_holds_isEmpty (o : Operand) : (v.operand o).holds.isEmpty = o.holds.isEmpty :=
  List.isEmpty_map

/-- Giving up what two operands hold. -/
theorem releaseBoth_agrees (l r : Operand) :
    v.Agree Eq (release (l.holds ++ r.holds)) (release ((v.operand l).holds ++ (v.operand r).holds)) := by
  have held : (v.operand l).holds ++ (v.operand r).holds = (l.holds ++ r.holds).map v.slot :=
    List.map_append.symm
  rw [held]
  exact .release _

section Operands

variable (line : Nat)

theorem literal_agrees (value : Word) : v.Agree v.Operands (literal value line) (literal value line) := by
  refine .bind (.intern value) ?_
  rintro kept _ rfl
  cases kept with
  | some s => exact .pure rfl
  | none =>
    refine .bind (.allocate line) ?_
    rintro r _ rfl
    dsimp only
    split
    · exact .bind (.same rfl rfl rfl) fun _ _ _ => .pure rfl
    · exact .bind (.same rfl rfl rfl) fun _ _ _ => .pure rfl

theorem element_agrees {array : Slot} (isArray : array.kind = .array) (index : Word) :
    v.Agree v.Slots (element array index line) (element (v.slot array) index line) := by
  unfold element
  rw [v.slot_elements isArray]
  cases array.contents.bind Word.ofHex? with
  | none => exact .fail _
  | some first =>
    refine .bind .table fun t t' related => ?_
    obtain ⟨tables, small⟩ := related
    dsimp only
    have reordered : first + UInt64.ofNat v.extra + index = first + index + UInt64.ofNat v.extra := by
      rw [UInt64.add_assoc, UInt64.add_comm (UInt64.ofNat v.extra), ← UInt64.add_assoc]
    rw [reordered]
    by_cases none : v.extra = 0
    · have same : t'.get? (Word.toSigned (first + index + UInt64.ofNat v.extra)) =
          (t.get? (Word.toSigned (first + index))).map v.slot := by
        rw [← tables.get?, address_of_extra_eq_zero none, none]
        simp
      rw [same]
      cases t.get? (Word.toSigned (first + index)) with
      | none => exact .fail _
      | some s =>
        simp only [Option.map_some, slot_kind, slot_scope]
        split
        · exact .pure rfl
        · exact .fail _
    · cases found : t.get? (Word.toSigned (first + index)) with
      | none => exact .failOnce none _ _
      | some s =>
        dsimp only
        split
        · rename_i isElement
          obtain ⟨stored, isAddress, somewhere⟩ := SlotTable.Valid.get?_eq_some found
          have moved := tables.moved stored (by simp [isElement.1])
          have behind : (v.registers : Int) ≤ s.address :=
            moved.address.resolve_left (isAddress ▸ somewhere)
          have small := small.resolve_left none s stored isElement.1
          rw [isAddress] at behind small
          have found' := tables.get? (Word.toSigned (first + index))
          rw [address_of_le behind, found] at found'
          rw [Word.toSigned_add (by omega) small, found']
          simp only [Option.map_some, slot_kind, slot_scope, isElement, and_self, if_true]
          exact .pure rfl
        · exact .failOnce none _ _

theorem nameAt_agrees (a : Int) : v.Agree Eq (nameAt a line) (nameAt (v.address a) line) := by
  refine .bind .table fun t t' related => ?_
  rw [related.1.get?]
  cases t.get? a with
  | some s => exact .pure rfl
  | none => exact .failAs fun none => by rw [address_of_extra_eq_zero none]

theorem placeThrough_agrees (base : String) (offset : Offset) :
    v.Agree (fun p p' => p' = v.place p) (placeThrough base offset line)
      (placeThrough base (v.offset offset) line) := by
  cases offset with
  | dynamic a =>
    refine .bind (nameAt_agrees line a) ?_
    rintro name _ rfl
    exact .pure rfl
  | fixed distance =>
    unfold placeThrough
    simp only [Variation.offset]
    split
    · exact .pure rfl
    · refine .bind (literal_agrees line distance) ?_
      rintro o _ rfl
      exact .pure rfl

theorem place_agrees (s : Slot) :
    v.Agree (fun p p' => p' = v.place p) (Codegen.place s line) (Codegen.place (v.slot s) line) := by
  unfold Codegen.place
  rw [slot_offset, slot_kind]
  cases s.offset with
  | none => exact .pure rfl
  | some offset =>
    cases kind : s.kind with
    | array =>
      cases offset with
      | fixed index =>
        refine .bind (element_agrees line kind index) ?_
        rintro e _ rfl
        exact .pure rfl
      | dynamic a => exact placeThrough_agrees line _ _
    | struct => cases offset <;> exact .fail _
    | constant => cases offset <;> exact .fail _
    | _ => cases offset <;> exact placeThrough_agrees line _ _

theorem resolve_agrees (s : Slot) : v.Agree v.Operands (resolve s line) (resolve (v.slot s) line) := by
  unfold resolve
  simp only [slot_kind, slot_address, address_eq_nowhere, slot_constant?]
  split
  · cases s.constant? with
    | some value => exact literal_agrees line value
    | none => exact .fail _
  · refine .bind (place_agrees line s) ?_
    rintro p _ rfl
    cases p with
    | direct s => exact .pure rfl
    | indirect base offset holds =>
      refine .bind (.holding holds (.allocate line)) ?_
      rintro r _ rfl
      exact .bind (.same rfl rfl rfl) fun _ _ _ => .bind (.giveBack holds line) fun _ _ _ => .pure rfl

end Operands

/-! ## Operations -/

section Operations

variable (line : Nat)

theorem setLiteral_agrees (dest : String) (value : Word) :
    v.Agree Eq (setLiteral dest value) (setLiteral dest value) := by
  unfold setLiteral
  split
  · exact .same rfl rfl rfl
  · refine .bind .table fun t t' related => ?_
    rw [related.1.interned?]
    cases t.interned? value with
    | some s => exact .same rfl rfl rfl
    | none => exact .same rfl rfl rfl

theorem setCell_agrees (dest source : Slot) :
    v.Agree Eq (setCell dest source line) (setCell (v.slot dest) (v.slot source) line) := by
  unfold setCell
  rw [slot_sameLocation, slot_literal?]
  split
  · exact .pure rfl
  · cases source.literal? with
    | some value => exact setLiteral_agrees dest.asmName value
    | none =>
      refine .bind (place_agrees line source) ?_
      rintro p _ rfl
      cases p with
      | direct src =>
        simp only [Variation.place, slot_sameLocation]
        split
        · exact .pure rfl
        · exact .same rfl rfl rfl
      | indirect base offset holds => exact .bind (.same rfl rfl rfl) fun _ _ _ => .giveBack holds line

theorem assign_agrees (target source : Slot) :
    v.Agree Eq (Codegen.assign target source line) (Codegen.assign (v.slot target) (v.slot source) line) := by
  unfold Codegen.assign
  rw [slot_isUnwritable]
  split
  · exact .fail _
  · refine .bind (place_agrees line target) ?_
    rintro p _ rfl
    cases p with
    | direct dest => exact setCell_agrees line dest source
    | indirect base offset holds =>
      refine .bind (.holding holds (resolve_agrees line source)) ?_
      rintro src _ rfl
      exact .bind (.same rfl rfl rfl) fun _ _ _ => .bind (.giveBack holds line) fun _ _ _ => .release src.holds

theorem writeBack_agrees (target : Slot) (o : Operand) :
    v.Agree Eq (writeBack target o line) (writeBack (v.slot target) (v.operand o) line) := by
  unfold writeBack
  rw [operand_holds_isEmpty]
  split
  · exact .pure rfl
  · exact .bind (.holding o.holds (assign_agrees line target o.slot)) fun _ _ _ => .giveBack o.holds line

omit line in
theorem cheap?_stays {op : BinaryOp} {value : Word} {twoKept : Bool} {dest : String} {code : List Instr}
    (cheap : op.cheap? value twoKept dest = some code) :
    ∀ i ∈ code, i.isComment = false ∧ Instr.labels [i] = [] ∧ i.target? = none := by
  unfold BinaryOp.cheap? at cheap
  repeat' split at cheap
  all_goals first | cases cheap; simp [Instr.isComment, Instr.labels, Instr.target?] | cases cheap

theorem operate_agrees (op : BinaryOp) (left right : Slot) :
    v.Agree Eq (operate op left right line) (operate op (v.slot left) (v.slot right) line) := by
  unfold operate
  rw [slot_kind]
  split
  · exact .fail _
  · refine .bind (resolve_agrees line left) ?_
    rintro dest _ rfl
    refine .bind .table fun t t' related => ?_
    have name : (v.operand dest).slot.asmName = dest.slot.asmName := rfl
    have finish : v.Agree Eq (writeBack left dest line) (writeBack (v.slot left) (v.operand dest) line) :=
      writeBack_agrees line left dest
    rw [related.1.interned?, Option.isSome_map, slot_literal?, name]
    dsimp only
    cases isCheap : right.literal?.bind fun value =>
        op.cheap? value (t.interned? 2).isSome dest.slot.asmName with
    | some code =>
      obtain ⟨value, -, cheap⟩ := Option.bind_eq_some_iff.1 isCheap
      exact .bind (.emitAll (.refl (cheap?_stays cheap))) fun _ _ _ => finish
    | none =>
      refine .bind (.holding dest.holds (resolve_agrees line right)) ?_
      rintro src _ rfl
      exact .bind (.same rfl rfl rfl) fun _ _ _ => .bind (.giveBack src.holds line) fun _ _ _ => finish

theorem update_agrees (u : Update) (target : Slot) :
    v.Agree Eq (Codegen.update u target line) (Codegen.update u (v.slot target) line) := by
  unfold Codegen.update
  rw [slot_isUnwritable]
  split
  · exact .fail _
  · refine .bind (resolve_agrees line target) ?_
    rintro dest _ rfl
    refine .bind (R := Eq) ?_ fun _ _ _ => writeBack_agrees line target dest
    cases u with
    | step s => cases s <;> exact .same rfl rfl rfl
    | complement => exact .same rfl rfl rfl

theorem push_agrees (s : Slot) : v.Agree Eq (Codegen.push s line) (Codegen.push (v.slot s) line) := by
  refine .bind (resolve_agrees line s) ?_
  rintro o _ rfl
  exact .bind (.same rfl rfl rfl) fun _ _ _ => .release o.holds

end Operations

/-! ## Jumps on slots -/

section Jumps

variable (line : Nat) {target target' : String} (labels : v.Labels target target')
include labels

theorem jumpIfZero_agrees (isZero : Bool) (tested : Slot) :
    v.Agree Eq (jumpIfZero isZero tested target line) (jumpIfZero isZero (v.slot tested) target' line) := by
  refine .bind (resolve_agrees line tested) ?_
  rintro o _ rfl
  dsimp only
  split
  · exact .bind (.emit (.branchZero _ labels) rfl) fun _ _ _ => .release o.holds
  · exact .bind (.emit (.branchNonzero _ labels) rfl) fun _ _ _ => .release o.holds

theorem jumpIf_agrees (relation : Relation) (left right : Slot) :
    v.Agree Eq (jumpIf relation left right target line)
      (jumpIf relation (v.slot left) (v.slot right) target' line) := by
  refine .bind (resolve_agrees line left) ?_
  rintro l _ rfl
  refine .bind (.holding l.holds (resolve_agrees line right)) ?_
  rintro r _ rfl
  exact .bind (.emit (.branch _ _ _ labels) rfl) fun _ _ _ => releaseBoth_agrees l r

theorem compare_agrees (relation : Relation) (left : Slot) (right : Option Slot) :
    v.Agree Eq (Codegen.compare relation left right target line)
      (Codegen.compare relation (v.slot left) (right.map v.slot) target' line) := by
  unfold Codegen.compare
  dsimp only
  split
  · cases right with
    | none => exact jumpIfZero_agrees line labels _ left
    | some right =>
      simp only [Option.map_some, slot_literal?]
      split
      · exact jumpIfZero_agrees line labels _ left
      · split
        · exact jumpIfZero_agrees line labels _ right
        · exact jumpIf_agrees line labels relation left right
  · cases right with
    | none => exact .fail _
    | some right => exact jumpIf_agrees line labels relation left right

end Jumps

/-! ## Control -/

section Control

variable (line : Nat)

theorem leaveLoop_agrees (word : Control) (mark : Mark) (isLoop : mark.stem = "__loop") :
    v.Agree Eq (leaveLoop word mark.ending line) (leaveLoop word mark.ending line) := by
  refine .bind .context fun ctx ctx' contexts => ?_
  have loop := contexts.loop
  generalize ctx.loop = label, ctx'.loop = label' at loop
  cases loop with
  | none => exact .fail _
  | some loops =>
    obtain ⟨ids⟩ := loops
    have labels := Labels.mark mark ids
    rw [Mark.text, Mark.text, isLoop] at labels
    exact .emit (.jump labels) rfl

theorem control_agrees (word : Control) (value : Option Slot) :
    v.Agree Eq (Codegen.control word value line) (Codegen.control word (value.map v.slot) line) := by
  unfold Codegen.control
  cases word with
  | return_ =>
    refine .bind .calledFunction ?_
    rintro function _ rfl
    dsimp only
    split
    · exact .same rfl rfl rfl
    · cases value with
      | none => exact .bind (.pure rfl) fun _ _ _ => .same rfl rfl rfl
      | some s => exact .bind (push_agrees line s) fun _ _ _ => .same rfl rfl rfl
  | break_ => exact leaveLoop_agrees line .break_ .loopBreak rfl
  | continue_ => exact leaveLoop_agrees line .continue_ .loopContinue rfl
  | exit => exact .same rfl rfl rfl
  | halt => exact .same rfl rfl rfl
  | sleep =>
    cases value with
    | none => exact .fail _
    | some s =>
      refine .bind (resolve_agrees line s) ?_
      rintro o _ rfl
      exact .bind (.same rfl rfl rfl) fun _ _ _ => .release o.holds

end Control

/-! ## Registers for values -/

section Deferred

variable (line : Nat)

theorem direct_agrees (o : Operand) :
    v.Agree v.Operands (direct o line) (direct (v.operand o) line) := by
  refine .bind (resolve_agrees line o.slot) ?_
  rintro found _ rfl
  rw [operand_holds_isEmpty]
  split
  · exact .pure rfl
  · exact .bind (.release o.holds) fun _ _ _ => .pure rfl

theorem toTemp_agrees (o : Operand) :
    v.Agree v.Operands (toTemp o line) (toTemp (v.operand o) line) := by
  refine .bind (direct_agrees line o) ?_
  rintro o _ rfl
  rw [operand_isTemp]
  split
  · exact .pure rfl
  · refine .bind (.allocate line) ?_
    rintro r _ rfl
    exact .bind (assign_agrees line r o.slot) fun _ _ _ => .bind (.release o.holds) fun _ _ _ => .pure rfl

theorem protect_agrees (o : Operand) :
    v.Agree v.Operands (protect o line) (protect (v.operand o) line) := by
  unfold protect
  have kind : (v.operand o).slot.kind = o.slot.kind := rfl
  rw [operand_isTemp, kind]
  split
  · exact .pure rfl
  · exact toTemp_agrees line o

variable {eval eval' : Node → Codegen Operand}
  (evals : ∀ n, v.Agree v.Operands (eval n) (eval' (v.node n)))
include evals

theorem doSteps_agrees (steps : List (Step × Node)) :
    v.Agree Eq (doSteps eval line steps) (doSteps eval' line (steps.map v.step)) := by
  induction steps with
  | nil => exact .pure rfl
  | cons d rest ih =>
    refine .bind (evals d.2) ?_
    rintro o _ rfl
    exact .bind (update_agrees line _ o.slot) fun _ _ _ => .bind (.release o.holds) fun _ _ _ => ih

theorem applyDeferred_agrees (mark : Nat) :
    v.Agree Eq (applyDeferred eval mark line) (applyDeferred eval' mark line) := by
  refine .bind (.takeDeferred mark) ?_
  rintro steps _ rfl
  exact doSteps_agrees line evals steps

end Deferred

end Pairing

end ContractCompiler
