import ContractCompiler.Codegen.Deferred
import ContractCompiler.Proofs.Codegen.Made

/-!
# Proofs.Codegen.Made.Operation — what the code of single operations is made of

A slot that may be read can be brought into a cell that a line may name, and the operations on such slots
are made as `Codegen.Made` says. They hold no register afterwards, ended or refused.
-/

namespace ContractCompiler

set_option autoImplicit false

namespace SlotTable

/-- The element of an array that starts at an address. -/
def elementFrom (t : SlotTable) (array : Slot) (first index : Word) (line : Nat) : Outcome Slot :=
  match t.get? (Word.toSigned (first + index)) with
  | some e =>
    if e.kind = .long ∧ e.scope = array.scope then .ok e
    else .error (.defect line (.elementMissing index.toNat array.asmName))
  | none => .error (.defect line (.elementMissing index.toNat array.asmName))

def nameFrom (t : SlotTable) (a : Int) (line : Nat) : Outcome String :=
  match t.get? a with
  | some e => .ok e.asmName
  | none => .error (.defect line (.noSlotAt a))

end SlotTable

namespace Codegen

variable {W : World} {C : Prop} {d k : Nat} {line : Nat} {s : Slot}

/-! ## Operands -/

section Operands

variable (atLine : W.inside line)
include atLine

theorem literal_made (value : Word) :
    Single W C d k Operand.holds (fun o => W.Cell o.slot) (literal value line) := by
  refine .bind (.intern value) fun kept => ?_
  split
  · exact .pure (.refl _) fun known => known.2 _ rfl
  · refine .bind (.allocate atLine) fun r => ?_
    dsimp only
    split <;> exact .next (.emit (by simp [Instr.isStep]) fun known =>
      List.forall_mem_singleton.2 known.2.1.named) fun _ => .pure (.refl _) fun known => known.2.1

/-- An element of an array is a cell of its own. -/
theorem element_made {index : Word} (array : s.kind = .array) (view : s.offset = some (.fixed index))
    (reads : C → W.Reads s) :
    Single W C d k (fun _ => []) (fun e => W.Cell e ∧ e.kind = .long) (element s index line) := by
  have notLiteral : s.literal? = none := by simp [Slot.literal?, Slot.constant?, array]
  unfold element
  split
  · rename_i noBase
    refine .fail atLine fun known isStrict => ?_
    obtain ⟨first, contents, -⟩ := ((reads known).rooted notLiteral isStrict).elements array
    cases contents.symm.trans noBase
  · rename_i first isFirst
    refine .look (·.elementFrom s first index line) (fun ctx st => ?_) (fun u e refused => ?_)
      (fun u e found known here => ?_) fun e refused known isStrict => ?_
    · simp only [Bind.bind, Codegen.bind, table, state, Pure.pure, Codegen.pure, SlotTable.elementFrom]
      cases st.table.get? (Word.toSigned (first + index)) with
      | none => rfl
      | some e =>
        by_cases isElement : e.kind = .long ∧ e.scope = s.scope
        · simp only [if_pos isElement]
          rfl
        · simp only [if_neg isElement]
          rfl
    · unfold SlotTable.elementFrom at refused
      repeat' split at refused
      all_goals first | cases refused; exact atLine | cases refused
    · unfold SlotTable.elementFrom at found
      split at found
      · rename_i isSlot
        split at found
        · rename_i isElement
          cases found
          have here' : W.At (Word.toSigned (first + index)) :=
            (reads known).touched _ (by simp [Slot.touches, view, array, isFirst])
          obtain ⟨stored, -⟩ := SlotTable.Valid.get?_eq_some isSlot
          exact ⟨here.cell stored (by simp [isElement.1]) (by simp [isElement.1]) (here'.names here isSlot),
            isElement.1⟩
        · cases found
      · cases found
    · -- the world has all the elements of the array
      have inside := ((reads known).view notLiteral isStrict view).2 array
      obtain ⟨first', contents, elements⟩ := ((reads known).rooted notLiteral isStrict).elements array
      obtain rfl : first' = first := Option.some.inj (contents.symm.trans isFirst)
      obtain ⟨e', stored, long, scope, address⟩ := elements index inside
      rw [SlotTable.elementFrom, ← address, W.valid.get?_address stored (by simp [long])] at refused
      simp [long, scope] at refused

theorem nameAt_made {a : Int} (here : C → W.At a) (inside : C → W.strict → W.table.HasCell a) :
    Single W C d k (fun _ => []) W.names (nameAt a line) := by
  refine .look (·.nameFrom a line) (fun ctx st => ?_) (fun u e refused => ?_)
    (fun u name found known here' => ?_) fun e refused known isStrict => ?_
  · simp only [nameAt, Bind.bind, Codegen.bind, table, state, Pure.pure, Codegen.pure, SlotTable.nameFrom]
    cases st.table.get? a <;> rfl
  · unfold SlotTable.nameFrom at refused
    split at refused <;> cases refused
    exact atLine
  · unfold SlotTable.nameFrom at found
    split at found
    · rename_i isSlot
      cases found
      exact (here known).names here' isSlot
    · cases found
  · obtain ⟨e', found⟩ := (inside known isStrict).get? W.valid
    rw [SlotTable.nameFrom, found] at refused
    cases refused

/-- The place of a slot that is no literal. -/
theorem place_made (reads : C → W.Reads s) (notLiteral : C → s.literal? = none) :
    Single W C d k Place.holds (W.Placed s) (place s line) := by
  unfold place
  split
  · rename_i direct
    refine .pure (.refl _) fun known => ⟨⟨direct, (reads known).name (notLiteral known), ?_, fun isStrict => ?_⟩,
      fun _ => id, fun _ => id⟩
    · exact (reads known).touched _ List.mem_cons_self
    · exact (reads known).rooted (notLiteral known) isStrict
  · rename_i isView array
    exact .bind (element_made atLine array isView reads) fun e => .pure (.refl _) fun known =>
      known.2.1.stands (.inl known.2.2)
  · exact .fail atLine fun known isStrict =>
      absurd ‹_› ((reads known).rooted (notLiteral known) isStrict).kind_ne_struct
  · rename_i isView constant
    exact .fail atLine fun known isStrict => absurd constant ((reads known).view (notLiteral known) isStrict isView).1
  · rename_i offset isView _ _ _
    unfold placeThrough
    split
    · refine .bind (nameAt_made atLine (fun known => ?_) fun known isStrict => ?_) fun name =>
        .pure (.refl _) fun known => ⟨(reads known.1).name (notLiteral known.1), by simpa using known.2⟩
      · exact (reads known).touched _ (by simp [Slot.touches, isView])
      · exact ((reads known).view (notLiteral known) isStrict isView).2
    · split
      · exact .pure (.refl _) fun known => ⟨(reads known).name (notLiteral known), by simp⟩
      · exact .bind (literal_made atLine _) fun o => .pure (.refl _) fun known =>
          ⟨(reads known.1).name (notLiteral known.1), by simpa using known.2.named⟩

theorem resolve_made (reads : C → W.Reads s) :
    Single W C d k Operand.holds (fun o => W.Stands s o.slot) (resolve s line) := by
  unfold resolve
  split
  · rename_i isConstant
    split
    · refine .weaken id (fun o _ cell => ⟨cell, fun _ writable => ?_, fun _ notConstant => ?_⟩)
        (literal_made atLine _)
      · simp [Slot.isUnwritable, isConstant.1] at writable
      · exact absurd isConstant.1 notConstant
    · rename_i noValue
      refine .fail atLine fun known isStrict => ?_
      rcases (reads known).accessible isStrict with ⟨isLiteral, -⟩ | ⟨rooted, -⟩
      · simp [Slot.literal?, noValue] at isLiteral
      · exact absurd isConstant.2 (rooted.somewhere W.valid)
  · rename_i notConstant
    have notLiteral : s.literal? = none := by
      by_contra isLiteral
      exact notConstant (Slot.kind_of_literal? (Option.isSome_iff_ne_none.2 isLiteral))
    refine .bind (place_made atLine reads fun _ => notLiteral) fun found => ?_
    split
    · exact .pure (.refl _) fun known => known.2
    · refine .bind (.holding (.refl _) (.allocate atLine)) fun r => .next (.emit rfl fun known => ?_) fun _ =>
        .next (.giveBack atLine List.perm_append_comm) fun _ => .pure (.refl _) fun known => known.2.stands
      exact List.forall_mem_cons.2 ⟨known.2.1.named, List.forall_mem_cons.2 known.1.2⟩

/-- Bringing a slot into a cell while registers are held, which are given back if it is refused. -/
theorem holding_resolve_made (rs : List Slot) (reads : C → W.Reads s) :
    Made W C d k rs [] (some []) (fun o => rs ++ o.holds) (fun o => W.Stands s o.slot)
      (holding rs (resolve s line)) :=
  .holding (.refl _) (.frame (fun _ => .refl _) (resolve_made atLine reads))

end Operands

/-! ## Operations -/

theorem cheap?_lines {op : BinaryOp} {value : Word} {twoKept : Bool} {dest : String} {code : List Instr}
    (cheap : op.cheap? value twoKept dest = some code) :
    ∀ i ∈ code, i.isStep = true ∧ i.operands = [dest] := by
  unfold BinaryOp.cheap? at cheap
  repeat' split at cheap
  all_goals first | cases cheap; simp [Instr.isStep, Instr.operands] | cases cheap

theorem setLiteral_made {dest : String} (named : C → W.names dest) (value : Word) :
    Acts W C d k (setLiteral dest value) := by
  unfold setLiteral
  split
  · exact .emit rfl fun known => List.forall_mem_singleton.2 (named known)
  · refine .bind .table fun u => ?_
    split
    · rename_i kept
      obtain ⟨stored, constant, -⟩ := SlotTable.interned?_eq_some kept
      exact .emit rfl fun known => List.forall_mem_cons.2
        ⟨named known.1, List.forall_mem_singleton.2 (known.2.own stored (.inr constant)).named⟩
    · exact .emit (Word.isText_toHex value) fun known => List.forall_mem_singleton.2 (named known.1)

section Operations

variable (atLine : W.inside line)
include atLine

theorem setCell_made {dest source : Slot} (named : C → W.names dest.asmName) (reads : C → W.Reads source) :
    Acts W C d k (setCell dest source line) := by
  unfold setCell
  split
  · exact .done
  · split
    · exact setLiteral_made named _
    · rename_i notLiteral
      refine .bind (place_made atLine reads fun _ => notLiteral) fun found => ?_
      split
      · split
        · exact .done
        · exact .emit rfl fun known => List.forall_mem_cons.2
            ⟨named known.1, List.forall_mem_singleton.2 known.2.named⟩
      · exact .next (.emit rfl fun known => List.forall_mem_cons.2 ⟨named known.1, List.forall_mem_cons.2 known.2⟩)
          fun _ => .giveBack atLine (.refl _)

theorem assign_made {target source : Slot} (writes : C → W.Reads target) (reads : C → W.Reads source) :
    Acts W C d k (assign target source line) := by
  unfold assign
  split
  · exact .fail atLine fun _ _ => rfl
  · rename_i writable
    refine .bind (place_made atLine writes fun _ => literal?_eq_none_of_writable writable) fun found => ?_
    split
    · exact setCell_made atLine (fun known => known.2.named) fun known => reads known.1
    · refine .bind (holding_resolve_made atLine _ fun known => reads known.1) fun src =>
        .next (.emit rfl fun known => ?_) fun _ => .next (.giveBack atLine List.perm_append_comm) fun _ =>
          .release (.refl _)
      exact List.forall_mem_cons.2 ⟨known.1.2.1, List.forall_mem_cons.2 ⟨known.2.named, known.1.2.2⟩⟩

/-- What was loaded is given back, whether it can be written back or not. -/
theorem writeBack_made {target : Slot} {o : Operand} (writes : C → W.Reads target)
    (reads : C → W.Reads o.slot) :
    Made W C d k o.holds [] (some []) (fun _ => []) (fun _ => True) (writeBack target o line) := by
  unfold writeBack
  split
  · rename_i none
    rw [List.isEmpty_iff.1 none]
    exact .done
  · exact .next (.holding (.refl _) (.frame (fun _ => .refl _) (assign_made atLine writes reads))) fun _ =>
      .giveBack atLine (by simp)

theorem operate_made (op : BinaryOp) {left right : Slot} (writes : C → W.Reads left)
    (reads : C → W.Reads right) : Acts W C d k (operate op left right line) := by
  unfold operate
  split
  · exact .fail atLine fun _ _ => rfl
  · refine .bind (resolve_made atLine writes) fun dest => .next .table fun t => ?_
    have finish : ∀ {C'}, (C' → C ∧ W.Stands left dest.slot) → Made W C' d k dest.holds [] (some []) (fun _ => [])
        (fun _ => True) (writeBack left dest line) :=
      fun known => writeBack_made atLine (fun h => writes (known h).1) fun h => (known h).2.reads
    dsimp only
    split
    · rename_i code isCheap
      obtain ⟨value, -, cheap⟩ := Option.bind_eq_some_iff.1 isCheap
      have lines := cheap?_lines cheap
      refine .next (.emitAll (fun i mem => (lines i mem).1) fun known i mem => ?_) fun _ => finish id
      rw [(lines i mem).2]
      exact List.forall_mem_singleton.2 known.2.named
    · refine .bind (holding_resolve_made atLine _ fun known => reads known.1) fun src =>
        .next (.emit rfl fun known => ?_) fun _ => .next (.giveBack atLine (.refl _)) fun _ => finish And.left
      exact List.forall_mem_cons.2 ⟨known.1.2.named, List.forall_mem_singleton.2 known.2.named⟩

theorem update_made (u : Update) {target : Slot} (writes : C → W.Reads target) :
    Acts W C d k (update u target line) := by
  unfold update
  split
  · exact .fail atLine fun _ _ => rfl
  · refine .bind (resolve_made atLine writes) fun dest => .next (.emit ?_ fun known => ?_) fun _ =>
      writeBack_made atLine (fun known => writes known.1) fun known => known.2.reads
    · rcases u with (_ | _) | _ <;> rfl
    · rcases u with (_ | _) | _ <;> exact List.forall_mem_singleton.2 known.2.named

theorem jumpIfZero_made (isZero : Bool) {tested : Slot} (reads : C → W.Reads tested) (target : String) :
    Acts W C d k (jumpIfZero isZero tested target line) := by
  refine .bind (resolve_made atLine reads) fun o => ?_
  dsimp only
  split <;> exact .next (.emit rfl fun known => List.forall_mem_singleton.2 known.2.named) fun _ =>
    .release (.refl _)

theorem jumpIf_made (relation : Relation) {left right : Slot} (readsLeft : C → W.Reads left)
    (readsRight : C → W.Reads right) (target : String) :
    Acts W C d k (jumpIf relation left right target line) := by
  refine .bind (resolve_made atLine readsLeft) fun l =>
    .bind (holding_resolve_made atLine _ fun known => readsRight known.1) fun r =>
    .next (.emit rfl fun known => ?_) fun _ => .release (.refl _)
  exact List.forall_mem_cons.2 ⟨known.1.2.named, List.forall_mem_singleton.2 known.2.named⟩

/-- An ordered comparison needs a right side. -/
theorem compare_made (relation : Relation) {left : Slot} {right : Option Slot} (target : String)
    (readsLeft : C → W.Reads left) (readsRight : C → ∀ s, right = some s → W.Reads s)
    (unordered : C → right = none → relation = .eq ∨ relation = .ne) :
    Acts W C d k (compare relation left right target line) := by
  unfold compare
  dsimp only
  split
  · split
    · exact jumpIfZero_made atLine _ readsLeft _
    · have readsRight := fun known => readsRight known _ rfl
      split
      · exact jumpIfZero_made atLine _ readsLeft _
      · split
        · exact jumpIfZero_made atLine _ readsRight _
        · exact jumpIf_made atLine _ readsLeft readsRight _
  · rename_i ordered
    split
    · exact jumpIf_made atLine _ readsLeft (fun known => readsRight known _ rfl) _
    · exact .fail atLine fun known _ => absurd (unordered known rfl) ordered

theorem push_made (reads : C → W.Reads s) : Acts W C d k (push s line) :=
  .bind (resolve_made atLine reads) fun _ =>
    .next (.emit rfl fun known => List.forall_mem_singleton.2 known.2.named) fun _ => .release (.refl _)

theorem leaveLoop_made (word : Control) (ending : String) :
    Acts W C d k (leaveLoop word ending line) := by
  refine .context fun ctx => ?_
  split
  · exact .line rfl rfl
  · exact .fail atLine fun _ _ => rfl

/-- Only `sleep` needs its value. -/
theorem control_made (word : Control) {value : Option Slot} (reads : C → ∀ s, value = some s → W.Reads s)
    (needed : W.strict → word = .sleep → value.isSome = true) :
    Acts W C d k (control word value line) := by
  cases word with
  | return_ =>
    refine .next .calledFunction fun function => ?_
    split
    · exact .line rfl rfl
    · split
      · exact .next (push_made atLine fun known => reads known _ rfl) fun _ => .line rfl rfl
      · exact .next .done fun _ => .line rfl rfl
  | break_ | continue_ => exact leaveLoop_made atLine _ _
  | exit | halt => exact .line rfl rfl
  | sleep =>
    cases value with
    | none => exact .fail atLine fun _ isStrict => by cases needed isStrict rfl
    | some s =>
      exact .bind (resolve_made atLine fun known => reads known s rfl) fun _ =>
        .next (.emit rfl fun known => List.forall_mem_singleton.2 known.2.named) fun _ => .release (.refl _)

end Operations

/-! ## Values in registers -/

section Registers

variable (atLine : W.inside line) (before : List Slot) {o : Operand} (reads : C → W.Reads o.slot)
include atLine reads

theorem direct_made :
    Made W C d k (before ++ o.holds) [] none (fun o' => before ++ o'.holds) (fun o' => W.Stands o.slot o'.slot)
      (direct o line) := by
  refine .bind (.take (resolve_made atLine reads)) fun found => ?_
  split
  · rename_i none
    exact .pure (by simp [List.isEmpty_iff.1 none]) And.right
  · refine .next (.release ?_) fun _ => .pure (.refl _) And.right
    rw [List.append_assoc, List.append_assoc]
    exact List.perm_append_comm.append_left _

theorem toTemp_made :
    Made W C d k (before ++ o.holds) [] none (fun o' => before ++ o'.holds) (fun o' => W.Writes o'.slot)
      (toTemp o line) := by
  refine .bind (direct_made atLine before reads) fun o => ?_
  split
  · rename_i isTemp
    refine .held (.pure (.refl _) fun known => ?_)
    exact known.1.2.reads.writes_of_isTemp (fun r mem => known.2 r (List.mem_append_right _ mem)) isTemp
  · refine .bind (.owed (.allocate atLine)) fun r =>
      .next (.step (assign_made atLine (fun known => known.2.1.reads) fun known => known.1.2.reads)) fun _ =>
      .next (.release ?_) fun _ => .pure (.refl _) fun known => known.2.writes
    rw [List.append_assoc, List.append_assoc]
    exact List.perm_append_comm.append_left _

theorem protect_made :
    Made W C d k (before ++ o.holds) [] none (fun o' => before ++ o'.holds) (fun o' => W.Reads o'.slot)
      (protect o line) := by
  unfold protect
  split
  · exact .pure (.refl _) reads
  · exact .weaken id (fun _ _ writes => writes.toReads) (toTemp_made atLine before reads)

end Registers

end Codegen

end ContractCompiler
