import ContractCompiler.Codegen.Deferred
import ContractCompiler.Proofs.Codegen
import ContractCompiler.Proofs.Flow

/-!
# Proofs.Codegen.Straight — actions that only move words about

The actions on single operands emit lines that are run one after the other: they define no label, jump
nowhere, call nothing and leave the stack alone. They are made from few actions, which `Straight` lists,
and so what these keep is kept by all of them.
-/

namespace ContractCompiler

set_option autoImplicit false

/-- What a line calls: a function by its label, or the host. -/
inductive Callee where
  | function (label : String)
  | host (operation : String)
  deriving DecidableEq, Repr

namespace Instr

def callee? : Instr → Option Callee
  | call target => some (.function target)
  | host _ operation _ => some (.host operation)
  | _ => none

def callees (code : List Instr) : List Callee := code.filterMap callee?

@[simp] theorem callees_nil : callees [] = [] := rfl

@[simp] theorem callees_append (code rest : List Instr) :
    callees (code ++ rest) = callees code ++ callees rest :=
  List.filterMap_append

theorem mem_callees_function {code : List Instr} {target : String} :
    .function target ∈ callees code ↔ .call target ∈ code := by
  constructor
  · intro mem
    obtain ⟨i, listed, isCall⟩ := List.mem_filterMap.1 mem
    cases i with
    | call _ =>
      obtain ⟨⟩ := Option.some.inj isCall
      exact listed
    | host _ _ _ => cases isCall
    | _ => cases isCall
  · intro mem
    exact List.mem_filterMap.2 ⟨_, mem, rfl⟩

end Instr

namespace Codegen

/-- Actions whose lines are run one after the other. -/
inductive Straight : {α : Type} → Codegen α → Prop
  | pure {α : Type} (a : α) : Straight (Codegen.pure a)
  | fail {α : Type} (e : CompileError) : Straight (Codegen.fail e : Codegen α)
  | bind {α β : Type} {m : Codegen α} {f : α → Codegen β} (first : Straight m)
      (rest : ∀ a, Straight (f a)) : Straight (m >>= f)
  | context : Straight Codegen.context
  | state : Straight Codegen.state
  | table : Straight Codegen.table
  | emitAll {code : List Instr} (plain : ∀ i ∈ code, i.isPlain = true)
      (noLabel : Instr.labels code = []) (noCall : Instr.callees code = []) :
      Straight (Codegen.emitAll code)
  | emit {i : Instr} (plain : i.isPlain = true := by rfl) (noLabel : Instr.labels [i] = [] := by rfl)
      (noCall : Instr.callees [i] = [] := by rfl) : Straight (Codegen.emit i)
  | ofOutcome {α : Type} (outcome : Outcome α) : Straight (Codegen.ofOutcome outcome)
  | holding {α : Type} {m : Codegen α} {rs : List Slot} (inner : Straight m) :
      Straight (Codegen.holding rs m)
  | release (rs : List Slot) : Straight (Codegen.release rs)
  | giveBack (rs : List Slot) (line : Nat) : Straight (Codegen.giveBack rs line)
  | allocate (line : Nat) : Straight (Codegen.allocate line)
  | intern (value : Word) : Straight (Codegen.intern value)

/-- The lines of a straight action are plain and call nothing, and it puts no step off. -/
theorem Straight.ends {α : Type} {m : Codegen α} (straight : Straight m) (ctx : Context) (s : State) :
    m.Ends ctx s fun _ code s' =>
      (∀ i ∈ code, i.isPlain = true) ∧ s'.deferred = s.deferred ∧ Instr.callees code = [] := by
  induction straight generalizing s with
  | pure _ => exact .pure ⟨by simp, rfl, rfl⟩
  | fail _ => exact .fail _
  | bind _ _ ih ih' =>
    refine .bind ((ih s).mono ?_)
    rintro a code s₁ ⟨plain, same, none⟩
    refine (ih' a s₁).mono ?_
    rintro _ code' s₂ ⟨plain', same', none'⟩
    exact ⟨List.forall_mem_append.2 ⟨plain, plain'⟩, same'.trans same, by simp [none, none']⟩
  | context | state | table => exact .of rfl ⟨by simp, rfl, rfl⟩
  | emitAll plain _ noCall => exact .emitAll ⟨plain, rfl, noCall⟩
  | emit plain _ noCall => exact .emit ⟨by simpa using plain, rfl, noCall⟩
  | ofOutcome _ => exact .ofOutcome fun _ _ => ⟨by simp, rfl, rfl⟩
  | holding _ ih => exact .holding (ih s)
  | release _ => exact .release ⟨by simp, rfl, rfl⟩
  | giveBack _ _ => exact .giveBack ⟨by simp, rfl, rfl⟩
  | allocate _ =>
    exact .bind (.of rfl (.bind (.ofOutcome fun _ _ => .bind (.modifyState (.pure ⟨by simp, rfl, rfl⟩)))))
  | intern _ =>
    exact .bind (.of rfl (.bind (.of rfl (.bind (.modifyState (.pure ⟨by simp, rfl, rfl⟩))))))

section Actions

variable (line : Nat)

theorem literal_straight (value : Word) : Straight (literal value line) := by
  refine .bind (.intern value) fun kept => ?_
  split
  · exact .pure _
  · refine .bind (.allocate line) fun r => ?_
    dsimp only
    split <;> exact .bind .emit fun _ => .pure _

theorem element_straight (array : Slot) (index : Word) : Straight (element array index line) := by
  unfold element
  split
  · exact .fail _
  · refine .bind .table fun t => ?_
    split
    · split
      · exact .pure _
      · exact .fail _
    · exact .fail _

theorem nameAt_straight (a : Int) : Straight (nameAt a line) := by
  refine .bind .table fun t => ?_
  split
  · exact .pure _
  · exact .fail _

theorem placeThrough_straight (base : String) (offset : Offset) :
    Straight (placeThrough base offset line) := by
  unfold placeThrough
  split
  · exact .bind (nameAt_straight line _) fun _ => .pure _
  · split
    · exact .pure _
    · exact .bind (literal_straight line _) fun _ => .pure _

theorem place_straight (s : Slot) : Straight (place s line) := by
  unfold place
  split
  · exact .pure _
  · exact .bind (element_straight line _ _) fun _ => .pure _
  · exact .fail _
  · exact .fail _
  · exact placeThrough_straight line _ _

theorem resolve_straight (s : Slot) : Straight (resolve s line) := by
  unfold resolve
  split
  · split
    · exact literal_straight line _
    · exact .fail _
  · refine .bind (place_straight line s) fun p => ?_
    split
    · exact .pure _
    · exact .bind (.holding (.allocate line)) fun _ => .bind .emit fun _ =>
        .bind (.giveBack _ _) fun _ => .pure _

theorem setLiteral_straight (dest : String) (value : Word) : Straight (setLiteral dest value) := by
  unfold setLiteral
  split
  · exact .emit
  · refine .bind .table fun t => ?_
    split <;> exact .emit

theorem setCell_straight (dest source : Slot) : Straight (setCell dest source line) := by
  unfold setCell
  split
  · exact .pure _
  · split
    · exact setLiteral_straight _ _
    · refine .bind (place_straight line source) fun p => ?_
      split
      · split
        · exact .pure _
        · exact .emit
      · exact .bind .emit fun _ => .giveBack _ _

theorem assign_straight (target source : Slot) : Straight (assign target source line) := by
  unfold assign
  split
  · exact .fail _
  · refine .bind (place_straight line target) fun p => ?_
    split
    · exact setCell_straight line _ _
    · exact .bind (.holding (resolve_straight line source)) fun _ => .bind .emit fun _ =>
        .bind (.giveBack _ _) fun _ => .release _

theorem writeBack_straight (target : Slot) (o : Operand) : Straight (writeBack target o line) := by
  unfold writeBack
  split
  · exact .pure _
  · exact .bind (.holding (assign_straight line _ _)) fun _ => .giveBack _ _

theorem cheap?_plain {op : BinaryOp} {value : Word} {twoKept : Bool} {dest : String}
    {code : List Instr} (cheap : op.cheap? value twoKept dest = some code) :
    (∀ i ∈ code, i.isPlain = true) ∧ Instr.labels code = [] ∧ Instr.callees code = [] := by
  unfold BinaryOp.cheap? at cheap
  repeat' split at cheap
  all_goals first | cases cheap; exact ⟨by simp [Instr.isPlain], rfl, rfl⟩ | cases cheap

theorem operate_straight (op : BinaryOp) (left right : Slot) :
    Straight (operate op left right line) := by
  unfold operate
  split
  · exact .fail _
  · refine .bind (resolve_straight line left) fun dest => .bind .table fun t => ?_
    dsimp only
    split
    · rename_i code cheap
      obtain ⟨value, -, cheap⟩ := Option.bind_eq_some_iff.1 cheap
      obtain ⟨plain, noLabel, noCall⟩ := cheap?_plain cheap
      exact .bind (.emitAll plain noLabel noCall) fun _ => writeBack_straight line _ _
    · exact .bind (.holding (resolve_straight line right)) fun _ => .bind .emit fun _ =>
        .bind (.giveBack _ _) fun _ => writeBack_straight line _ _

theorem update_straight (u : Update) (target : Slot) : Straight (update u target line) := by
  unfold update
  split
  · exact .fail _
  · refine .bind (resolve_straight line target) fun dest => .bind (.emit ?_ ?_ ?_) fun _ =>
      writeBack_straight line _ _
    all_goals
      cases u with
      | complement => rfl
      | step step => cases step <;> rfl

theorem direct_straight (o : Operand) : Straight (direct o line) := by
  refine .bind (resolve_straight line _) fun found => ?_
  split
  · exact .pure _
  · exact .bind (.release _) fun _ => .pure _

theorem toTemp_straight (o : Operand) : Straight (toTemp o line) := by
  refine .bind (direct_straight line o) fun o => ?_
  split
  · exact .pure _
  · exact .bind (.allocate line) fun _ => .bind (assign_straight line _ _) fun _ =>
      .bind (.release _) fun _ => .pure _

theorem protect_straight (o : Operand) : Straight (protect o line) := by
  unfold protect
  split
  · exact .pure _
  · exact toTemp_straight line o

end Actions

end Codegen

end ContractCompiler
