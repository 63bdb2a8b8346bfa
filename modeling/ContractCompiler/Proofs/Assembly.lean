import ContractCompiler.Assembly
import ContractCompiler.Proofs.Accessible
import ContractCompiler.Proofs.Machine

/-!
# Proofs.Assembly — the lines before the code

A finished program begins with facts and declarations. They define no label, declare the slots that have
cells in the order of the table, and fix what arrays and constants hold. The lines after them are the blocks
of the contract (`Program.blocks`).
-/

namespace ContractCompiler

set_option autoImplicit false

namespace Assembly

def lines (a : Assembly) : List Instr := a.header ++ a.blocks.flatten

theorem eq_of_mem_facts {settings : Settings} {i : Instr} (mem : i ∈ facts settings) :
    ∃ key value, i = .program key value := by
  obtain ⟨⟨key, value⟩, -, isLine⟩ := List.mem_filterMap.1 mem
  obtain ⟨text, -, rfl⟩ := Option.map_eq_some_iff.1 isLine
  exact ⟨key, text, rfl⟩

theorem eq_of_mem_declaration {s : Slot} {i : Instr} (mem : i ∈ declaration s) :
    i = .declare s.asmName ∨ ∃ hex, i = .constSet s.asmName hex ∧ s.contents = some hex ∧
      (s.kind = .array ∨ s.kind = .constant) := by
  unfold declaration at mem
  split at mem
  · cases mem
  · split at mem
    · rename_i kind
      split at mem
      · rename_i hex contents
        rcases List.mem_pair.1 mem with rfl | rfl
        · exact .inl rfl
        · exact .inr ⟨hex, rfl, contents, kind⟩
      · exact .inl (List.mem_singleton.1 mem)
    · exact .inl (List.mem_singleton.1 mem)

section Header

variable {β : Type} {f : Instr → Option β}

/-- A selection of lines before the code that leaves out the facts. -/
theorem filterMap_header (a : Assembly) (noFact : ∀ key value, f (.program key value) = none) :
    a.header.filterMap f = a.table.slots.flatMap fun s => (declaration s).filterMap f := by
  have facts : (facts a.settings).filterMap f = [] := by
    refine List.filterMap_eq_nil_iff.2 fun i mem => ?_
    obtain ⟨key, value, rfl⟩ := eq_of_mem_facts mem
    exact noFact key value
  rw [header, List.filterMap_append, facts, List.nil_append, List.filterMap_flatMap]

/-- A selection of one line at most from each declaration. -/
theorem filterMap_declarations {p : Slot → Bool} {g : Slot → β}
    (each : ∀ s, (declaration s).filterMap f = if p s then [g s] else []) (slots : List Slot) :
    (slots.flatMap fun s => (declaration s).filterMap f) = (slots.filter p).map g := by
  induction slots with
  | nil => rfl
  | cons s rest ih =>
    rw [List.flatMap_cons, each, ih]
    cases passes : p s <;> simp [passes]

end Header

/-- The lines before the code define no label. -/
theorem labels_header (a : Assembly) : Instr.labels a.header = [] := by
  refine (a.filterMap_header fun _ _ => rfl).trans (List.flatMap_eq_nil_iff.2 fun s _ => ?_)
  refine List.filterMap_eq_nil_iff.2 fun i mem => ?_
  rcases eq_of_mem_declaration mem with rfl | ⟨hex, rfl, -⟩ <;> rfl

/-- The header declares the slots that have cells. -/
theorem declared_header (a : Assembly) : Instr.declared a.header =
    (a.table.slots.filter (0 ≤ ·.address)).map (·.asmName) := by
  refine (a.filterMap_header fun _ _ => rfl).trans (filterMap_declarations (fun s => ?_) _)
  unfold declaration
  by_cases nowhere : s.address < 0
  · have noCell : ¬ 0 ≤ s.address := by omega
    simp [nowhere, noCell]
  · have hasCell : 0 ≤ s.address := by omega
    rw [if_neg nowhere]
    simp only [hasCell, decide_true, if_true]
    repeat' split
    all_goals rfl

/-- The header fixes what arrays and constants hold. -/
theorem fixes_header (a : Assembly) : Instr.fixes a.header =
    (a.table.slots.filter fun s => 0 ≤ s.address && (s.kind == .array || s.kind == .constant) &&
      s.contents.isSome).map (·.asmName) := by
  refine (a.filterMap_header fun _ _ => rfl).trans (filterMap_declarations (fun s => ?_) _)
  unfold declaration
  by_cases nowhere : s.address < 0
  · have noCell : ¬ 0 ≤ s.address := by omega
    simp [nowhere, noCell]
  · have hasCell : 0 ≤ s.address := by omega
    rw [if_neg nowhere]
    by_cases kept : s.kind = .array ∨ s.kind = .constant
    · cases contents : s.contents with
      | none => simp [kept, Instr.fixed?]
      | some hex => simp [kept, hasCell, Instr.fixed?, List.filterMap_cons]
    · simp [kept, Instr.fixed?]

/-- The operands of lines before the code are the cells that they fix. -/
theorem mem_fixes_header {a : Assembly} {i : Instr} {name : String} (mem : i ∈ a.header)
    (isOperand : name ∈ i.operands) : name ∈ Instr.fixes a.header := by
  refine List.mem_filterMap.2 ⟨i, mem, ?_⟩
  rcases List.mem_append.1 mem with isFact | declared
  · obtain ⟨key, value, rfl⟩ := eq_of_mem_facts isFact
    cases isOperand
  · obtain ⟨s, -, isLine⟩ := List.mem_flatMap.1 declared
    rcases eq_of_mem_declaration isLine with rfl | ⟨hex, rfl, -⟩
    · cases isOperand
    · rw [List.mem_singleton.1 isOperand]
      rfl

end Assembly

/-! ## The blocks -/

/-- What an action gives, or why it was refused. -/
def Codegen.Result.outcome {α : Type} : Codegen.Result α → Outcome α
  | .done a _ _ => .ok a
  | .failed e _ => .error e

namespace Program

variable {p : Program} {settings : Settings}

def blocks (p : Program) (settings : Settings) (randomId : Nat → String) : Outcome (List (List Instr)) := do
  let l ← Layout.ofProgram p settings
  return (← Assembly.ofProgram p l settings randomId).blocks

theorem blocks_of_refusal {e : CompileError} (refused : Layout.ofProgram p settings = .error e)
    (randomId : Nat → String) : p.blocks settings randomId = .error e := by
  rw [blocks, refused]
  rfl

theorem blocks_of_layout {l : Layout} (isLayout : Layout.ofProgram p settings = .ok l)
    (randomId : Nat → String) : p.blocks settings randomId =
      (Codegen.blocks p ⟨settings, l.functions, randomId, none, none, false⟩ (.ofLayout l)).outcome := by
  have assembled : p.blocks settings randomId =
      (Assembly.ofProgram p l settings randomId).map (·.blocks) := by
    rw [blocks, isLayout]
    rfl
  rw [assembled, Assembly.ofProgram]
  cases Codegen.blocks p ⟨settings, l.functions, randomId, none, none, false⟩ (.ofLayout l) <;> rfl

end Program

end ContractCompiler
