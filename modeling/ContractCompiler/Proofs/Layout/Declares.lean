import ContractCompiler.Proofs.Layout
import ContractCompiler.Proofs.Sentence.Parser

/-!
# Proofs.Layout.Declares — which slots a declaration makes

The variables of a scope are stored behind what is there, each with its parts, and none under a name
that belongs to registers or constants (`SlotTable.Declares`). A name that is declared in a scope is
found there as the slot that was made for it. So the layout of a contract begins with the registers, and
no other slot is a register or has the name of one (`Layout.ofProgram_begins`).
-/

namespace ContractCompiler

set_option autoImplicit false

open Outcome (Ensures)

namespace SlotTable

variable {t t' t'' : SlotTable} {scope : String} {names names' : List String} {own own' : List Slot}

/-- What is found in a scope is found again behind more slots. -/
theorem inScope?_append {name : String} {s : Slot} (grows : t'.slots = t.slots ++ own)
    (found : t.inScope? name scope = some s) : t'.inScope? name scope = some s := by
  rw [inScope?] at found
  rw [inScope?, grows, List.find?_append, found]
  rfl

/-- The names were declared in the scope, for which the slots `own` were stored. -/
structure Declares (t : SlotTable) (scope : String) (names : List String) (own : List Slot)
    (t' : SlotTable) : Prop where
  slots : t'.slots = t.slots ++ own
  declared : ∀ s ∈ own, s.Declared scope
  found : ∀ x ∈ names, ∃ s ∈ own, s.name = x ∧ s.asmName = storedName x scope ∧
    t'.inScope? x scope = some s
  nothing : names = [] → own = []

namespace Declares

theorem refl (t : SlotTable) (scope : String) : t.Declares scope [] [] t :=
  ⟨by simp, by simp, by simp, fun _ => rfl⟩

theorem trans (first : t.Declares scope names own t') (second : t'.Declares scope names' own' t'') :
    t.Declares scope (names ++ names') (own ++ own') t'' where
  slots := by rw [second.slots, first.slots, List.append_assoc]
  declared := List.forall_mem_append.2 ⟨first.declared, second.declared⟩
  found := by
    refine List.forall_mem_append.2 ⟨fun x mem => ?_, fun x mem => ?_⟩
    · obtain ⟨s, isOwn, name, asmName, found⟩ := first.found x mem
      exact ⟨s, List.mem_append_left _ isOwn, name, asmName, inScope?_append second.slots found⟩
    · obtain ⟨s, isOwn, rest⟩ := second.found x mem
      exact ⟨s, List.mem_append_right _ isOwn, rest⟩
  nothing none := by
    obtain ⟨none, none'⟩ := List.append_eq_nil_iff.1 none
    rw [first.nothing none, second.nothing none', List.append_nil]

end Declares

/-- A variable that is stored with its parts. -/
theorem Stores.declares {s : Slot} (stores : t.Stores scope s t') :
    t.Declares scope [s.name] (t.place s :: partSlots scope (t.push s).next (t.parts s)) t' where
  slots := stores.slots
  declared := stores.all_declared
  found := by
    refine List.forall_mem_singleton.2 ⟨t.place s, List.mem_cons_self, place_name t s, ?_, ?_⟩
    · rw [place_asmName, stores.asmName]
    · have isNew := stores.isNew
      rw [inScope?] at isNew
      rw [inScope?, stores.slots, List.find?_append, isNew, Option.none_or]
      simp [place_name, place_kind, stores.declared.kind, place_scope, stores.declared.scope]
  nothing none := by cases none

theorem Runs.declares {ss : List Slot} (runs : Runs scope ss t t') :
    ∃ own, t.Declares scope (ss.map (·.name)) own t' := by
  induction runs with
  | refl t => exact ⟨[], .refl t scope⟩
  | step stores _ ih =>
    obtain ⟨own, rest⟩ := ih
    exact ⟨_, stores.declares.trans rest⟩

/-! ## Registers -/

/-- The table begins with `count` registers, and no other slot is a register or has the name of one. -/
def Begins (t : SlotTable) (count : Nat) : Prop :=
  ∃ own, t.slots = (List.range count).map registerSlot ++ own ∧
    ∀ s ∈ own, s.kind ≠ .register ∧ isReservedName s.asmName = false

end SlotTable

namespace Layout

/-- The variables of a function are declared in the scope that its name stands for. -/
theorem declareFunction_declares (l : Layout) (f : FunctionDef) :
    Ensures (l.declareFunction f) fun l' => ∃ own, l.table.Declares f.name f.variables own l'.table := by
  refine (l.declareFunction_runs f).mono ?_
  rintro l' ⟨-, ss, ss', _, t, -, -, names, -, runs, names', runs'⟩
  obtain ⟨own, declares⟩ := (runs.trans runs').declares
  rw [List.map_append, names, names'] at declares
  exact ⟨own, declares⟩

/-- The layout of a contract begins with the registers. -/
theorem ofProgram_begins (p : Program) (settings : Settings) :
    Ensures (ofProgram p settings) fun l => l.table.Begins settings.maxAuxVars := by
  refine ofProgram_keeps (P := fun t => t.Begins settings.maxAuxVars)
    (fun structs _ => ⟨[], by simp [SlotTable.ofRegisters_eq], by simp⟩) ?_
  rintro t t' scope s - stores ⟨others, slots, free⟩
  refine ⟨_, by rw [stores.slots, slots, List.append_assoc], List.forall_mem_append.2 ⟨free, ?_⟩⟩
  exact fun e mem => ⟨(stores.all_declared e mem).kind, (stores.all_declared e mem).name⟩

end Layout

end ContractCompiler
