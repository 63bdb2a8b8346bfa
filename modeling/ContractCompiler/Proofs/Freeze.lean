import ContractCompiler.Proofs.SlotTable
import ContractCompiler.Text.Blank

/-!
# Proofs.Freeze — contents that are fixed at the start

Only lines that load a constant into a variable can be made into directives. Each becomes one directive,
which fixes a variable that had no contents before (`SlotTable.freezeOne_eq_ok`). So a variable is fixed
once, and stays fixed while the table grows.
-/

namespace ContractCompiler

set_option autoImplicit false

/-- The variable whose contents a line fixes. -/
def Instr.fixed? : Instr → Option String
  | constSet dest _ => some dest
  | _ => none

def Instr.fixes (code : List Instr) : List String := code.filterMap fixed?

/-- The key of a fact has no white space. The value of a fact and a comment have no line end. -/
def Instr.hasTexts : Instr → Bool
  | program key value => key.toList.all (!Text.isBlank ·) && !value.toList.contains '\n'
  | comment text => !text.toList.contains '\n'
  | _ => true

/-- What is said in digits is a word, and the texts are fit for a line. -/
def Instr.isLegible : Instr → Bool
  | constSet _ hex | setLiteral _ hex => Word.isText hex
  | i => i.hasTexts

theorem Instr.fixes_append (code code' : List Instr) :
    fixes (code ++ code') = fixes code ++ fixes code' := List.filterMap_append ..

namespace SlotTable

variable {t t' : SlotTable} {line : Nat} {i directive : Instr} {code directives : List Instr}

/-- What it takes to fix a variable. -/
theorem freezeOne_eq_ok (frozen : t.freezeOne line i = .ok (t', directive)) :
    ∃ dest hex s, t.constantLoad line i = .ok (dest, hex) ∧ t.find? dest = some s ∧
      s.kind ≠ .register ∧ s.contents = none ∧ t' = t.setContents dest (some hex) ∧
      directive = .constSet dest hex := by
  unfold freezeOne at frozen
  cases loads : t.constantLoad line i with
  | error e => simp [loads, bind, Except.bind] at frozen
  | ok load =>
    obtain ⟨dest, hex⟩ := load
    simp only [loads, bind, Except.bind] at frozen
    split at frozen
    · cases frozen
    · rename_i s found
      split at frozen
      · cases frozen
      · rename_i notRegister
        split at frozen
        · cases frozen
        · rename_i notFrozen
          cases frozen
          have unset : s.contents = none := by simpa [Slot.isFrozen] using notFrozen
          exact ⟨dest, hex, s, rfl, found, notRegister, unset, rfl, rfl⟩

/-- The lines are fixed one after the other. -/
theorem freeze_cons_eq_ok (frozen : (t.freeze line (i :: code)).2 = .ok directives) :
    ∃ t₁ directive rest, t.freezeOne line i = .ok (t₁, directive) ∧
      (t₁.freeze line code).2 = .ok rest ∧ directives = directive :: rest ∧
      (t.freeze line (i :: code)).1 = (t₁.freeze line code).1 := by
  rw [freeze] at frozen ⊢
  cases first : t.freezeOne line i with
  | error e => simp [first] at frozen
  | ok made =>
    obtain ⟨t₁, directive⟩ := made
    simp only [first] at frozen ⊢
    cases result : (t₁.freeze line code).2 with
    | error e => simp [result, Except.map] at frozen
    | ok rest =>
      have same : directives = directive :: rest := by
        simpa [result, Except.map] using frozen.symm
      exact ⟨t₁, directive, rest, rfl, result, same, rfl⟩

/-- Only loads can be fixed at the start, and the directives fix what they load. -/
theorem freeze_sets (frozen : (t.freeze line code).2 = .ok directives) :
    (∀ i ∈ code, ∃ (t' : SlotTable) (load : String × String), t'.constantLoad line i = .ok load) ∧
      ∀ directive ∈ directives, ∃ i ∈ code, ∃ (t' : SlotTable) (dest hex : String),
        t'.constantLoad line i = .ok (dest, hex) ∧ directive = .constSet dest hex := by
  induction code generalizing t directives with
  | nil =>
    cases frozen
    simp
  | cons j code ih =>
    obtain ⟨t₁, made, rest, first, frozenRest, rfl, -⟩ := freeze_cons_eq_ok frozen
    obtain ⟨dest, hex, -, loads, -, -, -, -, same⟩ := freezeOne_eq_ok first
    obtain ⟨loadsRest, setsRest⟩ := ih frozenRest
    refine ⟨List.forall_mem_cons.2 ⟨⟨t, _, loads⟩, loadsRest⟩,
      List.forall_mem_cons.2 ⟨⟨j, .head _, t, dest, hex, loads, same⟩, fun directive mem => ?_⟩⟩
    obtain ⟨i, listed, load⟩ := setsRest directive mem
    exact ⟨i, .tail _ listed, load⟩

end SlotTable

end ContractCompiler
