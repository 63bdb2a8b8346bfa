import ContractCompiler.Proofs.Codegen.Made.Node
import ContractCompiler.Proofs.Freeze
import ContractCompiler.Proofs.Sentence.Woven

/-!
# Proofs.Sentence.Growth — what the code of sentences keeps

The code of phrases, sentences and functions is tame, like that of expressions: the table stays valid
and only grows, also where contents are fixed at the start, and labels are new.
-/

namespace ContractCompiler

set_option autoImplicit false

/-! ## Fixed contents -/

namespace SlotTable

variable {t t' : SlotTable} {line : Nat}

theorem freezeOne_grows {i directive : Instr} (frozen : t.freezeOne line i = .ok (t', directive))
    (valid : t.Valid) : t'.Valid ∧ t.Grows t' ∧ Instr.labels [directive] = [] := by
  obtain ⟨dest, hex, s, -, found, notRegister, unset, rfl, rfl⟩ := freezeOne_eq_ok frozen
  exact ⟨valid.setContents _ _, grows_setContents found notRegister unset _, rfl⟩

theorem freeze_grows (line : Nat) (code : List Instr) (valid : t.Valid) :
    (t.freeze line code).1.Valid ∧ t.Grows (t.freeze line code).1 ∧
      ∀ directives, (t.freeze line code).2 = .ok directives → Instr.labels directives = [] := by
  induction code generalizing t with
  | nil =>
    refine ⟨valid, .refl t, fun directives same => ?_⟩
    cases same
    rfl
  | cons i code ih =>
    rw [freeze]
    split
    · exact ⟨valid, .refl t, by simp⟩
    · rename_i t' directive frozen
      obtain ⟨valid', grows, none⟩ := freezeOne_grows frozen valid
      obtain ⟨valid'', grows', nones⟩ := ih valid'
      refine ⟨valid'', grows.trans grows', fun directives same => ?_⟩
      cases result : (t'.freeze line code).2 with
      | error e => simp [result, Except.map] at same
      | ok rest =>
        obtain rfl : directive :: rest = directives := by simpa [result, Except.map] using same
        rw [← List.singleton_append, Instr.labels_append, none, nones rest result, List.append_nil]

end SlotTable

namespace Codegen

variable {α β : Type}

/-- Code that is held back and then emitted, or made into something without labels. -/
theorem Tame.capture {m : Codegen α} {f : α × List Instr → Codegen β} (inner : Tame m)
    (rest : ∀ a code ctx s, s.Valid → (f (a, code)).Ends ctx s fun _ code' s' =>
      s'.Valid ∧ s.table.Grows s'.table ∧ s'.labels = s.labels ∧
        (code' = code ∨ Instr.labels code' = [])) : Tame (Codegen.capture m >>= f) := by
  intro ctx s valid
  refine .bind (.capture ((inner ctx s valid).mono ?_))
  rintro a code s' ⟨valid', grows, numbered⟩
  refine (rest a code ctx s' valid').mono ?_
  rintro _ code' s'' ⟨valid'', grows', same, rfl | none⟩
  · exact ⟨valid'', grows.trans grows', same ▸ numbered⟩
  · refine ⟨valid'', grows.trans grows', same ▸ numbered.le, ?_, ?_⟩ <;>
      simp [none]

/-! ## Phrases -/

section Phrases

variable (line : Nat)

theorem names_tame : Tame names :=
  .bind .context fun _ => .bind .table fun _ => .pure _

theorem comment_tame : Tame (comment line) := by
  refine .of_unchanged fun ctx s => ?_
  refine .bind (.of rfl (.bind (.of rfl ?_)))
  split
  · exact .bind (.emit (.modifyState ⟨rfl, rfl, rfl, rfl⟩))
  · exact .pure ⟨rfl, rfl, rfl, rfl⟩

theorem checkRegisters_tame : Tame (checkRegisters line) := by
  refine .bind .state fun s => ?_
  dsimp only
  split
  · exact .pure _
  · exact .fail _

theorem phrase_tame (tokens : List Token) (isConst : Bool) : Tame (phrase tokens isConst line) := by
  refine .bind names_tame fun names => .bind (.ofOutcome _) fun found => ?_
  split
  · exact .pure _
  · rename_i bound
    refine .bind (comment_tame _) fun _ => ?_
    refine .capture (phraseBody_made (C := True) (World.free_admits 0 bound) id).tame ?_
    intro _ code ctx s valid
    dsimp only
    split
    · -- contents that are fixed at the start leave no code but directives
      obtain ⟨valid', grows, none⟩ := SlotTable.freeze_grows bound.line code valid.table
      refine .bind (.of rfl (.bind (.modifyState (.bind (.ofOutcome fun directives same => .emitAll ?_)))))
      exact ⟨⟨valid', valid.pool.trans grows.registers.symm⟩, grows, rfl, .inr (none _ same)⟩
    · exact .emitAll ⟨valid, .refl _, rfl, .inl rfl⟩

theorem condition_tame (tokens : List Token) (target : String) (when : Bool) :
    Tame (condition tokens target when line) :=
  .bind names_tame fun _ => .bind (.ofOutcome _) fun node =>
    .bind (.within (node.code_tame.jump target when)) fun _ => checkRegisters_tame line

end Phrases

/-! ## Sentences -/

theorem Woven.labelled {ofPhrase ofTest : List Token → Nat → Prop} {exits labels : List String}
    {m m' : Codegen Unit} (woven : Woven Eq ofPhrase ofTest exits labels m m') :
    ∀ (id : String) (marks : List Mark), labels = marks.map (·.text id) → Labelled id marks m := by
  induction woven with
  | phrase _ isConst => exact fun _ _ => .of_tame (phrase_tame _ _ isConst)
  | condition _ _ _ when _ => exact fun _ _ => .of_tame (condition_tame _ _ _ when)
  | nothing => exact fun _ _ => .of_tame (.pure _)
  | andThen _ _ ih ih' => exact fun id marks same => .bind (ih id [] rfl).tame fun _ => ih' id marks same
  | labelId marks different _ ih =>
    exact fun _ _ => .of_tame (.labelId marks different fun id => ih id id rfl id marks rfl)
  | label _ _ _ ih => exact fun id marks same => .label same (ih id)
  | lastLabel _ _ => exact fun _ _ same => .lastLabel same
  | jump _ _ _ => exact fun _ _ => .of_tame (.emit rfl)
  | comment line => exact fun _ _ => .of_tame (comment_tame line)
  | loop _ _ _ ih => exact fun _ _ => .of_tame (.within (ih "" [] rfl).tame)

/-- The code of sentences is tame. -/
theorem sentences_tame (ss : List Sentence) : Tame (sentences ss) :=
  ((sentences_woven_any [] ss).labelled "" [] rfl).tame

/-- The label of a function is not one of those that carry numbers. -/
theorem functionLabel_ne_text (function : String) (mark : Mark) (id : String) :
    functionLabel function ≠ mark.text id := by
  intro same
  have third : (functionLabel function).toList[2]? = mark.stem.toList[2]? := by
    rw [same]
    exact (congrArg Prod.fst (mark.letters_text id)).symm
  simp only [functionLabel, String.toList_append] at third
  cases mark <;> simp [Mark.stem] at third

end Codegen

end ContractCompiler
