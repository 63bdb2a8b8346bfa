import ContractCompiler.LabelId
import ContractCompiler.Proofs.Machine.Leads
import ContractCompiler.Proofs.Word

/-!
# Proofs.Label — labels are told apart

A label is made of what it is used for and of what tells it from the other labels of that use
(`Mark.text`), and both can be read off its text (`Mark.text_inj`). Code is `Numbered` if it defines no
label twice and every label belongs to one of the numbers that were given out while it was made. So
code that is numbered on from other code shares no label with it (`Numbered.append`).
-/

namespace ContractCompiler

set_option autoImplicit false

/-- What a label that carries a number is used for. -/
inductive Mark where
  | andNext | orNext | truthFalse | truthEnd | ternaryElse | ternaryEnd
  | ifStart | ifElse | ifEnd | loopStart | loopCondition | loopContinue | loopBreak
  deriving DecidableEq

namespace Mark

/-- What stands before the number. -/
def stem : Mark → String
  | andNext => "__AND"
  | orNext => "__OR"
  | truthFalse | truthEnd => "__CMP"
  | ternaryElse | ternaryEnd => "__TER"
  | ifStart | ifElse | ifEnd => "__if"
  | loopStart | loopCondition | loopContinue | loopBreak => "__loop"

/-- What stands after the number. -/
def ending : Mark → String
  | andNext | orNext => "_next"
  | truthFalse => "_sF"
  | ternaryElse | ifElse => "_else"
  | truthEnd | ternaryEnd => "_end"
  | ifEnd => "_endif"
  | ifStart | loopStart => "_start"
  | loopCondition => "_condition"
  | loopContinue => "_continue"
  | loopBreak => "_break"

def text (mark : Mark) (id : String) : String := mark.stem ++ id ++ mark.ending

/-- The third letter and the last one. -/
def letters (mark : Mark) : Option Char × Option Char :=
  (mark.stem.toList[2]?, mark.ending.toList.getLast?)

theorem letters_injective {mark mark' : Mark} (same : mark.letters = mark'.letters) :
    mark = mark' := by
  cases mark <;> cases mark' <;> first | rfl | simp [letters, stem, ending] at same

theorem letters_text (mark : Mark) (id : String) :
    mark.letters = ((mark.text id).toList[2]?, (mark.text id).toList.getLast?) := by
  have long : 2 < mark.stem.toList.length := by cases mark <;> decide
  have ends : mark.ending.toList.getLast?.isSome := by cases mark <;> decide
  refine Prod.ext ?_ ?_
  · simp only [letters, text, String.toList_append, List.append_assoc]
    rw [List.getElem?_append_left long]
  · simp only [letters, text, String.toList_append]
    rw [List.getLast?_append, Option.or_of_isSome ends]

/-- A label tells its use and its number. -/
theorem text_inj {mark mark' : Mark} {id id' : String} (same : mark.text id = mark'.text id') :
    mark = mark' ∧ id = id' := by
  obtain rfl : mark = mark' := letters_injective (by rw [letters_text mark id, same, ← letters_text])
  refine ⟨rfl, ?_⟩
  simpa [text] using same

end Mark

namespace LabelId

/-- The numbers up to `high` are told apart. -/
def Distinct (settings : Settings) (randomId : Nat → String) (high : Nat) : Prop :=
  settings.enableRandom = true →
    ∀ i ≤ high, ∀ j ≤ high, randomId i = randomId j → i = j

theorem Distinct.mono {settings : Settings} {randomId : Nat → String} {low high : Nat}
    (distinct : Distinct settings randomId high) (le : low ≤ high) :
    Distinct settings randomId low :=
  fun random i hi j hj => distinct random i (Nat.le_trans hi le) j (Nat.le_trans hj le)

theorem digit_inj {n n' : Nat} (small : n < 62) (small' : n' < 62) (same : digit n = digit n') :
    n = n' := by
  have all : ∀ i < 62, ∀ j < 62, digit i = digit j → i = j := by decide
  exact all n small n' small' same

theorem digits_succ_inj {count n n' : Nat} (same : digits (count + 1) n = digits (count + 1) n') :
    digits count (n / 62) = digits count (n' / 62) ∧ n % 62 = n' % 62 := by
  obtain ⟨front, back⟩ := List.append_inj' same rfl
  exact ⟨front, digit_inj (Nat.mod_lt _ (by decide)) (Nat.mod_lt _ (by decide))
    (List.singleton_inj.1 back)⟩

/-- Scrambled letters and digits tell as many labels apart as there are. -/
theorem scrambled_distinct (settings : Settings) (seed : Nat) {high : Nat} (few : high < count) :
    Distinct settings (scrambled seed) high := by
  intro _ i hi j hj same
  obtain ⟨same, d₀⟩ := digits_succ_inj (String.ofList_inj.1 same)
  obtain ⟨same, d₁⟩ := digits_succ_inj same
  obtain ⟨same, d₂⟩ := digits_succ_inj same
  obtain ⟨same, d₃⟩ := digits_succ_inj same
  obtain ⟨-, d₄⟩ := digits_succ_inj same
  simp only [count] at few
  omega

/-- What stands after the last of some character. -/
theorem eq_of_append_cons {a a' b b' : List Char} {c : Char} (h : c ∉ b) (h' : c ∉ b')
    (same : a ++ c :: b = a' ++ c :: b') : b = b' := by
  induction a generalizing a' with
  | nil =>
    cases a' with
    | nil => simpa using same
    | cons x a' =>
      simp only [List.nil_append, List.cons_append, List.cons.injEq] at same
      exact absurd (same.2 ▸ by simp) h
  | cons x a ih =>
    cases a' with
    | nil =>
      simp only [List.nil_append, List.cons_append, List.cons.injEq] at same
      exact absurd (same.2 ▸ by simp) h'
    | cons y a' =>
      simp only [List.cons_append, List.cons.injEq] at same
      exact ih same.2

/-- What a label carries tells its number. -/
theorem ofSettings_inj {settings : Settings} {randomId : Nat → String} {high i j line line' : Nat}
    (distinct : Distinct settings randomId high) (hi : i ≤ high) (hj : j ≤ high)
    (same : ofSettings settings randomId line i = ofSettings settings randomId line' j) : i = j := by
  unfold ofSettings at same
  split at same
  · exact distinct ‹_› i hi j hj same
  · split at same
    · have lists := congrArg String.toList same
      simp only [String.toList_append, List.append_assoc] at lists
      have digits := eq_of_append_cons (c := '_') (by simp) (by simp) lists
      exact Numeral.toString_inj (String.toList_inj.1 digits)
    · exact Numeral.toString_inj same

end LabelId

/-! ## Numbered code -/

/-- The labels that code defines carry different numbers above `low` and up to `high`. -/
structure Numbered (settings : Settings) (randomId : Nat → String) (low : Nat) (code : List Instr)
    (high : Nat) : Prop where
  le : low ≤ high
  numbers : ∀ l ∈ Instr.labels code, ∃ (ordinal line : Nat) (mark : Mark), low < ordinal ∧
    ordinal ≤ high ∧ l = mark.text (LabelId.ofSettings settings randomId line ordinal)
  nodup : LabelId.Distinct settings randomId high → (Instr.labels code).Nodup

namespace Numbered

variable {settings : Settings} {randomId : Nat → String} {low mid high : Nat}
  {code rest : List Instr}

/-- Code without labels. -/
theorem of_labels_nil (none : Instr.labels code = []) (low : Nat) :
    Numbered settings randomId low code low := by
  refine ⟨Nat.le_refl _, ?_, fun _ => ?_⟩ <;> simp [none]

/-- Code that is numbered on from other code shares no label with it. -/
theorem append (first : Numbered settings randomId low code mid)
    (second : Numbered settings randomId mid rest high) :
    Numbered settings randomId low (code ++ rest) high where
  le := Nat.le_trans first.le second.le
  numbers l mem := by
    have le := first.le
    have le' := second.le
    rw [Instr.labels_append] at mem
    rcases List.mem_append.1 mem with mem | mem
    · obtain ⟨ordinal, line, mark, above, below, same⟩ := first.numbers l mem
      exact ⟨ordinal, line, mark, above, by omega, same⟩
    · obtain ⟨ordinal, line, mark, above, below, same⟩ := second.numbers l mem
      exact ⟨ordinal, line, mark, by omega, below, same⟩
  nodup distinct := by
    have le := second.le
    rw [Instr.labels_append, List.nodup_append]
    refine ⟨first.nodup (distinct.mono le), second.nodup distinct, ?_⟩
    rintro l mem l' mem' rfl
    obtain ⟨i, line, mark, above, below, same⟩ := first.numbers l mem
    obtain ⟨j, line', mark', above', below', same'⟩ := second.numbers l mem'
    have number := (Mark.text_inj (same.symm.trans same')).2
    have := LabelId.ofSettings_inj distinct (by omega) below' number
    omega

/-- Code with some labels of its own number around numbered code. -/
theorem own {marks : List Mark} {line : Nat} (inner : Numbered settings randomId (low + 1) code high)
    (different : marks.Nodup) (labels : (Instr.labels rest).Perm
      (marks.map (·.text (LabelId.ofSettings settings randomId line (low + 1))) ++
        Instr.labels code)) :
    Numbered settings randomId low rest high where
  le := Nat.le_of_succ_le inner.le
  numbers l mem := by
    have le := inner.le
    rcases List.mem_append.1 (labels.mem_iff.1 mem) with mem | mem
    · obtain ⟨mark, -, rfl⟩ := List.mem_map.1 mem
      exact ⟨low + 1, line, mark, by omega, le, rfl⟩
    · obtain ⟨ordinal, line, mark, above, below, same⟩ := inner.numbers l mem
      exact ⟨ordinal, line, mark, by omega, below, same⟩
  nodup distinct := by
    have le := inner.le
    rw [labels.nodup_iff, List.nodup_append]
    refine ⟨List.Pairwise.map _ (fun _ _ ne same => ne (Mark.text_inj same).1) different,
      inner.nodup distinct, ?_⟩
    rintro l mem l' mem' rfl
    obtain ⟨mark, -, rfl⟩ := List.mem_map.1 mem
    obtain ⟨j, line', mark', above', below', same'⟩ := inner.numbers _ mem'
    have := LabelId.ofSettings_inj distinct le below' (Mark.text_inj same').2
    omega

end Numbered

end ContractCompiler
