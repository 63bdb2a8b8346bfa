import ContractCompiler.Codegen.Call
import ContractCompiler.Proofs.Label
import ContractCompiler.Proofs.Token.RoundTrip

/-!
# Proofs.Name — names that may stand in a line

The words of a line are separated by white space, and marks tell what they are. So the names in a line must
have neither (`Text.isName`). The identifiers of a source have neither, and the names and labels that are
made from them and from numbers have neither (`TokenKind.Lexical.isName`, `LabelId.isName_ofSettings`).
-/

namespace ContractCompiler

set_option autoImplicit false

namespace Text

/-- The characters that mark the words of a line. -/
def marks : List Char := ['@', '$', '#', ':', '(', ')', '+', '^']

/-- A character that is no white space and no mark. -/
def isUnmarked (c : Char) : Bool := !isBlank c && !marks.contains c

/-- A name that may stand in a line. -/
def isName (name : String) : Bool := name != "" && name.toList.all isUnmarked

theorem isName_iff {name : String} :
    isName name = true ↔ name ≠ "" ∧ ∀ c ∈ name.toList, isUnmarked c = true := by
  simp [isName]

/-- A class of characters without white space and marks. -/
theorem isUnmarked_of_class {p : Char → Bool} (free : (blanks ++ marks).any p = false) {c : Char}
    (passes : p c = true) : isUnmarked c = true := by
  obtain ⟨noBlank, noMark⟩ := List.forall_mem_append.1 (List.any_eq_false.1 free)
  have notBlank := isBlank_eq_false (List.any_eq_false.2 noBlank) passes
  have notMark : c ∉ marks := fun mem => noMark c mem passes
  simp [isUnmarked, notBlank, notMark]

theorem isName_append {first last : String} (isFirst : isName first = true) (isLast : isName last = true) :
    isName (first ++ last) = true := by
  rw [isName_iff] at *
  refine ⟨fun none => isFirst.1 (String.append_eq_empty_iff.1 none).1, ?_⟩
  rw [String.toList_append]
  exact List.forall_mem_append.2 ⟨isFirst.2, isLast.2⟩

theorem isName_joined {first last : String} (isFirst : isName first = true) (isLast : isName last = true) :
    isName (first ++ "_" ++ last) = true :=
  isName_append (isName_append isFirst rfl) isLast

theorem isName_toString (n : Nat) : isName (toString n) = true := by
  refine isName_iff.2 ⟨?_, fun c mem => ?_⟩
  · intro none
    have noDigits : Nat.toDigits 10 n = [] := by simpa using congrArg String.toList none
    exact Nat.toDigits_ne_nil noDigits
  · exact isUnmarked_of_class (p := Char.isDigit) (by decide) (Numeral.isDigit_of_mem_toString mem)

end Text

open Text (isName isName_iff isName_append)

theorem TokenKind.Lexical.isName {name : String} (lexical : TokenKind.identifier.Lexical name.toList) :
    isName name = true := by
  have starts : (Text.blanks ++ Text.marks).any Text.isNameStart = false := by decide +kernel
  have goesOn : (Text.blanks ++ Text.marks).any Text.isNameRest = false := by decide +kernel
  generalize isText : name.toList = cs at lexical
  cases lexical with
  | identifier start others free =>
    rw [isName_iff, isText]
    refine ⟨?_, List.forall_mem_cons.2 ⟨Text.isUnmarked_of_class starts start, fun d mem =>
      Text.isUnmarked_of_class goesOn (others d mem)⟩⟩
    rintro rfl
    cases isText

/-! ## Labels -/

theorem Codegen.isName_functionLabel {name : String} (named : isName name = true) :
    isName (functionLabel name) = true :=
  isName_append rfl named

theorem Mark.isName_text (mark : Mark) {id : String} (named : isName id = true) :
    isName (mark.text id) = true := by
  cases mark <;> exact isName_append (isName_append rfl named) rfl

theorem LabelId.isName_ofSettings (settings : Settings) {randomId : Nat → String}
    (named : ∀ n, isName (randomId n) = true) (line ordinal : Nat) :
    isName (ofSettings settings randomId line ordinal) = true := by
  unfold ofSettings
  split
  · exact named ordinal
  · split
    · exact Text.isName_joined (Text.isName_toString line) (Text.isName_toString ordinal)
    · exact Text.isName_toString ordinal

theorem LabelId.isName_scrambled (seed ordinal : Nat) : isName (scrambled seed ordinal) = true := by
  have isDigit : ∀ n < 62, Text.isUnmarked (digit n) = true := by decide
  have areDigits : ∀ count n, ∀ c ∈ digits count n, Text.isUnmarked c = true := by
    intro count
    induction count with
    | zero => simp [digits]
    | succ count ih =>
      exact fun n => List.forall_mem_append.2 ⟨ih _, List.forall_mem_singleton.2
        (isDigit _ (Nat.mod_lt _ (by decide)))⟩
  refine isName_iff.2 ⟨?_, String.toList_ofList ▸ areDigits 5 _⟩
  simp [scrambled, digits]

end ContractCompiler
