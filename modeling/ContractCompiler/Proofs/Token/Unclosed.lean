import ContractCompiler.Proofs.Token.RoundTrip

/-!
# Proofs.Token.Unclosed — comments that are never closed

A comment opener without a closer behind it is no comment: the lexer goes back and reads its two characters
as marks. So the text is read as if white space stood between them, if what is behind the slash can be
read; and otherwise it is refused because the text ended, at the line of its end (`tokenize_unclosed`).
-/

namespace ContractCompiler

set_option autoImplicit false

/-! ## Openers -/

theorem Piece.closeComment?_eq_none {cs : List Char} (unclosed : ¬ ['*', '/'] <:+: cs) :
    closeComment? cs = none := by
  fun_induction closeComment? cs with
  | case1 => rfl
  | case2 rest => exact absurd ⟨[], rest, rfl⟩ unclosed
  | case3 c rest _ ih => rw [ih fun later => unclosed (List.infix_cons later), Option.map_none]

/-- A slash is read in front of a star that opens no comment. -/
theorem Piece.next?_unclosed {inside : List Char} (unclosed : ¬ ['*', '/'] <:+: inside) :
    next? ('/' :: '*' :: inside) = some (punct ['/'], '*' :: inside) := by
  have opener : next? ('/' :: '*' :: inside) = token? ('/' :: '*' :: inside) := by
    unfold next?
    dsimp only
    rw [if_neg (by decide)]
    split
    · rename_i same
      exact absurd (List.cons.inj same).1 (by decide)
    · rename_i same
      rw [← (List.cons.inj same).2, closeComment?_eq_none unclosed]
    · rfl
  have noName : Text.isNameStart '/' = false := by decide
  rw [opener]
  unfold token?
  dsimp only
  rw [if_neg (by decide), number?_eq_none (by decide), noName]
  rfl

theorem Cut.opensUnclosed_eq {inside : List Char} (unclosed : ¬ ['*', '/'] <:+: inside) :
    opensUnclosed ('/' :: '*' :: inside) = true := by
  rw [opensUnclosed, Piece.closeComment?_eq_none unclosed]
  rfl

/-! ## Texts up to an opener -/

namespace Cut

/-- The pieces are cut from the text one after the other, up to the rest. -/
inductive Reaches : List Char → List Piece → List Char → Prop
  | here (cs : List Char) : Reaches cs [] cs
  | step {cs after rest : List Char} {p : Piece} {pieces : List Piece}
      (isNext : Piece.next? cs = some (p, after)) (later : Reaches after pieces rest) :
      Reaches cs (p :: pieces) rest

theorem Reaches.ofText {cs rest : List Char} {pieces : List Piece} (reaches : Reaches cs pieces rest) :
    (ofText cs).pieces = pieces ++ (ofText rest).pieces ∧ (ofText cs).rest = (ofText rest).rest ∧
      ((ofText rest).openComment = true → (ofText cs).openComment = true) := by
  induction reaches with
  | here _ => exact ⟨rfl, rfl, id⟩
  | step isNext _ ih =>
    obtain ⟨pieces, rest, opens⟩ := ih
    rw [ofText_eq isNext]
    exact ⟨congrArg (_ :: ·) pieces, rest, fun isOpen => by simp [opens isOpen]⟩

end Cut

/-- The token, that many lines further down. -/
def Token.lower (lines : Nat) (t : Token) : Token := { t with line := t.line + lines }

namespace Piece

theorem tokensFrom_append (line : Nat) (first second : List Piece) :
    tokensFrom line (first ++ second) =
      tokensFrom line first ++ tokensFrom (line + (first.flatMap text).count '\n') second := by
  induction first generalizing line with
  | nil => rfl
  | cons p rest ih =>
    rw [List.cons_append, tokensFrom, tokensFrom, ih, List.flatMap_cons, List.count_append, ← lineEnds,
      Nat.add_assoc]
    cases p.toToken? line <;> rfl

theorem tokensFrom_lower (line lines : Nat) (pieces : List Piece) :
    tokensFrom (line + lines) pieces = (tokensFrom line pieces).map (·.lower lines) := by
  induction pieces generalizing line with
  | nil => rfl
  | cons p rest ih =>
    have made : p.toToken? (line + lines) = (p.toToken? line).map (·.lower lines) := by cases p <;> rfl
    rw [tokensFrom, tokensFrom, made, Nat.add_right_comm, ih]
    cases p.toToken? line <;> rfl

end Piece

/-- A text with a comment that is never closed. It is read if what is behind the slash can be read, and then
the opener is two marks; otherwise it is refused, because the text ended. -/
theorem tokenize_unclosed {source : String} {before : List Piece} {inside : List Char}
    (reaches : Cut.Reaches source.toList before ('/' :: '*' :: inside)) (unclosed : ¬ ['*', '/'] <:+: inside) :
    (∀ later, tokenize (String.ofList ('*' :: inside)) = .ok later →
      tokenize source = .ok (Piece.tokensFrom 1 before ++
        ⟨.punct, "/", lineAfter (before.flatMap Piece.text)⟩ ::
          later.map (·.lower ((before.flatMap Piece.text).count '\n')))) ∧
      ∀ e, tokenize (String.ofList ('*' :: inside)) = .error e →
        tokenize source = .error (.malformed (lineAfter source.toList) .endOfText) := by
  obtain ⟨pieces, rest, opens⟩ := reaches.ofText
  rw [Cut.ofText_eq (Piece.next?_unclosed unclosed)] at pieces rest opens
  have isOpen := opens (by rw [Cut.opensUnclosed_eq unclosed, Bool.true_or])
  constructor
  · intro later isLater
    unfold tokenize at isLater ⊢
    rw [String.toList_ofList] at isLater
    dsimp only at isLater ⊢ rest
    rw [rest]
    split at isLater
    · rename_i nothingLeft
      cases isLater
      rw [pieces, Piece.tokensFrom_append, Piece.tokensFrom, ← Piece.tokensFrom_lower]
      rfl
    · split at isLater <;> cases isLater
  · intro e refused
    unfold tokenize at refused ⊢
    rw [String.toList_ofList] at refused
    dsimp only at refused ⊢ rest
    rw [rest]
    split at refused
    · cases refused
    · rw [isOpen]
      rfl

namespace Sample

/-- A comment is opened on the second line and never closed. -/
def opened : String := "x\n /* y"

def openedPieces : List Piece := [.word ['x'], .blank ['\n', ' ']]

end Sample

/-- The text is not refused: the opener is a division and a product. With a character behind it that begins no
piece, it would be. -/
theorem tokenize_unclosed_opened :
    Cut.Reaches Sample.opened.toList Sample.openedPieces "/* y".toList ∧ ¬ ['*', '/'] <:+: " y".toList ∧
      tokenize Sample.opened = .ok [⟨.identifier, "x", 1⟩, ⟨.punct, "/", 2⟩, ⟨.punct, "*", 2⟩,
        ⟨.identifier, "y", 2⟩] := by
  have word : Piece.next? Sample.opened.toList = some (.word ['x'], "\n /* y".toList) := by decide
  have gap : Piece.next? "\n /* y".toList = some (.blank ['\n', ' '], "/* y".toList) := by decide
  have reaches : Cut.Reaches Sample.opened.toList Sample.openedPieces "/* y".toList :=
    .step word (.step gap (.here _))
  have unclosed : ¬ ['*', '/'] <:+: " y".toList := by decide
  have later : tokenize "* y" = .ok [⟨.punct, "*", 1⟩, ⟨.identifier, "y", 1⟩] := by decide
  exact ⟨reaches, unclosed, (tokenize_unclosed reaches unclosed).1 _ later⟩

end ContractCompiler
