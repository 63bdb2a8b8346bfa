import ContractCompiler.Token.Lexer
import Mathlib.Data.List.TakeWhile

/-!
# Proofs.Token.Lossless — no character of a source is lost

A source is cut into stretches without gaps. A stretch either leaves no token, and then it is white
space or a comment (`Skipped`), or it is what a token was read from (`Token.Spells`), which stands on
the line that the token says (`tokenize_lossless`).

One piece at the front of a text is looked at first (`Piece.next?_fits`), and from that what holds of
all the pieces follows by induction (`Cut.ofTextAux_fits`).
-/

namespace ContractCompiler

set_option autoImplicit false

/-! ## Stretches of text -/

/-- The text at the front leaves no token, and the text behind it is `rest`: it is white space, a
comment up to the end of its line, or a comment up to the first closer. -/
inductive Skipped : List Char → List Char → Prop
  | blank {cs rest : List Char} (some : cs ≠ []) (isBlank : ∀ c ∈ cs, Text.isBlank c = true) :
    Skipped cs rest
  | lineComment {inside rest : List Char} (oneLine : '\n' ∉ inside)
    (ends : ∀ c ∈ rest.head?, c = '\n') : Skipped ('/' :: '/' :: inside) rest
  | blockComment {inside rest : List Char} (first : ¬ ['*', '/'] <:+: inside ++ ['*']) :
    Skipped ('/' :: '*' :: (inside ++ ['*', '/'])) rest

/-- The second text is the first without its line continuations, outside of which no line ends. -/
inductive Continued : List Char → List Char → Prop
  | nil : Continued [] []
  | lineEnd {body text : List Char} (rest : Continued body text) :
    Continued ('\\' :: '\n' :: body) text
  | longLineEnd {body text : List Char} (rest : Continued body text) :
    Continued ('\\' :: '\r' :: '\n' :: body) text
  | char {c : Char} {body text : List Char} (inLine : c ≠ '\n') (rest : Continued body text) :
    Continued (c :: body) (c :: text)

/-- The second text is the first without the white space at its end. -/
def TrimmedRight (text trimmed : List Char) : Prop :=
  ∃ blanks, text = trimmed ++ blanks ∧ (∀ c ∈ blanks, Text.isBlank c = true) ∧
    ∀ c ∈ trimmed.getLast?, Text.isBlank c = false

/-- The token was read from a stretch of text. That of a directive has a `#` in front, may go over
several lines and may end with white space. -/
def Token.Spells (t : Token) (stretch : List Char) : Prop :=
  if t.kind = .directive then
    ∃ body text, stretch = '#' :: body ∧ Continued body text ∧ TrimmedRight text t.text.toList
  else t.text.toList = stretch

/-- The texts of the tokens of each kind. Underscores may separate the digits of a number, and a hexadecimal
number may consist of them. -/
inductive TokenKind.Lexical : TokenKind → List Char → Prop
  | identifier {c : Char} {rest : List Char} (start : Text.isNameStart c = true)
    (others : ∀ d ∈ rest, Text.isNameRest d = true) (free : String.ofList (c :: rest) ∉ keywords) :
    Lexical .identifier (c :: rest)
  | keyword {cs : List Char} (listed : String.ofList cs ∈ keywords) : Lexical .keyword cs
  | decimal {c : Char} {rest : List Char} (digit : Piece.isDecimalDigit c = true)
    (others : ∀ d ∈ rest, (Piece.isDecimalDigit d || d == '_') = true) : Lexical .number (c :: rest)
  | hex {x c : Char} {rest : List Char} (isHex : (x == 'x' || x == 'X') = true)
    (others : ∀ d ∈ c :: rest, (Piece.isHexDigit d || d == '_') = true) :
    Lexical .number ('0' :: x :: c :: rest)
  | longMark {cs : List Char} (listed : cs ∈ Piece.longMarks) : Lexical .punct cs
  | mark {c : Char} (listed : c ∈ Piece.shortMarks) : Lexical .punct [c]

/-- A stretch of a source, and the token that was read from it. -/
structure Stretch where
  text : List Char
  token? : Option Token

def Stretch.texts (stretches : List Stretch) : List Char := stretches.flatMap (·.text)

/-! ## Directives -/

theorem Continued.oneLine {body text : List Char} (continued : Continued body text) : '\n' ∉ text := by
  induction continued with
  | nil => exact List.not_mem_nil
  | lineEnd _ ih => exact ih
  | longLineEnd _ ih => exact ih
  | char inLine _ ih => exact List.not_mem_cons_of_ne_of_not_mem inLine.symm ih

/-- Where a scan stops, the next character does not pass. -/
theorem head?_dropWhile {α : Type} {p : α → Bool} {l : List α} {a : α}
    (first : (l.dropWhile p).head? = some a) : p a = false := by
  have stops := List.head?_dropWhile_not p l
  rwa [first] at stops

theorem Text.trimRight_trimmed (cs : List Char) : TrimmedRight cs (Text.trimRight cs) := by
  refine ⟨(cs.reverse.takeWhile Text.isBlank).reverse, ?_, ?_, ?_⟩
  · rw [Text.trimRight, ← List.reverse_append, List.takeWhile_append_dropWhile, List.reverse_reverse]
  · intro c mem
    exact List.mem_takeWhile_imp (List.mem_reverse.1 mem)
  · intro c last
    rw [Text.trimRight, List.getLast?_reverse] at last
    exact head?_dropWhile last

namespace Piece

/-- A directive goes on to a line end that is not continued, or to the end of the text. -/
theorem directiveBody_fits (cs : List Char) :
    (directiveBody cs).1 ++ (directiveBody cs).2 = cs ∧
      Continued (directiveBody cs).1 (joinLines (directiveBody cs).1) ∧
      ∀ c ∈ (directiveBody cs).2.head?, c = '\n' := by
  fun_induction directiveBody cs with
  | case1 => exact ⟨rfl, .nil, by simp⟩
  | case2 rest body after isBody ih =>
    rw [isBody] at ih
    obtain ⟨whole, continued, ends⟩ := ih
    exact ⟨by simp [← whole], .longLineEnd continued, ends⟩
  | case3 rest body after isBody ih =>
    rw [isBody] at ih
    obtain ⟨whole, continued, ends⟩ := ih
    exact ⟨by simp [← whole], .lineEnd continued, ends⟩
  | case4 rest => exact ⟨rfl, .nil, by simp⟩
  | case5 c rest notLong notShort inLine body after isBody ih =>
    rw [isBody] at ih
    obtain ⟨whole, continued, ends⟩ := ih
    subst whole
    have joined : joinLines (c :: body) = c :: joinLines body := by
      rw [joinLines]
      · exact fun rest isSlash next => notLong (rest ++ after) isSlash (by simp [next])
      · exact fun rest isSlash next => notShort (rest ++ after) isSlash (by simp [next])
    rw [joined]
    exact ⟨rfl, .char inLine continued, ends⟩

/-- The text up to the first comment closer. -/
theorem closeComment?_fits {cs inside after : List Char}
    (closed : closeComment? cs = some (inside, after)) :
    inside ++ after = cs ∧ ∃ text, inside = text ++ ['*', '/'] ∧ ¬ ['*', '/'] <:+: text ++ ['*'] := by
  fun_induction closeComment? cs generalizing inside with
  | case1 => cases closed
  | case2 rest =>
    cases closed
    exact ⟨rfl, [], rfl, by decide⟩
  | case3 c rest notCloser ih =>
    obtain ⟨⟨inside', after'⟩, found, same⟩ := Option.map_eq_some_iff.1 closed
    cases same
    obtain ⟨whole, text, rfl, first⟩ := ih found
    refine ⟨by simp [← whole], c :: text, rfl, fun closer => ?_⟩
    rcases List.infix_cons_iff.1 closer with here | later
    · -- the closer would have been met at this character
      obtain ⟨rfl, next⟩ := List.cons_prefix_cons.1 here
      obtain ⟨more, same⟩ : ['/'] <+: text ++ ['*', '/'] ++ after :=
        next.trans ⟨'/' :: after, by simp⟩
      exact notCloser more rfl (by rw [← whole, ← same]; rfl)
    · exact first later

/-! ## Pieces -/

theorem number?_fits {cs digits after : List Char} (isNumber : number? cs = some (digits, after)) :
    digits ++ after = cs ∧ TokenKind.number.Lexical digits := by
  -- a decimal number is looked for after a hexadecimal one
  have decimal : ∀ c rest, isDecimalDigit c = true →
      some (c :: rest.takeWhile fun d => isDecimalDigit d || d == '_',
        rest.dropWhile fun d => isDecimalDigit d || d == '_') = some (digits, after) →
      digits ++ after = c :: rest ∧ TokenKind.number.Lexical digits := by
    intro c rest digit isNumber
    cases isNumber
    exact ⟨by simp, .decimal digit fun d mem => by simpa using List.mem_takeWhile_imp mem⟩
  unfold number? at isNumber
  dsimp only at isNumber
  split at isNumber
  · rename_i x rest
    split at isNumber
    · rename_i passes
      obtain ⟨isHex, digits⟩ := Bool.and_eq_true_iff.1 passes
      cases isNumber
      cases rest with
      | nil => cases digits
      | cons c rest =>
        have first : (isHexDigit c || c == '_') = true := digits
        refine ⟨by simp, ?_⟩
        rw [List.takeWhile_cons, if_pos first]
        exact .hex isHex (List.forall_mem_cons.2 ⟨first, fun d mem => by simpa using List.mem_takeWhile_imp mem⟩)
    · exact decimal '0' (x :: rest) rfl isNumber
  · split at isNumber
    · split at isNumber
      · rename_i digit
        exact decimal _ _ digit isNumber
      · cases isNumber
    · cases isNumber

theorem mark?_fits {cs mark after : List Char} (isMark : mark? cs = some (mark, after)) :
    mark ++ after = cs ∧ TokenKind.punct.Lexical mark := by
  unfold mark? at isMark
  split at isMark
  · rename_i found
    cases isMark
    have isPrefix := List.find?_some found
    obtain ⟨rest, rfl⟩ := List.isPrefixOf_iff_prefix.1 isPrefix
    exact ⟨by simp, .longMark (List.mem_of_find?_eq_some found)⟩
  · split at isMark
    · split at isMark
      · rename_i listed
        cases isMark
        exact ⟨rfl, .mark (List.contains_iff_mem.1 listed)⟩
      · cases isMark
    · cases isMark

/-- What the text of a piece is like, before the text `after`. -/
def Fits (after : List Char) : Piece → Prop
  | blank cs => Skipped cs after
  | lineComment cs => Skipped cs after
  | blockComment cs => Skipped cs after
  | directive cs =>
    (∃ body, cs = '#' :: body ∧ Continued body (joinLines body)) ∧ ∀ c ∈ after.head?, c = '\n'
  | word cs => ∃ c rest, cs = c :: rest ∧ Text.isNameStart c = true ∧ ∀ d ∈ rest, Text.isNameRest d = true
  | number cs => TokenKind.number.Lexical cs
  | punct cs => TokenKind.punct.Lexical cs

theorem token?_fits {cs after : List Char} {p : Piece} (isToken : token? cs = some (p, after)) :
    p.text ++ after = cs ∧ p.Fits after := by
  unfold token? at isToken
  split at isToken
  · cases isToken
  · rename_i c rest
    split at isToken
    · rename_i isHash
      subst isHash
      obtain ⟨whole, continued, ends⟩ := directiveBody_fits rest
      cases isToken
      exact ⟨congrArg ('#' :: ·) whole, ⟨_, rfl, continued⟩, ends⟩
    · split at isToken
      · rename_i isNumber
        cases isToken
        exact number?_fits isNumber
      · split at isToken
        · rename_i start
          cases isToken
          exact ⟨by simp [text], c, _, rfl, start, fun d mem => List.mem_takeWhile_imp mem⟩
        · obtain ⟨⟨mark, after'⟩, isMark, same⟩ := Option.map_eq_some_iff.1 isToken
          cases same
          exact mark?_fits isMark

/-- The piece at the front of a text, and the text behind it, are the text. -/
theorem next?_fits {cs after : List Char} {p : Piece} (isNext : next? cs = some (p, after)) :
    p.text ++ after = cs ∧ p.Fits after := by
  unfold next? at isNext
  split at isNext
  · cases isNext
  · rename_i c rest
    split at isNext
    · rename_i isBlank
      cases isNext
      refine ⟨by simp [text], .blank (List.cons_ne_nil _ _) ?_⟩
      exact List.forall_mem_cons.2 ⟨isBlank, fun c mem => List.mem_takeWhile_imp mem⟩
    · split at isNext
      · rename_i after
        cases isNext
        refine ⟨by simp [text], .lineComment (fun mem => ?_) fun c first => ?_⟩
        · simpa using List.mem_takeWhile_imp mem
        · simpa using head?_dropWhile first
      · rename_i after
        split at isNext
        · rename_i closed
          cases isNext
          obtain ⟨rfl, text, rfl, first⟩ := closeComment?_fits closed
          exact ⟨rfl, .blockComment first⟩
        · exact token?_fits isNext
      · exact token?_fits isNext

end Piece

/-- The pieces of a text in turn, and what is left of it, are the text. -/
theorem Cut.ofTextAux_fits (fuel : Nat) (cs : List Char) :
    (ofTextAux fuel cs).pieces.flatMap Piece.text ++ (ofTextAux fuel cs).rest = cs ∧
      ∀ before p after, (ofTextAux fuel cs).pieces = before ++ p :: after →
        p.Fits (after.flatMap Piece.text ++ (ofTextAux fuel cs).rest) := by
  induction fuel generalizing cs with
  | zero => exact ⟨rfl, by simp [ofTextAux]⟩
  | succ fuel ih =>
    unfold ofTextAux
    split
    · exact ⟨rfl, by simp⟩
    · rename_i first after isNext
      obtain ⟨whole, fits⟩ := Piece.next?_fits isNext
      obtain ⟨wholeRest, fitsRest⟩ := ih after
      refine ⟨by simp [wholeRest, whole], fun before p later isSplit => ?_⟩
      cases before with
      | nil =>
        obtain ⟨rfl, rfl⟩ := List.cons.inj isSplit
        rwa [wholeRest]
      | cons _ before => exact fitsRest before p later (List.cons.inj isSplit).2

/-! ## Stretches -/

/-- The stretches that pieces are, of which the first begins at `line`. -/
def Stretch.ofPieces : Nat → List Piece → List Stretch
  | _, [] => []
  | line, p :: rest => ⟨p.text, p.toToken? line⟩ :: ofPieces (line + p.lineEnds) rest

namespace Stretch

@[simp] theorem texts_nil : texts [] = [] := rfl

@[simp] theorem texts_cons (s : Stretch) (rest : List Stretch) : texts (s :: rest) = s.text ++ texts rest :=
  rfl

theorem texts_ofPieces (line : Nat) (pieces : List Piece) :
    texts (ofPieces line pieces) = pieces.flatMap Piece.text := by
  induction pieces generalizing line with
  | nil => rfl
  | cons p rest ih => simp [ofPieces, ih]

theorem tokens_ofPieces (line : Nat) (pieces : List Piece) :
    (ofPieces line pieces).filterMap Stretch.token? = Piece.tokensFrom line pieces := by
  induction pieces generalizing line with
  | nil => rfl
  | cons p rest ih =>
    rw [ofPieces, Piece.tokensFrom, List.filterMap_cons, ih]
    dsimp only
    cases p.toToken? line <;> rfl

/-- A stretch begins on the line that the text before it ends on. -/
theorem ofPieces_eq_append {line : Nat} {pieces : List Piece} {before after : List Stretch}
    {s : Stretch} (isSplit : ofPieces line pieces = before ++ s :: after) :
    ∃ earlier p later, pieces = earlier ++ p :: later ∧
      s = ⟨p.text, p.toToken? (line + (texts before).count '\n')⟩ ∧
      texts after = later.flatMap Piece.text := by
  induction pieces generalizing line before with
  | nil => simp [ofPieces] at isSplit
  | cons p rest ih =>
    rw [ofPieces] at isSplit
    cases before with
    | nil =>
      obtain ⟨rfl, rfl⟩ := List.cons.inj isSplit
      exact ⟨[], p, rest, rfl, rfl, texts_ofPieces _ rest⟩
    | cons first before =>
      obtain ⟨rfl, isRest⟩ := List.cons.inj isSplit
      obtain ⟨earlier, p', later, rfl, rfl, same⟩ := ih isRest
      refine ⟨p :: earlier, p', later, rfl, ?_, same⟩
      rw [texts_cons, List.count_append, ← Nat.add_assoc]
      rfl

end Stretch

/-- A token is read from the text of its piece, on the line where this begins. A directive takes the
rest of its line. -/
theorem Piece.Fits.spells {p : Piece} {after : List Char} {line : Nat} {t : Token} (fits : p.Fits after)
    (made : p.toToken? line = some t) :
    t.line = line ∧ t.Spells p.text ∧ (t.kind = .directive → ∀ c ∈ after.head?, c = '\n') := by
  cases p with
  | blank _ | lineComment _ | blockComment _ => cases made
  | directive cs =>
    obtain ⟨⟨body, rfl, continued⟩, ends⟩ := fits
    cases made
    have trimmed := Text.trimRight_trimmed (joinLines body)
    exact ⟨rfl, ⟨body, _, rfl, continued, by simpa using trimmed⟩, fun _ => ends⟩
  | word cs =>
    cases made
    have noDirective : (if keywords.contains (String.ofList cs) then TokenKind.keyword
        else .identifier) ≠ .directive := by split <;> decide
    refine ⟨rfl, ?_, fun isDirective => absurd isDirective noDirective⟩
    rw [Token.Spells, if_neg noDirective]
    exact String.toList_ofList
  | number _ | punct _ =>
    cases made
    exact ⟨rfl, String.toList_ofList, by simp⟩

/-- A token that is no directive has a text of its kind. -/
theorem Piece.Fits.lexical {p : Piece} {after : List Char} {line : Nat} {t : Token} (fits : p.Fits after)
    (made : p.toToken? line = some t) (noDirective : t.kind ≠ .directive) : t.kind.Lexical t.text.toList := by
  cases p with
  | blank _ | lineComment _ | blockComment _ => cases made
  | directive _ =>
    cases made
    exact absurd rfl noDirective
  | word cs =>
    obtain ⟨c, rest, rfl, start, others⟩ := fits
    cases made
    dsimp only
    rw [String.toList_ofList]
    split
    · rename_i listed
      exact .keyword (List.contains_iff_mem.1 listed)
    · rename_i free
      exact .identifier start others fun listed => free (List.contains_iff_mem.2 listed)
  | number _ | punct _ =>
    cases made
    rwa [String.toList_ofList]

/-- What leaves no token is skipped. -/
theorem Piece.Fits.skipped {p : Piece} {after : List Char} {line : Nat} (fits : p.Fits after)
    (nothing : p.toToken? line = none) : Skipped p.text after := by
  cases p with
  | blank _ | lineComment _ | blockComment _ => exact fits
  | directive _ | word _ | number _ | punct _ => cases nothing

/-- The text of a token has no line end. -/
theorem Token.Spells.oneLine {t : Token} {stretch : List Char} (spells : t.Spells stretch)
    (isDirective : t.kind = .directive) : '\n' ∉ t.text.toList := by
  rw [Spells, if_pos isDirective] at spells
  obtain ⟨body, text, -, continued, blanks, rfl, -⟩ := spells
  exact fun mem => continued.oneLine (List.mem_append_left _ mem)

/-- A source that can be read splits without gaps into stretches that are skipped and stretches that
tokens are read from, each of which begins on the line of its token. A directive takes the rest of its
line. -/
theorem tokenize_lossless {source : String} {tokens : List Token}
    (read : tokenize source = .ok tokens) :
    ∃ stretches : List Stretch, Stretch.texts stretches = source.toList ∧
      stretches.filterMap Stretch.token? = tokens ∧
      ∀ before s after, stretches = before ++ s :: after →
        (s.token? = none → Skipped s.text (Stretch.texts after)) ∧
        ∀ t, s.token? = some t → t.Spells s.text ∧
          (t.kind = .directive → '\n' ∉ t.text.toList ∧ ∀ c ∈ (Stretch.texts after).head?, c = '\n') ∧
          t.line = 1 + (Stretch.texts before).count '\n' := by
  unfold tokenize at read
  dsimp only at read
  obtain ⟨whole, fits⟩ := Cut.ofTextAux_fits source.toList.length source.toList
  split at read
  · rename_i nothingLeft
    cases read
    rw [← Cut.ofText, nothingLeft, List.append_nil] at whole
    refine ⟨Stretch.ofPieces 1 (Cut.ofText source.toList).pieces, ?_, ?_, fun before s after isSplit => ?_⟩
    · rw [Stretch.texts_ofPieces, whole]
    · exact Stretch.tokens_ofPieces 1 _
    · obtain ⟨earlier, p, later, isPiece, rfl, same⟩ := Stretch.ofPieces_eq_append isSplit
      have fitsP := fits earlier p later isPiece
      rw [← Cut.ofText, nothingLeft, List.append_nil, ← same] at fitsP
      refine ⟨fitsP.skipped, fun t made => ?_⟩
      obtain ⟨line, spells, ends⟩ := fitsP.spells made
      exact ⟨spells, fun isDirective => ⟨spells.oneLine isDirective, ends isDirective⟩, line⟩
  · split at read <;> cases read

namespace Sample

/-- A continued directive, and comments of both kinds. -/
def annotated : String :=
  "#pragma maxAuxVars \\\r\n4 \r\nlong a; // a <<= 1\n/* /* **/ a <<= 0x_1F; /"

def annotatedTokens : List Token :=
  [⟨.directive, "pragma maxAuxVars 4", 1⟩, ⟨.keyword, "long", 3⟩, ⟨.identifier, "a", 3⟩,
    ⟨.punct, ";", 3⟩, ⟨.identifier, "a", 4⟩, ⟨.punct, "<<=", 4⟩, ⟨.number, "0x_1F", 4⟩,
    ⟨.punct, ";", 4⟩, ⟨.punct, "/", 4⟩]

end Sample

/-- The stretches of a text with a continued directive and with comments. -/
theorem tokenize_lossless_annotated :
    tokenize Sample.annotated = .ok Sample.annotatedTokens ∧
      ∃ stretches : List Stretch, Stretch.texts stretches = Sample.annotated.toList ∧
        stretches.filterMap Stretch.token? = Sample.annotatedTokens := by
  have read : tokenize Sample.annotated = .ok Sample.annotatedTokens := by decide +kernel
  obtain ⟨stretches, whole, tokens, -⟩ := tokenize_lossless read
  exact ⟨read, stretches, whole, tokens⟩

end ContractCompiler
