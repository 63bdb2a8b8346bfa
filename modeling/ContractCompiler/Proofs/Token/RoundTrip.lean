import ContractCompiler.Proofs.Token.Lossless
import Mathlib.Data.List.Find

/-!
# Proofs.Token.RoundTrip — tokens that are written with white space between them are read again

A text of the lexical grammar that white space follows is taken off the front of a text as one piece
(`TokenKind.Lexical.next?_eq`): no other piece is longer, and none is looked for earlier. Since a piece is
never empty, a text is cut piece by piece (`Cut.ofText_eq`), whatever the fuel is. So tokens that are
written one after the other, apart from each other, are read again, each on its line (`tokenize_written`).
-/

namespace ContractCompiler

set_option autoImplicit false

/-! ## Characters -/

namespace Text

/-- The characters of the class `White_Space`. -/
def blanks : List Char :=
  ([9, 10, 11, 12, 13, 0x20, 0x85, 0xa0, 0x1680, 0x2000, 0x2001, 0x2002, 0x2003, 0x2004, 0x2005, 0x2006,
    0x2007, 0x2008, 0x2009, 0x200a, 0x2028, 0x2029, 0x202f, 0x205f, 0x3000] : List Nat).map Char.ofNat

theorem mem_blanks {c : Char} (isBlank : isBlank c = true) : c ∈ blanks := by
  rw [← Char.ofNat_toNat c]
  refine List.mem_map_of_mem ?_
  simp only [Text.isBlank, Bool.or_eq_true, Bool.and_eq_true, decide_eq_true_eq, beq_iff_eq] at isBlank
  simp only [List.mem_cons, List.not_mem_nil, or_false]
  omega

/-- A class of characters without white space. -/
theorem isBlank_eq_false {p : Char → Bool} (free : blanks.any p = false) {c : Char} (passes : p c = true) :
    isBlank c = false := by
  rw [← Bool.not_eq_true]
  exact fun isBlank => List.any_eq_false.1 free c (mem_blanks isBlank) passes

theorem isNameStart_blank : blanks.any isNameStart = false := by decide +kernel

theorem isNameRest_blank : blanks.any isNameRest = false := by decide +kernel

end Text

namespace Piece

theorem isDecimalRest_blank : Text.blanks.any (fun c => isDecimalDigit c || c == '_') = false := by decide

theorem isHexRest_blank : Text.blanks.any (fun c => isHexDigit c || c == '_') = false := by decide

end Piece

/-- The text is at its end, or goes on with white space. -/
def StopsBlank (after : List Char) : Prop := ∀ c ∈ after.head?, Text.isBlank c = true

/-- What is taken while it passes ends where white space follows. -/
theorem StopsBlank.span {p : Char → Bool} {cs after : List Char} (stops : StopsBlank after)
    (free : Text.blanks.any p = false) (passes : ∀ c ∈ cs, p c = true) :
    (cs ++ after).takeWhile p = cs ∧ (cs ++ after).dropWhile p = after := by
  rw [List.takeWhile_append_of_pos passes, List.dropWhile_append_of_pos passes]
  cases after with
  | nil => simp
  | cons c rest =>
    have fails := List.any_eq_false.1 free c (Text.mem_blanks (stops c rfl))
    simp [fails]

namespace TokenKind.Lexical

variable {kind : TokenKind} {text after : List Char}

/-- A keyword is a word, too. -/
theorem keyword_word (listed : String.ofList text ∈ keywords) : ∃ c rest, text = c :: rest ∧
    Text.isNameStart c = true ∧ ∀ d ∈ rest, Text.isNameRest d = true := by
  have words : (keywords.all fun word => word.toList.head?.any Text.isNameStart &&
      word.toList.tail.all Text.isNameRest) = true := by decide
  have isWord := List.all_eq_true.1 words _ listed
  rw [String.toList_ofList, Bool.and_eq_true, Option.any_eq_true, List.all_eq_true] at isWord
  obtain ⟨⟨c, first, start⟩, others⟩ := isWord
  obtain ⟨rest, rfl⟩ := List.head?_eq_some_iff.1 first
  exact ⟨c, rest, rfl, start, others⟩

theorem punct_listed (lexical : punct.Lexical text) : text ∈ Piece.longMarks ++ Piece.shortMarks.map ([·]) := by
  cases lexical with
  | longMark listed => exact List.mem_append_left _ listed
  | mark listed => exact List.mem_append_right _ (List.mem_map_of_mem listed)

theorem punct_not_blank (lexical : punct.Lexical text) : ∀ c ∈ text, Text.isBlank c = false := by
  have marks : ((Piece.longMarks ++ Piece.shortMarks.map ([·])).all (·.all fun c => !Text.isBlank c)) = true := by
    decide
  have free := List.all_eq_true.1 marks _ lexical.punct_listed
  exact fun c mem => by simpa using List.all_eq_true.1 free c mem

/-- No white space stands inside of a token. -/
theorem not_blank (lexical : kind.Lexical text) : ∀ c ∈ text, Text.isBlank c = false := by
  have word : ∀ {c : Char} {rest : List Char}, Text.isNameStart c = true →
      (∀ d ∈ rest, Text.isNameRest d = true) → ∀ d ∈ c :: rest, Text.isBlank d = false := fun start others =>
    List.forall_mem_cons.2 ⟨Text.isBlank_eq_false Text.isNameStart_blank start,
      fun d mem => Text.isBlank_eq_false Text.isNameRest_blank (others d mem)⟩
  cases lexical with
  | identifier start others _ => exact word start others
  | keyword listed =>
    obtain ⟨c, rest, rfl, start, others⟩ := keyword_word listed
    exact word start others
  | decimal digit others =>
    refine fun d mem => Text.isBlank_eq_false Piece.isDecimalRest_blank ?_
    rcases List.mem_cons.1 mem with rfl | mem
    · simp [digit]
    · exact others d mem
  | @hex x c rest isHex others =>
    refine List.forall_mem_cons.2 ⟨by decide, List.forall_mem_cons.2 ⟨?_, fun d mem =>
      Text.isBlank_eq_false Piece.isHexRest_blank (others d mem)⟩⟩
    rcases Bool.or_eq_true_iff.1 isHex with same | same <;> rw [beq_iff_eq.1 same] <;> decide
  | longMark listed => exact punct_not_blank (.longMark listed)
  | mark listed => exact punct_not_blank (.mark listed)

theorem ne_nil (lexical : kind.Lexical text) : text ≠ [] := by
  cases lexical with
  | keyword listed =>
    obtain ⟨c, rest, rfl, -⟩ := keyword_word listed
    exact List.cons_ne_nil _ _
  | longMark listed => exact (by decide : ∀ cs ∈ Piece.longMarks, cs ≠ []) _ listed
  | _ => exact List.cons_ne_nil _ _

end TokenKind.Lexical

/-! ## One piece -/

namespace Piece

/-- Where no white space and no comment begins, a token is looked for. -/
theorem next?_eq_token? {c : Char} {rest : List Char} (notBlank : Text.isBlank c = false)
    (noComment : c = '/' → ∀ d ∈ rest.head?, d ≠ '/' ∧ d ≠ '*') : next? (c :: rest) = token? (c :: rest) := by
  unfold next?
  dsimp only
  rw [notBlank, if_neg Bool.false_ne_true]
  split
  · exact absurd rfl (noComment rfl '/' rfl).1
  · exact absurd rfl (noComment rfl '*' rfl).2
  · rfl

theorem next?_blank {gap after : List Char} (some : gap ≠ []) (isBlank : ∀ c ∈ gap, Text.isBlank c = true)
    (stops : ∀ c ∈ after.head?, Text.isBlank c = false) : next? (gap ++ after) = .some (blank gap, after) := by
  cases gap with
  | nil => exact absurd rfl some
  | cons c gap =>
    obtain ⟨first, others⟩ := List.forall_mem_cons.1 isBlank
    have span : (gap ++ after).takeWhile Text.isBlank = gap ∧ (gap ++ after).dropWhile Text.isBlank = after := by
      rw [List.takeWhile_append_of_pos others, List.dropWhile_append_of_pos others]
      cases after with
      | nil => simp
      | cons d after => simp [stops d rfl]
    unfold next?
    dsimp only [List.cons_append]
    rw [if_pos first, span.1, span.2]

/-- A digit begins no name, no comment and no directive. -/
theorem isDecimalDigit_start {c : Char} (digit : isDecimalDigit c = true) :
    Text.isNameStart c = false ∧ c ≠ '/' ∧ c ≠ '#' := by
  have digits : ∀ n < 58, isDecimalDigit (Char.ofNat n) = true →
      Text.isNameStart (Char.ofNat n) = false ∧ Char.ofNat n ≠ '/' ∧ Char.ofNat n ≠ '#' := by decide
  have below : c.toNat < 58 := Nat.lt_succ_of_le (Char.le_def.1 (of_decide_eq_true (Bool.and_eq_true_iff.1 digit).2))
  have known := digits c.toNat below
  rw [Char.ofNat_toNat] at known
  exact known digit

theorem number?_eq_none {c : Char} {rest : List Char} (noDigit : isDecimalDigit c = false) :
    number? (c :: rest) = none := by
  unfold number?
  dsimp only
  split
  · rename_i same
    rw [(List.cons.inj same).1] at noDigit
    exact absurd noDigit (by decide)
  · rw [noDigit, if_neg Bool.false_ne_true]

variable {after : List Char} (stops : StopsBlank after)
include stops

theorem next?_word {c : Char} {rest : List Char} (start : Text.isNameStart c = true)
    (others : ∀ d ∈ rest, Text.isNameRest d = true) :
    next? (c :: rest ++ after) = some (word (c :: rest), after) := by
  have notHash : c ≠ '#' := fun same => absurd start (by rw [same]; decide)
  have notSlash : c ≠ '/' := fun same => absurd start (by rw [same]; decide)
  have noDigit : isDecimalDigit c = false := by
    rw [← Bool.not_eq_true]
    intro digit
    rw [(isDecimalDigit_start digit).1] at start
    cases start
  obtain ⟨taken, left⟩ := stops.span Text.isNameRest_blank others
  rw [List.cons_append, next?_eq_token? (Text.isBlank_eq_false Text.isNameStart_blank start)
    fun same => absurd same notSlash]
  unfold token?
  dsimp only
  rw [if_neg notHash, number?_eq_none noDigit]
  dsimp only
  rw [if_pos start, taken, left]

theorem next?_decimal {c : Char} {rest : List Char} (digit : isDecimalDigit c = true)
    (others : ∀ d ∈ rest, (isDecimalDigit d || d == '_') = true) :
    next? (c :: rest ++ after) = some (number (c :: rest), after) := by
  obtain ⟨-, notSlash, notHash⟩ := isDecimalDigit_start digit
  obtain ⟨taken, left⟩ := stops.span isDecimalRest_blank others
  have isNumber : number? (c :: (rest ++ after)) = some (c :: rest, after) := by
    have decimal : (if isDecimalDigit c = true then some (c :: (rest ++ after).takeWhile fun d =>
        isDecimalDigit d || d == '_', (rest ++ after).dropWhile fun d => isDecimalDigit d || d == '_')
        else none) = some (c :: rest, after) := by rw [if_pos digit, taken, left]
    unfold number?
    dsimp only
    split
    · rename_i x more whole
      obtain ⟨rfl, same⟩ := List.cons.inj whole
      -- no hexadecimal number begins here: the second character is a digit, an underscore or white space
      have passes : (isDecimalDigit x || x == '_') = true ∨ Text.isBlank x = true := by
        cases rest with
        | nil => exact .inr (stops x (by rw [show after = x :: more from same]; rfl))
        | cons d rest =>
          obtain ⟨rfl, -⟩ := List.cons.inj same
          exact .inl (others d List.mem_cons_self)
      have noHex : (x == 'x' || x == 'X') = false := by
        rw [← Bool.not_eq_true, Bool.or_eq_true, beq_iff_eq, beq_iff_eq]
        rintro (rfl | rfl) <;> exact absurd passes (by decide)
      rw [noHex, Bool.false_and, if_neg Bool.false_ne_true]
      exact decimal
    · exact decimal
  rw [List.cons_append, next?_eq_token? (Text.isBlank_eq_false isDecimalRest_blank (by simp [digit]))
    fun same => absurd same notSlash]
  unfold token?
  dsimp only
  rw [if_neg notHash, isNumber]

theorem next?_hex {x c : Char} {rest : List Char} (isHex : (x == 'x' || x == 'X') = true)
    (others : ∀ d ∈ c :: rest, (isHexDigit d || d == '_') = true) :
    next? ('0' :: x :: c :: rest ++ after) = some (number ('0' :: x :: c :: rest), after) := by
  obtain ⟨taken, left⟩ := stops.span isHexRest_blank others
  have isNumber : number? ('0' :: x :: (c :: rest ++ after)) = some ('0' :: x :: c :: rest, after) := by
    have first : (isHexDigit c || c == '_') = true := others c List.mem_cons_self
    refine (if_pos (Bool.and_eq_true_iff.2 ⟨isHex, first⟩)).trans ?_
    rw [taken, left]
  rw [List.cons_append, List.cons_append, next?_eq_token? (by decide) fun same => absurd same (by decide)]
  unfold token?
  dsimp only
  rw [if_neg (by decide), isNumber]

/-- White space ends a mark, however it could go on. -/
theorem find?_longMarks (cs : List Char) :
    longMarks.find? (·.isPrefixOf (cs ++ after)) = longMarks.find? (·.isPrefixOf cs) := by
  refine List.find?_congr fun mark listed => Bool.eq_iff_iff.2 ?_
  rw [List.isPrefixOf_iff_prefix, List.isPrefixOf_iff_prefix]
  refine ⟨fun here => ?_, fun here => here.trans (List.prefix_append cs after)⟩
  rcases List.prefix_or_prefix_of_prefix here (List.prefix_append cs after) with short | ⟨more, rfl⟩
  · exact short
  · -- the mark would go on with the white space
    cases more with
    | nil => simp
    | cons c more =>
      obtain ⟨beyond, rfl⟩ := (List.prefix_append_right_inj cs).1 here
      have isBlank := stops c rfl
      rw [TokenKind.Lexical.punct_not_blank (.longMark listed) c (by simp)] at isBlank
      cases isBlank

theorem next?_mark {cs : List Char} (lexical : TokenKind.punct.Lexical cs) :
    next? (cs ++ after) = some (punct cs, after) := by
  have isMark : mark? (cs ++ after) = some (cs, after) := by
    unfold mark?
    rw [find?_longMarks stops]
    cases lexical with
    | longMark listed =>
      rw [(by decide : ∀ mark ∈ longMarks, longMarks.find? (·.isPrefixOf mark) = some mark) cs listed]
      simp
    | @mark c listed =>
      have short : (shortMarks.all fun c => (longMarks.find? (·.isPrefixOf [c])).isNone) = true := by decide
      rw [Option.isNone_iff_eq_none.1 (List.all_eq_true.1 short c listed)]
      exact if_pos (List.contains_iff_mem.2 listed)
  obtain ⟨c, rest, rfl, fresh, noComment⟩ : ∃ c rest, cs = c :: rest ∧
      (Text.isBlank c || Text.isNameStart c || isDecimalDigit c || c == '#') = false ∧
        (c = '/' → ∀ d ∈ (rest ++ after).head?, d ≠ '/' ∧ d ≠ '*') := by
    have starts : ((longMarks ++ shortMarks.map ([·])).all fun mark => (mark.head?.any fun c =>
        !(Text.isBlank c || Text.isNameStart c || isDecimalDigit c || c == '#')) &&
          mark.tail.head?.all fun d => d != '/' && d != '*') = true := by decide
    have start := List.all_eq_true.1 starts cs lexical.punct_listed
    rw [Bool.and_eq_true, Option.any_eq_true, Option.all_eq_true] at start
    obtain ⟨⟨c, first, fresh⟩, second⟩ := start
    obtain ⟨rest, rfl⟩ := List.head?_eq_some_iff.1 first
    refine ⟨c, rest, rfl, by simpa using fresh, fun _ d isNext => ?_⟩
    cases rest with
    | nil =>
      have isBlank := stops d isNext
      constructor <;> rintro rfl <;> exact absurd isBlank (by decide)
    | cons _ _ => simpa using second d isNext
  simp only [Bool.or_eq_false_iff, beq_eq_false_iff_ne] at fresh
  obtain ⟨⟨⟨notBlank, noName⟩, noDigit⟩, notHash⟩ := fresh
  rw [List.cons_append, next?_eq_token? notBlank noComment]
  unfold token?
  dsimp only
  rw [if_neg notHash, number?_eq_none noDigit]
  dsimp only
  rw [noName, if_neg Bool.false_ne_true, ← List.cons_append, isMark]
  rfl

end Piece

/-- A text of the lexical grammar that white space follows is one piece. -/
theorem TokenKind.Lexical.next?_eq {kind : TokenKind} {text after : List Char} (lexical : kind.Lexical text)
    (stops : StopsBlank after) : ∃ p : Piece, Piece.next? (text ++ after) = some (p, after) ∧ p.text = text ∧
      ∀ line, p.toToken? line = some ⟨kind, String.ofList text, line⟩ := by
  cases lexical with
  | identifier start others free =>
    refine ⟨_, Piece.next?_word stops start others, rfl, fun line => ?_⟩
    rw [Piece.toToken?, if_neg (mt List.contains_iff_mem.1 free)]
  | keyword listed =>
    obtain ⟨c, rest, rfl, start, others⟩ := keyword_word listed
    refine ⟨_, Piece.next?_word stops start others, rfl, fun line => ?_⟩
    rw [Piece.toToken?, if_pos (List.contains_iff_mem.2 listed)]
  | decimal digit others => exact ⟨_, Piece.next?_decimal stops digit others, rfl, fun _ => rfl⟩
  | hex isHex others => exact ⟨_, Piece.next?_hex stops isHex others, rfl, fun _ => rfl⟩
  | longMark listed => exact ⟨_, Piece.next?_mark stops (.longMark listed), rfl, fun _ => rfl⟩
  | mark listed => exact ⟨_, Piece.next?_mark stops (.mark listed), rfl, fun _ => rfl⟩

/-! ## All pieces -/

/-- No piece is empty. -/
theorem Piece.Fits.text_ne_nil {p : Piece} {after : List Char} (fits : p.Fits after) : p.text ≠ [] := by
  cases p with
  | blank _ | lineComment _ | blockComment _ =>
    cases fits with
    | blank some _ => exact some
    | _ => exact List.cons_ne_nil _ _
  | directive _ =>
    obtain ⟨⟨body, rfl, -⟩, -⟩ := fits
    exact List.cons_ne_nil _ _
  | word _ =>
    obtain ⟨c, rest, rfl, -⟩ := fits
    exact List.cons_ne_nil _ _
  | number _ | punct _ => exact TokenKind.Lexical.ne_nil fits

theorem Piece.next?_length {cs after : List Char} {p : Piece} (isNext : next? cs = some (p, after)) :
    after.length < cs.length := by
  obtain ⟨rfl, fits⟩ := next?_fits isNext
  have := List.length_pos_iff.2 fits.text_ne_nil
  rw [List.length_append]
  omega

namespace Cut

/-- As much fuel as there are characters suffices. -/
theorem ofTextAux_eq {fuel fuel' : Nat} {cs : List Char} (enough : cs.length ≤ fuel)
    (enough' : cs.length ≤ fuel') : ofTextAux fuel cs = ofTextAux fuel' cs := by
  induction fuel generalizing fuel' cs with
  | zero =>
    obtain rfl := List.length_eq_zero_iff.1 (Nat.le_zero.1 enough)
    cases fuel' <;> rfl
  | succ fuel ih =>
    cases fuel' with
    | zero =>
      obtain rfl := List.length_eq_zero_iff.1 (Nat.le_zero.1 enough')
      rfl
    | succ fuel' =>
      unfold ofTextAux
      cases isNext : Piece.next? cs with
      | none => rfl
      | some found =>
        have shorter := Piece.next?_length isNext
        dsimp only
        rw [ih (show found.2.length ≤ fuel by omega) (show found.2.length ≤ fuel' by omega)]

/-- A text is cut by its first piece. -/
theorem ofText_eq {cs after : List Char} {p : Piece} (isNext : Piece.next? cs = some (p, after)) :
    ofText cs = ⟨p :: (ofText after).pieces, (ofText after).rest,
      opensUnclosed cs || (ofText after).openComment⟩ := by
  have shorter := Piece.next?_length isNext
  obtain ⟨fuel, isFuel⟩ : ∃ fuel, cs.length = fuel + 1 := ⟨cs.length - 1, by omega⟩
  rw [ofText, isFuel, ofTextAux, isNext]
  dsimp only
  rw [ofTextAux_eq (show after.length ≤ fuel by omega) (Nat.le_refl _)]
  rfl

end Cut

/-! ## Written tokens -/

/-- A token as it is written: white space, and a text of the lexical grammar. -/
structure Written where
  gap : List Char
  kind : TokenKind
  text : List Char
  isBlank : ∀ c ∈ gap, Text.isBlank c = true
  lexical : kind.Lexical text

namespace Written

def source (ws : List Written) : List Char := ws.flatMap fun w => w.gap ++ w.text

/-- The tokens that are written behind the text `before`, each with the line on which it begins. -/
def tokens : List Char → List Written → List Token
  | _, [] => []
  | before, w :: rest =>
    ⟨w.kind, String.ofList w.text, lineAfter (before ++ w.gap)⟩ :: tokens (before ++ w.gap ++ w.text) rest

/-- The tokens are read from the text, which begins at `line`. -/
def Reads (line : Nat) (cs : List Char) (read : List Token) : Prop :=
  (Cut.ofText cs).rest = [] ∧ Piece.tokensFrom line (Cut.ofText cs).pieces = read

theorem Reads.gap {line : Nat} {gap after : List Char} {read : List Token}
    (isBlank : ∀ c ∈ gap, Text.isBlank c = true) (stops : ∀ c ∈ after.head?, Text.isBlank c = false)
    (reads : Reads (line + gap.count '\n') after read) : Reads line (gap ++ after) read := by
  by_cases some : gap = []
  · subst some
    exact reads
  · rw [Reads, Cut.ofText_eq (Piece.next?_blank some isBlank stops)]
    exact reads

theorem Reads.token {kind : TokenKind} {line : Nat} {text after : List Char} {read : List Token}
    (lexical : kind.Lexical text) (stops : StopsBlank after) (reads : Reads line after read) :
    Reads line (text ++ after) (⟨kind, String.ofList text, line⟩ :: read) := by
  obtain ⟨p, isNext, rfl, made⟩ := lexical.next?_eq stops
  have oneLine : p.lineEnds = 0 := by
    refine List.count_eq_zero.2 fun mem => ?_
    exact absurd (lexical.not_blank '\n' mem) (by decide)
  rw [Reads, Cut.ofText_eq isNext, Piece.tokensFrom, made line, oneLine]
  exact ⟨reads.1, congrArg (_ :: ·) reads.2⟩

theorem Reads.tokenize {source : String} {read : List Token} (reads : Reads 1 source.toList read) :
    tokenize source = .ok read := by
  unfold ContractCompiler.tokenize
  dsimp only
  rw [reads.1, ← reads.2]

theorem source_reads {ws : List Written} (apart : ∀ w ∈ ws.tail, w.gap ≠ []) {tail : List Char}
    (isBlank : ∀ c ∈ tail, Text.isBlank c = true) (before : List Char) :
    Reads (lineAfter before) (source ws ++ tail) (tokens before ws) := by
  induction ws generalizing before with
  | nil =>
    rw [source, List.flatMap_nil, List.nil_append, ← List.append_nil tail]
    exact .gap isBlank (by simp) ⟨rfl, rfl⟩
  | cons w rest ih =>
    have later := ih (fun w mem => apart w (List.mem_of_mem_tail mem)) (before ++ w.gap ++ w.text)
    have oneLine : w.text.count '\n' = 0 :=
      List.count_eq_zero.2 fun mem => absurd (w.lexical.not_blank '\n' mem) (by decide)
    have sameLine : lineAfter (before ++ w.gap ++ w.text) = lineAfter before + w.gap.count '\n' := by
      simp only [lineAfter, List.count_append]
      omega
    have stops : StopsBlank (source rest ++ tail) := by
      cases rest with
      | nil => exact fun c first => isBlank c (List.mem_of_head? first)
      | cons w' rest =>
        obtain ⟨c, more, isGap⟩ := List.exists_cons_of_ne_nil (apart w' List.mem_cons_self)
        intro d first
        have : c = d := by simpa [source, isGap] using first
        exact this ▸ w'.isBlank c (isGap ▸ List.mem_cons_self)
    have token := Reads.token w.lexical stops (sameLine ▸ later)
    have starts : ∀ c ∈ (w.text ++ (source rest ++ tail)).head?, Text.isBlank c = false := by
      obtain ⟨c, more, isText⟩ := List.exists_cons_of_ne_nil w.lexical.ne_nil
      intro d first
      have : c = d := by simpa [isText] using first
      exact this ▸ w.lexical.not_blank c (isText ▸ List.mem_cons_self)
    have line : lineAfter (before ++ w.gap) = lineAfter before + w.gap.count '\n' := by
      rw [lineAfter, lineAfter, List.count_append, Nat.add_assoc]
    rw [tokens, line, source, List.flatMap_cons, List.append_assoc, List.append_assoc]
    exact .gap w.isBlank starts token

end Written

/-- Tokens that are written with white space between them are read again, with their kinds and their texts
and in their order, each on the line where it was written. -/
theorem tokenize_written (ws : List Written) (apart : ∀ w ∈ ws.tail, w.gap ≠ []) (tail : List Char)
    (isBlank : ∀ c ∈ tail, Text.isBlank c = true) :
    tokenize (String.ofList (Written.source ws ++ tail)) = .ok (Written.tokens [] ws) := by
  refine Written.Reads.tokenize ?_
  rw [String.toList_ofList]
  exact Written.source_reads apart isBlank []

namespace Sample

/-- A keyword, marks that begin like longer ones, a name and numbers, on three lines. -/
def spaced : List Written :=
  [⟨[], .keyword, "if".toList, List.all_eq_true.1 (by decide), .keyword (by decide)⟩,
    ⟨['\n', ' '], .punct, ['/'], List.all_eq_true.1 (by decide), .mark (by decide)⟩,
    ⟨['\t'], .punct, ['*', '='], List.all_eq_true.1 (by decide), .longMark (by decide)⟩,
    ⟨[' '], .identifier, "if_".toList, List.all_eq_true.1 (by decide), .identifier (by decide)
      (List.all_eq_true.1 (by decide)) (by decide)⟩,
    ⟨['\r', '\n'], .number, "0X_fF".toList, List.all_eq_true.1 (by decide), .hex (by decide)
      (List.all_eq_true.1 (by decide))⟩,
    ⟨[' '], .number, "0_9".toList, List.all_eq_true.1 (by decide), .decimal (by decide)
      (List.all_eq_true.1 (by decide))⟩]

end Sample

/-- The comment opener is no comment when white space divides it, and the name goes on behind a keyword. -/
theorem tokenize_written_spaced :
    Written.tokens [] Sample.spaced = [⟨.keyword, "if", 1⟩, ⟨.punct, "/", 2⟩, ⟨.punct, "*=", 2⟩,
        ⟨.identifier, "if_", 2⟩, ⟨.number, "0X_fF", 3⟩, ⟨.number, "0_9", 3⟩] ∧
      tokenize (String.ofList (Written.source Sample.spaced ++ ['\n'])) =
        .ok (Written.tokens [] Sample.spaced) :=
  ⟨by decide, tokenize_written Sample.spaced (by decide) ['\n'] (List.all_eq_true.1 (by decide))⟩

end ContractCompiler
