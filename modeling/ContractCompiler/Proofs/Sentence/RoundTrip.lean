import ContractCompiler.Proofs.Sentence.Written
import ContractCompiler.Proofs.Word

/-!
# Proofs.Sentence.RoundTrip — written contracts are read back

The parser tries one alternative after the other, and several of them begin alike: a declaration, a function and
a struct with a type, a declaration and a phrase with `const`. So for each part there is what its parser reads,
and for the alternatives before it why they give up. A run of tokens ends where it should as its parentheses are
balanced. The only sentence that may go on is one with `if`, and nothing that is written begins with `else`.
-/

namespace ContractCompiler

set_option autoImplicit false

open Token (mark word named Separated onlyIf inParentheses inBraces)

/-- The digits of a number are read as that number. -/
theorem Numeral.read?_toDigits {n bound : Nat} (below : n < bound) :
    read? 10 bound ((Nat.toDigits 10 n).filter (· != '_')) = some n := by
  have isDigit : ∀ c ∈ Nat.toDigits 10 n, c.isDigit = true :=
    fun c mem => isDigit_of_mem_toString (by simpa using mem)
  have noLine : (Nat.toDigits 10 n).filter (· != '_') = Nat.toDigits 10 n := by
    refine List.filter_eq_self.2 fun c mem => bne_iff_ne.2 ?_
    rintro rfl
    cases isDigit _ mem
  have value := digitsFrom?_toDigits n
  rw [noLine]
  cases digits : Nat.toDigits 10 n with
  | nil => simp at digits
  | cons c rest =>
    rw [digits] at value isDigit
    have noPlus : c ≠ '+' := by
      rintro rfl
      cases isDigit '+' (by simp)
    simp [read?, noPlus, digits?, value, below]

/-! ## Runs -/

namespace Token

variable {stop : Token → Bool} {ts rest : List Token}

theorem isDelimiter_eq (t : Token) :
    t.isDelimiter = (t.isPunct "(" || (t.isPunct ")" || t.isOneOf [";", "\x7b", "\x7d"])) := by
  simp only [isDelimiter, isOneOf, isPunct, List.contains_cons, Bool.and_or_distrib_left]

/-- A balanced run is taken as a whole, with what is taken behind it. -/
theorem runFrom_balanced {depth : Nat} (balanced : isBalanced stop depth ts = true) {r : Run}
    (ends : runFrom stop 0 rest = .ok r) :
    runFrom stop depth (ts ++ rest) = .ok { r with tokens := ts ++ r.tokens } := by
  induction ts generalizing depth with
  | nil =>
    obtain rfl : depth = 0 := by simpa [isBalanced] using balanced
    exact ends
  | cons t ts ih =>
    unfold isBalanced at balanced
    by_cases opens : t.isPunct "(" = true
    · have inner := ih (by simpa [opens] using balanced)
      cases depth with
      | zero => simp [runFrom, opens, inner]
      | succ depth => simp [runFrom, opens, inner, isDelimiter_eq]
    · by_cases closes : t.isPunct ")" = true
      · obtain ⟨deep, balanced⟩ : 0 < depth ∧ isBalanced stop (depth - 1) ts = true := by
          simpa [opens, closes] using balanced
        obtain ⟨depth, rfl⟩ : ∃ n, depth = n + 1 := ⟨depth - 1, by omega⟩
        have inner : runFrom stop depth (ts ++ rest) = _ := ih balanced
        simp [runFrom, opens, closes, inner]
      · obtain ⟨⟨noEnd, noStop⟩, balanced⟩ : (t.isOneOf [";", "\x7b", "\x7d"] = false ∧
            (0 < depth ∨ stop t = false)) ∧ isBalanced stop depth ts = true := by
          simpa [opens, closes] using balanced
        have inner := ih balanced
        cases depth with
        | zero =>
          have noStop : stop t = false := by simpa using noStop
          simp [runFrom, opens, closes, noEnd, noStop, inner, isDelimiter_eq]
        | succ depth => simp [runFrom, opens, closes, noEnd, inner, isDelimiter_eq]

/-- A run that begins with none of the words, and the semicolon behind it. -/
theorem isKeyword_of_beginsWith {words : List String} (none : beginsWith words ts = false) {text : String}
    (mem : text ∈ words) (l : Nat) : ∀ t ∈ (ts ++ mark ";" l :: rest).head?, t.isKeyword text = false := by
  cases ts with
  | nil =>
    rintro _ ⟨⟩
    rfl
  | cons t ts =>
    rintro _ ⟨⟩
    cases isKeyword : t.isKeyword text with
    | false => rfl
    | true =>
      obtain ⟨isWord, rfl⟩ : t.kind = .keyword ∧ t.text = text := by simpa [Token.isKeyword] using isKeyword
      simp [beginsWith, isWord, mem] at none

/-- A run does not begin with a brace, and neither does the semicolon behind it. -/
theorem isPunct_of_isRun (isRun : Token.isRun ts = true) (l : Nat) :
    ∀ t ∈ (ts ++ mark ";" l :: rest).head?, t.isPunct "\x7b" = false := by
  cases ts with
  | nil =>
    rintro _ ⟨⟩
    rfl
  | cons t ts =>
    rintro _ ⟨⟩
    cases isBrace : t.isPunct "\x7b" with
    | false => rfl
    | true =>
      obtain ⟨isMark, isBrace⟩ : t.kind = .punct ∧ t.text = "\x7b" := by simpa [Token.isPunct] using isBrace
      simp [Token.isRun, isBalanced, Token.isPunct, Token.isOneOf, isMark, isBrace] at isRun

/-- The tokens end a run. -/
def EndsRun (stop : Token → Bool) (rest : List Token) : Prop :=
  ∃ t ts, rest = t :: ts ∧ t.isPunct "(" = false ∧ (t.isDelimiter || stop t) = true

end Token

namespace Sentence

variable {stop : Token → Bool} {ts rest : List Token}

theorem runParser_reads (balanced : Token.isBalanced stop 0 ts = true) (ends : Token.EndsRun stop rest) :
    (runParser stop).Reads (ts ++ rest) ts rest := by
  obtain ⟨t, rest, rfl, noOpen, isEnd⟩ := ends
  have ended : Token.runFrom stop 0 (t :: rest) = .ok ⟨[], t :: rest, rest.length + 1⟩ := by
    simp only [Token.runFrom, noOpen, isEnd, Bool.false_eq_true, if_false, if_true]
  simp [Parser.Reads, runParser, Token.runFrom_balanced balanced ended]

theorem run_reads (isRun : Token.isRun ts = true) (ends : Token.EndsRun (fun _ => false) rest) :
    run.Reads (ts ++ rest) ts rest := runParser_reads isRun ends

theorem conditionParser_reads (isRun : Token.isRun ts = true) (l l' : Nat) :
    conditionParser.Reads (inParentheses l l' ts ++ rest) ts rest := by
  refine .between l' ?_
  rw [List.append_eq, List.append_assoc]
  exact run_reads isRun ⟨_, _, rfl, rfl, rfl⟩

/-! ## Declarations -/

theorem typeParser_reads (type : TypeName) (line l : Nat) :
    typeParser.Reads (type.tokens line l ++ rest) (type, line) rest := by
  cases type with
  | long => exact .choice (.bind (.keyword "long" line) (.pure _ _))
  | void => exact .choice_later (.bind (.satisfy_cons rfl)) (.choice (.bind (.keyword "void" line) (.pure _ _)))
  | struct tag =>
    exact .choice_later (.bind (.satisfy_cons rfl)) (.choice_later (.bind (.satisfy_cons rfl))
      (.choice (.bind (.keyword "struct" line) (.bind (.identifier tag l) (.pure _ _)))))

/-- No type begins with a token that is none of its words. -/
theorem typeParser_refuses (noType : ∀ text ∈ Token.typeWords, ∀ t ∈ ts.head?, t.isKeyword text = false) :
    typeParser.Refuses ts := by
  refine .choice ?_
  simp only [List.forall_mem_cons, List.not_mem_nil, false_implies, implies_true, and_true]
  exact ⟨.bind (.satisfy (noType "long" (by decide))), .bind (.satisfy (noType "void" (by decide))),
    .bind (.satisfy (noType "struct" (by decide)))⟩

/-- A token that may be there. -/
theorem onlyIf_reads (present : Bool) {p : Parser Token} {t : Token} (reads : p.Reads (t :: rest) t rest)
    (refuses : p.Refuses rest) : ∃ found, (Parser.option p).Reads (onlyIf present t ++ rest) found rest ∧
      found.isSome = present := by
  cases present with
  | true => exact ⟨some t, .option reads, rfl⟩
  | false => exact ⟨none, .option_none refuses, rfl⟩

theorem sizeParser_reads {size : Nat} (small : size < Word.count) (line : Nat) :
    sizeParser.Reads (⟨.number, toString size, line⟩ :: rest) size rest := by
  simp [Parser.Reads, sizeParser, Token.isNumber, Numeral.read?_toDigits small]

theorem array_reads {array : Option Nat} (small : array.all (fun size => decide (size < Word.count)) = true)
    (l l₁ l₂ : Nat) (noBracket : ∀ t ∈ rest.head?, t.isPunct "[" = false) :
    (Parser.option (Parser.between "[" "]" sizeParser)).Reads
      ((array.elim [] fun size => [mark "[" l, ⟨.number, toString size, l₁⟩, mark "]" l₂]) ++ rest) array rest := by
  cases array with
  | none => exact .option_none (.bind (.satisfy noBracket))
  | some size => exact .option (.between l₂ (sizeParser_reads (of_decide_eq_true small) l₁))

/-- A declarator ends before a comma and before a semicolon. -/
def EndsDeclarator (rest : List Token) : Prop :=
  ∃ symbol line ts, rest = mark symbol line :: ts ∧ (symbol = "," ∨ symbol = ";")

theorem EndsDeclarator.head {symbol : String} (ends : EndsDeclarator rest) (noComma : "," ≠ symbol)
    (noSemicolon : ";" ≠ symbol) : ∀ t ∈ rest.head?, t.isPunct symbol = false := by
  obtain ⟨found, line, ts, rfl, isEnd⟩ := ends
  rintro _ ⟨⟩
  rcases isEnd with rfl | rfl
  · simp [noComma]
  · simp [noSemicolon]

theorem init_reads {init : Option (List Token)} (isInitial : init.all Token.isInitial = true) (l : Nat)
    (ends : EndsDeclarator rest) :
    (Parser.option (Parser.bind (Parser.punct "=") fun _ => runParser (·.isPunct ","))).Reads
      ((init.elim [] fun init => mark "=" l :: init) ++ rest) init rest := by
  cases init with
  | none => exact .option_none (.bind (.satisfy (ends.head (by decide) (by decide))))
  | some init =>
    obtain ⟨symbol, line, ts, rfl, isEnd⟩ := ends
    refine .option (.bind (.punct "=" l) (runParser_reads isInitial ⟨_, _, rfl, ?_⟩))
    rcases isEnd with rfl | rfl
    · exact ⟨rfl, rfl⟩
    · exact ⟨rfl, rfl⟩

theorem declaratorParser_reads {d : Declarator} (wellFormed : d.wellFormed = true) (lines : Nat → Nat)
    (ends : EndsDeclarator rest) : declaratorParser.Reads (d.tokens lines ++ rest) d rest := by
  obtain ⟨name, pointer, array, init, line⟩ := d
  obtain ⟨small, isInitial⟩ := Bool.and_eq_true_iff.1 wellFormed
  simp only [Declarator.tokens, List.append_assoc, List.cons_append]
  have noBracket : ∀ t ∈ ((init.elim [] fun init => mark "=" (lines 4) :: init) ++ rest).head?,
      t.isPunct "[" = false := by
    cases init with
    | none => exact ends.head (by decide) (by decide)
    | some init =>
      rintro _ ⟨⟩
      rfl
  have noStar : ∀ ts, (Parser.punct "*").Refuses (named name line :: ts) := fun _ => .satisfy_cons rfl
  obtain ⟨star, readsStar, rfl⟩ := onlyIf_reads pointer (.punct "*" (lines 0)) (noStar _)
  exact .bind readsStar (.bind (.identifier name line) (.bind (array_reads small _ _ _ noBracket)
    (.bind (init_reads isInitial _ ends) (.pure _ _))))

/-- Declarators are read up to the semicolon behind them. -/
theorem declarators_read {ds : List Declarator} (wellFormed : ∀ d ∈ ds, d.wellFormed = true)
    (listed : Declarator.Listed ds ts) : ∃ us l, ts = us ++ [mark ";" l] ∧
      ∀ rest, (Parser.sepBy1 declaratorParser (Parser.punct ",")).Reads (us ++ mark ";" l :: rest) ds
        (mark ";" l :: rest) := by
  obtain @⟨items, us, l, each, separated⟩ := listed
  refine ⟨us, l, rfl, fun rest => .sepBy1 EndsDeclarator separated ?_ (fun line rest => ⟨_, _, _, rfl, .inl rfl⟩)
    ⟨_, _, _, rfl, .inr rfl⟩ ?_⟩
  · intro item mem rest ends
    obtain ⟨lines, isTokens⟩ := each item mem
    rw [isTokens]
    exact declaratorParser_reads (wellFormed _ (List.mem_map_of_mem mem)) lines ends
  · rintro _ ⟨⟩
    rfl

theorem declarationParser_reads {d : Declaration} (wellFormed : d.wellFormed = true) (written : d.Written ts) :
    declarationParser.Reads (ts ++ rest) d rest := by
  obtain @⟨declarators, us, type, isConst, line, l, l', listed⟩ := written
  obtain ⟨-, each⟩ := Bool.and_eq_true_iff.1 wellFormed
  obtain ⟨us, l'', rfl, reads⟩ := declarators_read (List.all_eq_true.1 each) listed
  simp only [List.append_assoc]
  have noConst : ∀ ts, (Parser.keyword "const").Refuses (type.tokens line l' ++ ts) := by
    cases type <;> exact fun _ => .satisfy_cons rfl
  obtain ⟨const, readsConst, rfl⟩ := onlyIf_reads isConst (.keyword "const" l) (noConst _)
  exact .bind readsConst (.bind (typeParser_reads type line l') (.bind (reads rest)
    (.bind (.punct ";" l'') (.pure _ _))))

/-! ## Sentences -/

/-- The tokens do not go on with an alternative. -/
def NoElse (rest : List Token) : Prop := ∀ t ∈ rest.head?, t.isKeyword "else" = false

/-- The tokens are read as the value, up to what follows. -/
structure FoundBy {α : Type} (parser : Nat → Parser α) (a : α) (ts : List Token) : Prop where
  nonempty : ts ≠ []
  noElse : ∀ rest, NoElse (ts ++ rest)
  reads : ∀ fuel rest, ts.length < fuel → NoElse rest → (parser fuel).Reads (ts ++ rest) a rest

/-- The tokens are read as the sentence, up to what follows. -/
abbrev Found (s : Sentence) (ts : List Token) : Prop := FoundBy parser s ts

theorem NoElse.cons {t : Token} (noElse : t.isKeyword "else" = false) : NoElse (t :: ts) := by
  rintro _ ⟨⟩
  exact noElse

variable {fuel : Nat} {s : Sentence} {body : List (Sentence × List Token)}

/-- No sentence begins with a closing brace. -/
theorem parser_refuses_close (fuel l : Nat) : (parser fuel).Refuses (mark "\x7d" l :: rest) := by
  cases fuel with
  | zero => exact .fail
  | succ fuel => rfl

theorem FoundBy.several {α : Type} {parser : Nat → Parser α} {items : List (α × List Token)}
    (found : ∀ item ∈ items, FoundBy parser item.1 item.2) (enough : (items.flatMap (·.2)).length < fuel)
    (ends : NoElse rest) : Parser.Several (parser fuel) (items.flatMap (·.2) ++ rest) (items.map (·.1)) rest := by
  refine .of_pieces NoElse (fun item mem => ?_) ends
  obtain ⟨nonempty, noElse, reads⟩ := found item mem
  have le : item.2.length ≤ (items.flatMap (·.2)).length :=
    (List.sublist_flatten_of_mem (List.mem_map_of_mem mem)).length_le
  exact ⟨nonempty, noElse, fun rest => reads fuel rest (Nat.lt_of_le_of_lt le enough)⟩

theorem blockParser_reads (found : ∀ s ∈ body, Found s.1 s.2) (enough : (body.flatMap (·.2)).length < fuel)
    (l l' : Nat) :
    (blockParser (parser fuel)).Reads (inBraces l l' (body.flatMap (·.2)) ++ rest) (body.map (·.1)) rest := by
  refine .between l' ?_
  rw [List.append_eq, List.append_assoc]
  exact .many (FoundBy.several found enough (.cons rfl)) (parser_refuses_close fuel l')

theorem parser_block (found : ∀ s ∈ body, Found s.1 s.2) (l l' : Nat)
    (enough : (inBraces l l' (body.flatMap (·.2))).length < fuel) :
    (parser fuel).Reads (inBraces l l' (body.flatMap (·.2)) ++ rest) (.block (body.map (·.1))) rest := by
  simp only [inBraces, List.length_cons, List.length_append] at enough
  obtain ⟨fuel, rfl⟩ : ∃ n, fuel = n + 1 := ⟨fuel - 1, by omega⟩
  exact .choice (.bind (blockParser_reads found (by omega) l l') (.pure _ _))

/-- A body in braces is the sentences between them. -/
theorem bodyParser_reads (found : ∀ s ∈ body, Found s.1 s.2) (l l' : Nat)
    (enough : (inBraces l l' (body.flatMap (·.2))).length < fuel) :
    (bodyParser (parser fuel)).Reads (inBraces l l' (body.flatMap (·.2)) ++ rest) (body.map (·.1)) rest :=
  .bind (parser_block found l l' enough) (.pure _ _)

/-- A sentence that begins with no brace and no word of control is a declaration or a phrase. -/
theorem parser_plain (noBrace : ∀ t ∈ ts.head?, t.isPunct "\x7b" = false)
    (noWord : ∀ text ∈ ["if", "while", "do", "for"], ∀ t ∈ ts.head?, t.isKeyword text = false)
    (reads : (Parser.choice [do return declaration (← declarationParser), constPhraseParser, phraseParser]).Reads ts s
      rest) (fuel : Nat) : (parser (fuel + 1)).Reads ts s rest :=
  .choice_later (.bind (.bind (.satisfy noBrace))) <|
    .choice_later (.bind (.satisfy (noWord "if" (by decide)))) <|
    .choice_later (.bind (.satisfy (noWord "while" (by decide)))) <|
    .choice_later (.bind (.satisfy (noWord "do" (by decide)))) <|
    .choice_later (.bind (.satisfy (noWord "for" (by decide)))) reads

namespace Found

/-- The first token is taken before the parser descends. -/
theorem intro {t : Token} {us : List Token} (noElse : t.isKeyword "else" = false)
    (reads : ∀ fuel rest, us.length < fuel → NoElse rest → (parser (fuel + 1)).Reads (t :: (us ++ rest)) s rest) :
    Found s (t :: us) where
  nonempty := List.cons_ne_nil t us
  noElse rest := .cons noElse
  reads fuel rest enough noElse := by
    obtain ⟨fuel, rfl⟩ : ∃ n, fuel = n + 1 := ⟨fuel - 1, by omega⟩
    exact reads fuel rest (Nat.lt_of_succ_lt_succ enough) noElse

theorem block (found : ∀ s ∈ body, Found s.1 s.2) (l l' : Nat) :
    Found (.block (body.map (·.1))) (inBraces l l' (body.flatMap (·.2))) :=
  intro rfl fun _ _ enough _ => parser_block found l l' (Nat.succ_lt_succ enough)

section Tested

variable {test : List Token} (isRun : Token.isRun test = true) (found : ∀ s ∈ body, Found s.1 s.2)
include isRun found

theorem ifThen (line : Nat) (lines : Nat → Nat) : Found (.ifThen line test (body.map (·.1))) (word "if" line ::
      (inParentheses (lines 0) (lines 1) test ++ inBraces (lines 2) (lines 3) (body.flatMap (·.2)))) := by
  refine intro rfl fun fuel rest enough noElse => ?_
  rw [List.length_append] at enough
  rw [List.append_assoc]
  refine .choice_later (.bind (.bind (.satisfy_cons rfl))) (.choice (.bind (.keyword "if" line) ?_))
  refine .bind (conditionParser_reads isRun _ _) (.bind (bodyParser_reads found _ _ (by omega)) ?_)
  exact .bind (.option_none (.bind (.satisfy noElse))) (.pure _ _)

theorem ifElse {no : List (Sentence × List Token)} (found' : ∀ s ∈ no, Found s.1 s.2) (line : Nat)
    (lines : Nat → Nat) :
    Found (.ifElse line test (body.map (·.1)) (no.map (·.1))) (word "if" line ::
      (inParentheses (lines 0) (lines 1) test ++ (inBraces (lines 2) (lines 3) (body.flatMap (·.2)) ++
        word "else" (lines 4) :: inBraces (lines 5) (lines 6) (no.flatMap (·.2))))) := by
  refine intro rfl fun fuel rest enough _ => ?_
  simp only [List.length_cons, List.length_append] at enough
  simp only [List.cons_append, List.append_assoc]
  refine .choice_later (.bind (.bind (.satisfy_cons rfl))) (.choice (.bind (.keyword "if" line) ?_))
  refine .bind (conditionParser_reads isRun _ _) (.bind (bodyParser_reads found _ _ (by omega)) ?_)
  exact .bind (.option (.bind (.keyword "else" (lines 4)) (bodyParser_reads found' _ _ (by omega)))) (.pure _ _)

theorem whileLoop (line : Nat) (lines : Nat → Nat) : Found (.whileLoop line test (body.map (·.1))) (word "while" line ::
      (inParentheses (lines 0) (lines 1) test ++ inBraces (lines 2) (lines 3) (body.flatMap (·.2)))) := by
  refine intro rfl fun fuel rest enough _ => ?_
  rw [List.length_append] at enough
  rw [List.append_assoc]
  refine .choice_later (.bind (.bind (.satisfy_cons rfl))) (.choice_later (.bind (.satisfy_cons rfl))
    (.choice (.bind (.keyword "while" line) ?_)))
  exact .bind (conditionParser_reads isRun _ _) (.bind (bodyParser_reads found _ _ (by omega)) (.pure _ _))

theorem doLoop (line : Nat) (lines : Nat → Nat) : Found (.doLoop line test (body.map (·.1))) (word "do" (lines 0) ::
      (inBraces (lines 1) (lines 2) (body.flatMap (·.2)) ++
        word "while" line :: (inParentheses (lines 3) (lines 4) test ++ [mark ";" (lines 5)]))) := by
  refine intro rfl fun fuel rest enough _ => ?_
  rw [List.length_append] at enough
  simp only [List.cons_append, List.append_assoc]
  refine .choice_later (.bind (.bind (.satisfy_cons rfl))) (.choice_later (.bind (.satisfy_cons rfl))
    (.choice_later (.bind (.satisfy_cons rfl)) (.choice (.bind (.keyword "do" (lines 0)) ?_))))
  exact .bind (bodyParser_reads found _ _ (by omega)) (.bind (.keyword "while" line)
    (.bind (conditionParser_reads isRun _ _) (.bind (.punct ";" (lines 5)) (.pure _ _))))

end Tested

theorem forLoop {init test step : List Token} (isRun : Token.isRun init = true) (isRun' : Token.isRun test = true)
    (isRun'' : Token.isRun step = true) (found : ∀ s ∈ body, Found s.1 s.2) (line : Nat) (lines : Nat → Nat) :
    Found (.forLoop line init test step (body.map (·.1))) (word "for" line :: mark "(" (lines 0) ::
      (init ++ mark ";" (lines 1) :: (test ++ mark ";" (lines 2) :: (step ++ mark ")" (lines 3) ::
        inBraces (lines 4) (lines 5) (body.flatMap (·.2)))))) := by
  refine intro rfl fun fuel rest enough _ => ?_
  simp only [List.length_cons, List.length_append] at enough
  simp only [List.cons_append, List.append_assoc]
  refine .choice_later (.bind (.bind (.satisfy_cons rfl))) (.choice_later (.bind (.satisfy_cons rfl))
    (.choice_later (.bind (.satisfy_cons rfl)) (.choice_later (.bind (.satisfy_cons rfl))
      (.choice (.bind (.keyword "for" line) ?_)))))
  exact .bind (.punct "(" (lines 0)) (.bind (run_reads isRun ⟨_, _, rfl, rfl, rfl⟩) (.bind (.punct ";" (lines 1))
    (.bind (run_reads isRun' ⟨_, _, rfl, rfl, rfl⟩) (.bind (.punct ";" (lines 2))
      (.bind (run_reads isRun'' ⟨_, _, rfl, rfl, rfl⟩) (.bind (.punct ")" (lines 3))
        (.bind (bodyParser_reads found _ _ (by omega)) (.pure _ _))))))))

theorem declaration {d : Declaration} (wellFormed : d.wellFormed = true) (written : d.Written ts) :
    Found (.declaration d) ts := by
  obtain ⟨text, isFirst, line, us, rfl⟩ := written.head
  have differs : ∀ text ∈ "const" :: Token.typeWords, ∀ other ∈ ["else", "if", "while", "do", "for"],
      (text == other) = false := by decide
  refine intro (differs text isFirst "else" (by decide)) fun fuel rest _ _ => parser_plain ?_ ?_ ?_ fuel
  · rintro _ ⟨⟩
    rfl
  · rintro other mem _ ⟨⟩
    exact differs text isFirst other (List.mem_cons_of_mem _ mem)
  · exact .choice (.bind (declarationParser_reads wellFormed written) (.pure _ _))

theorem constPhrase {code : List Token} (isRun : Token.isRun code = true)
    (noType : Token.beginsWith Token.typeWords code = false) (line l : Nat) :
    Found (.phrase line true code) (word "const" line :: (code ++ [mark ";" l])) := by
  refine intro rfl fun fuel rest _ _ => parser_plain ?_ ?_ ?_ fuel
  · rintro _ ⟨⟩
    rfl
  · have differs : ∀ other ∈ ["if", "while", "do", "for"], ("const" == other) = false := by decide
    rintro other mem _ ⟨⟩
    exact differs other mem
  · rw [List.append_assoc]
    refine .choice_later (.bind (.bind_later (.option (.keyword "const" line)) (.bind (typeParser_refuses ?_))))
      (.choice (.bind (.keyword "const" line) ?_))
    · exact fun text mem => Token.isKeyword_of_beginsWith noType mem l
    · exact .bind (run_reads isRun ⟨_, _, rfl, rfl, rfl⟩) (.bind (.punct ";" l) (.pure _ _))

theorem phrase {code : List Token} {line : Nat} (isRun : Token.isRun code = true)
    (noWord : Token.beginsWith Token.sentenceWords code = false) (l : Nat)
    (isLine : (code.head?.getD (mark ";" l)).line = line) :
    Found (.phrase line false code) (code ++ [mark ";" l]) where
  nonempty := by simp
  noElse rest := by
    rw [List.append_assoc]
    exact Token.isKeyword_of_beginsWith noWord (by decide) l
  reads fuel rest enough _ := by
    obtain ⟨fuel, rfl⟩ : ∃ n, fuel = n + 1 := ⟨fuel - 1, by omega⟩
    rw [List.append_assoc, ← isLine]
    have others : ∀ text ∈ Token.sentenceWords, ∀ t ∈ (code ++ mark ";" l :: rest).head?, t.isKeyword text = false :=
      fun text mem => Token.isKeyword_of_beginsWith noWord mem l
    refine parser_plain (Token.isPunct_of_isRun isRun l) (fun text mem => others text ?_) ?_ fuel
    · exact (by decide : ∀ text ∈ ["if", "while", "do", "for"], text ∈ Token.sentenceWords) text mem
    · have noConst := others "const" (by decide)
      refine .choice_later (.bind (.bind_later (.option_none (.satisfy noConst)) (.bind (typeParser_refuses ?_))))
        (.choice_later (.bind (.satisfy noConst)) (.choice ?_))
      · exact fun text mem => others text (List.mem_append_left _ mem)
      · exact .bind (run_reads isRun ⟨_, _, rfl, rfl, rfl⟩) (.bind (.punct ";" l) (.pure _ _))

end Found

theorem wellFormed_of_mem (wellFormed : allWellFormed (body.map (·.1)) = true) :
    ∀ s ∈ body, s.1.wellFormed = true := by
  rw [allWellFormed_eq, List.all_eq_true] at wellFormed
  exact fun s mem => wellFormed s.1 (List.mem_map_of_mem mem)

/-- Every way to write a sentence is read as that sentence. -/
theorem Written.found (written : s.Written ts) (wellFormed : s.wellFormed = true) : Found s ts := by
  induction written with
  | phrase code l isLine =>
    simp only [Sentence.wellFormed, Bool.and_eq_true, Bool.not_eq_true', Bool.false_eq_true, if_false] at wellFormed
    exact .phrase wellFormed.1 wellFormed.2.1 l isLine
  | constPhrase line code l =>
    simp only [Sentence.wellFormed, Bool.and_eq_true, Bool.not_eq_true', if_true] at wellFormed
    exact .constPhrase wellFormed.1 wellFormed.2 line l
  | ifThen line test lines _ each =>
    rw [Sentence.wellFormed, Bool.and_eq_true] at wellFormed
    exact .ifThen wellFormed.1 (fun s mem => each s mem (wellFormed_of_mem wellFormed.2 s mem)) line lines
  | ifElse line test lines _ _ each each' =>
    rw [Sentence.wellFormed, Bool.and_eq_true, Bool.and_eq_true] at wellFormed
    exact .ifElse wellFormed.1.1 (fun s mem => each s mem (wellFormed_of_mem wellFormed.1.2 s mem))
      (fun s mem => each' s mem (wellFormed_of_mem wellFormed.2 s mem)) line lines
  | whileLoop line test lines _ each =>
    rw [Sentence.wellFormed, Bool.and_eq_true] at wellFormed
    exact .whileLoop wellFormed.1 (fun s mem => each s mem (wellFormed_of_mem wellFormed.2 s mem)) line lines
  | doLoop line test lines _ each =>
    rw [Sentence.wellFormed, Bool.and_eq_true] at wellFormed
    exact .doLoop wellFormed.1 (fun s mem => each s mem (wellFormed_of_mem wellFormed.2 s mem)) line lines
  | forLoop line init test step lines _ each =>
    rw [Sentence.wellFormed, Bool.and_eq_true, Bool.and_eq_true, Bool.and_eq_true] at wellFormed
    exact .forLoop wellFormed.1.1.1 wellFormed.1.1.2 wellFormed.1.2
      (fun s mem => each s mem (wellFormed_of_mem wellFormed.2 s mem)) line lines
  | block l l' _ each => exact .block (fun s mem => each s mem (wellFormed_of_mem wellFormed s mem)) l l'
  | declaration written => exact .declaration wellFormed written

end Sentence

/-! ## Structs and functions -/

open Sentence (typeParser_reads declarators_read onlyIf_reads blockParser_reads)

variable {ts rest : List Token}

theorem StructDef.membersParser_reads {ds : List Declarator} (wellFormed : ∀ d ∈ ds, d.wellFormed = true)
    (listed : Declarator.Listed ds ts) (l : Nat) :
    membersParser.Reads (word "long" l :: (ts ++ rest)) ds rest := by
  obtain ⟨us, l', rfl, reads⟩ := declarators_read wellFormed listed
  rw [List.append_assoc]
  exact .bind (.keyword "long" l) (.bind (reads rest) (.bind (.punct ";" l') (.pure _ _)))

theorem StructDef.parser_reads {s : StructDef} (wellFormed : s.wellFormed = true) (written : s.Written ts) :
    StructDef.parser.Reads (ts ++ rest) s rest := by
  obtain @⟨rows, tag, line, lines, each⟩ := written
  simp only [inBraces, List.cons_append, List.append_assoc]
  have several : ∀ tail, Parser.Several membersParser (rows.flatMap (·.2) ++ tail) (rows.map (·.1)) tail := by
    intro tail
    refine .of_pieces (fun _ => True) (fun row mem => ?_) trivial
    obtain ⟨l, us, isRow, listed⟩ := each row mem
    rw [isRow]
    refine ⟨List.cons_ne_nil _ _, fun _ => trivial, fun rest _ => membersParser_reads (fun d isMember => ?_) listed l⟩
    exact List.all_eq_true.1 wellFormed d (List.mem_flatten.2 ⟨row.1, List.mem_map_of_mem mem, isMember⟩)
  exact .bind (.keyword "struct" _) (.bind (.identifier tag line)
    (.bind (.between (lines 2) (.many (several _) (.bind (.satisfy_cons rfl))))
      (.bind (.punct ";" (lines 3)) (.pure _ _))))

/-- No struct is defined where a type is followed by something other than a brace. -/
theorem StructDef.parser_refuses_type (type : TypeName) (line l : Nat)
    (noBrace : ∀ t ∈ rest.head?, t.isPunct "\x7b" = false) :
    StructDef.parser.Refuses (type.tokens line l ++ rest) := by
  cases type with
  | long => exact .bind (.satisfy_cons rfl)
  | void => exact .bind (.satisfy_cons rfl)
  | struct tag =>
    exact .bind_later (.keyword "struct" line) (.bind_later (.identifier tag l) (.bind (.bind (.satisfy noBrace))))

theorem Param.parser_reads (p : Param) (lines : Nat → Nat) : Param.parser.Reads (p.tokens lines ++ rest) p rest := by
  obtain ⟨type, pointer, name, line⟩ := p
  simp only [Param.tokens, List.append_assoc, List.cons_append, List.nil_append]
  have noStar : (Parser.punct "*").Refuses (named name line :: rest) := .satisfy_cons rfl
  obtain ⟨star, readsStar, rfl⟩ := onlyIf_reads pointer (.punct "*" (lines 2)) noStar
  exact .bind (typeParser_reads type _ _) (.bind readsStar (.bind (.identifier name line) (.pure _ _)))

/-- A parameter that is not void does not begin with that word. -/
theorem Param.refuses_void {p : Param} (noVoid : p.type ≠ .void) (lines : Nat → Nat) :
    (Parser.keyword "void").Refuses (p.tokens lines ++ rest) := by
  obtain ⟨type, pointer, name, line⟩ := p
  cases type with
  | long => exact .satisfy_cons rfl
  | void => exact absurd rfl noVoid
  | struct tag => exact .satisfy_cons rfl

theorem Param.listParser_reads {params : List Param} (noVoid : ∀ p ∈ params, p.type ≠ .void)
    (listed : Param.Listed params ts) (l l' : Nat) :
    Param.listParser.Reads (inParentheses l l' ts ++ rest) params rest := by
  refine .between l' ?_
  rw [List.append_eq, List.append_assoc]
  cases listed with
  | none => exact .orElse_later (.bind (.satisfy_cons rfl)) (.orElse_later (.bind rfl) (.pure _ _))
  | void l => exact .orElse (.bind (.keyword "void" l) (.pure _ _))
  | @some items us each separated =>
    have reads : (Parser.sepBy1 Param.parser (Parser.punct ",")).Reads (ts ++ mark ")" l' :: rest) (items.map (·.1))
        (mark ")" l' :: rest) := by
      refine .sepBy1 (fun _ => True) separated (fun p mem rest _ => ?_) (fun _ _ => trivial) trivial ?_
      · obtain ⟨lines, isTokens⟩ := each p mem
        rw [isTokens]
        exact p.1.parser_reads lines
      · rintro _ ⟨⟩
        rfl
    refine .orElse_later (.bind ?_) (.orElse reads)
    cases items with
    | nil => cases separated
    | cons first items =>
      obtain ⟨lines, isTokens⟩ := each first (by simp)
      obtain ⟨vs, rfl, -⟩ := separated.head
      dsimp only
      rw [isTokens, List.append_assoc]
      exact Param.refuses_void (noVoid _ (by simp)) lines

theorem FunctionDef.parser_reads {f : FunctionDef} (wellFormed : f.wellFormed = true) (written : f.Written ts)
    {fuel : Nat} (enough : ts.length < fuel) :
    (FunctionDef.parser (Sentence.parser fuel)).Reads (ts ++ rest) f rest := by
  obtain @⟨params, us, body, name, returns, returnsPointer, line, lines, listed, each⟩ := written
  simp only [FunctionDef.wellFormed, Bool.and_eq_true, List.all_eq_true, bne_iff_ne] at wellFormed
  have found : ∀ s ∈ body, Sentence.Found s.1 s.2 :=
    fun s mem => (each s mem).found (Sentence.wellFormed_of_mem wellFormed.2 s mem)
  simp only [inBraces, List.length_cons, List.length_append] at enough
  simp only [List.cons_append, List.append_assoc]
  have noStar : ∀ ts, (Parser.punct "*").Refuses (named name (lines 2) :: ts) := fun _ => .satisfy_cons rfl
  obtain ⟨star, readsStar, rfl⟩ := onlyIf_reads returnsPointer (.punct "*" (lines 1)) (noStar _)
  exact .bind (typeParser_reads returns line _) (.bind readsStar (.bind (.identifier name _)
    (.bind (Param.listParser_reads wellFormed.1 listed _ _) (.bind (blockParser_reads found (by omega) _ _)
      (.pure _ _)))))

/-! ## Contracts -/

/-- Neither a struct nor a function begins with a token that is no word of a type. -/
theorem Item.refuses_of_noType (noType : ∀ text ∈ Token.typeWords, ∀ t ∈ ts.head?, t.isKeyword text = false)
    (sentence : Parser Sentence) : StructDef.parser.Refuses ts ∧ (FunctionDef.parser sentence).Refuses ts :=
  ⟨.bind (.satisfy (noType "struct" (by decide))), .bind (Sentence.typeParser_refuses noType)⟩

/-- What is before the first name of some declarators, and what is not behind it. -/
theorem Declarator.Listed.head {ds : List Declarator} (listed : Declarator.Listed ds ts) :
    ∃ pointer l name line us, ts = onlyIf pointer (mark "*" l) ++ named name line :: us ∧
      ∀ rest, ∀ t ∈ (us ++ rest).head?, t.isPunct "(" = false := by
  obtain @⟨items, us, l, each, separated⟩ := listed
  cases items with
  | nil => cases separated
  | cons first items =>
    obtain ⟨lines, isTokens⟩ := each first (by simp)
    obtain ⟨vs, rfl, isEnd⟩ := separated.head
    dsimp only
    rw [isTokens]
    simp only [Declarator.tokens, List.append_assoc, List.cons_append]
    refine ⟨_, _, _, _, _, rfl, fun rest => ?_⟩
    cases first.1.array with
    | some size =>
      rintro _ ⟨⟩
      rfl
    | none => cases first.1.init with
      | some init =>
        rintro _ ⟨⟩
        rfl
      | none => rcases isEnd with rfl | ⟨line, vs, rfl⟩ <;> (rintro _ ⟨⟩; rfl)

/-- A declaration is neither a struct nor a function: no brace follows its type, and no parenthesis its first
name. -/
theorem Declaration.Written.no_item {d : Declaration} (written : d.Written ts) (sentence : Parser Sentence)
    (rest : List Token) :
    StructDef.parser.Refuses (ts ++ rest) ∧ (FunctionDef.parser sentence).Refuses (ts ++ rest) := by
  obtain @⟨declarators, us, type, isConst, line, l, l', listed⟩ := written
  cases isConst with
  | true =>
    refine Item.refuses_of_noType (fun text mem t isHead => ?_) sentence
    cases isHead
    exact (by decide : ∀ text ∈ Token.typeWords, ("const" == text) = false) text mem
  | false =>
    obtain ⟨pointer, l'', name, line', us, rfl, noOpen⟩ := listed.head
    simp only [Token.onlyIf_false, List.nil_append, List.append_assoc, List.cons_append]
    have noStar : ∀ ts, (Parser.punct "*").Refuses (named name line' :: ts) := fun _ => .satisfy_cons rfl
    obtain ⟨star, readsStar, -⟩ := onlyIf_reads pointer (.punct "*" l'') (noStar (us ++ rest))
    constructor
    · refine StructDef.parser_refuses_type type line l' ?_
      cases pointer <;> (rintro _ ⟨⟩; rfl)
    · exact .bind_later (typeParser_reads type line l') (.bind_later readsStar (.bind_later (.identifier name line')
        (.bind (.bind (.satisfy (noOpen rest))))))

/-- A sentence is neither a struct nor a function. -/
theorem Sentence.Written.no_item {s : Sentence} (written : s.Written ts) (wellFormed : s.wellFormed = true)
    (sentence : Parser Sentence) (rest : List Token) :
    StructDef.parser.Refuses (ts ++ rest) ∧ (FunctionDef.parser sentence).Refuses (ts ++ rest) := by
  -- All but the declaration begin with something else than a type.
  have ofWord : ∀ first ∈ ["const", "if", "while", "do", "for"], ∀ line us,
      StructDef.parser.Refuses (word first line :: us) ∧
        (FunctionDef.parser sentence).Refuses (word first line :: us) := by
    intro first isFirst line us
    refine Item.refuses_of_noType (fun text mem t isHead => ?_) sentence
    cases isHead
    exact (by decide : ∀ first ∈ ["const", "if", "while", "do", "for"], ∀ text ∈ Token.typeWords,
      (first == text) = false) first isFirst text mem
  cases written with
  | phrase code l _ =>
    simp only [Sentence.wellFormed, Bool.and_eq_true, Bool.not_eq_true', Bool.false_eq_true, if_false] at wellFormed
    rw [List.append_assoc]
    exact Item.refuses_of_noType (fun text mem =>
      Token.isKeyword_of_beginsWith wellFormed.2.1 (List.mem_append_left _ mem) l) sentence
  | constPhrase | ifThen | ifElse | whileLoop | doLoop | forLoop => exact ofWord _ (by decide) _ _
  | block =>
    refine Item.refuses_of_noType (fun text mem t isHead => ?_) sentence
    cases isHead
    rfl
  | declaration written => exact written.no_item sentence rest

namespace Item

/-- The tokens are read as the item, up to what follows. -/
abbrev Found (i : Item) (ts : List Token) : Prop := Sentence.FoundBy parser i ts

theorem Found.struct {s : StructDef} (wellFormed : s.wellFormed = true) (written : s.Written ts) :
    Found (.struct s) ts := by
  obtain ⟨line, us, rfl⟩ : ∃ line us, ts = word "struct" line :: us := by
    cases written
    exact ⟨_, _, rfl⟩
  exact ⟨List.cons_ne_nil _ _, fun _ => .cons rfl,
    fun _ _ _ _ => .choice (.bind (StructDef.parser_reads wellFormed written) (.pure _ _))⟩

theorem Found.function {f : FunctionDef} (wellFormed : f.wellFormed = true) (written : f.Written ts) :
    Found (.function f) ts := by
  obtain ⟨type, line, l, us, isTokens, noBrace⟩ : ∃ type line l us, ts = TypeName.tokens line l type ++ us ∧
      ∀ rest, ∀ t ∈ (us ++ rest).head?, t.isPunct "\x7b" = false := by
    obtain @⟨_, _, _, name, returns, returnsPointer, line, lines, -, -⟩ := written
    refine ⟨returns, line, lines 0, _, rfl, fun rest => ?_⟩
    cases returnsPointer <;> (rintro _ ⟨⟩; rfl)
  refine ⟨?_, fun rest => ?_, fun fuel rest enough _ => .choice_later (.bind ?_)
    (.choice (.bind (FunctionDef.parser_reads wellFormed written enough) (.pure _ _)))⟩
  · rw [isTokens]
    cases type <;> exact List.cons_ne_nil _ _
  · rw [isTokens]
    cases type <;> exact .cons rfl
  · rw [isTokens, List.append_assoc]
    exact StructDef.parser_refuses_type type line l (noBrace rest)

theorem Found.sentence {s : Sentence} (wellFormed : s.wellFormed = true) (written : s.Written ts) :
    Found (.sentence s) ts := by
  obtain ⟨nonempty, noElse, reads⟩ := written.found wellFormed
  refine ⟨nonempty, noElse, fun fuel rest enough noElse => ?_⟩
  obtain ⟨noStruct, noFunction⟩ := written.no_item wellFormed (Sentence.parser fuel) rest
  exact .choice_later (.bind noStruct) (.choice_later (.bind noFunction)
    (.choice (.bind (reads fuel rest enough noElse) (.pure _ _))))

theorem Written.found : {i : Item} → i.Written ts → i.wellFormed = true → Found i ts
  | .struct _, written, wellFormed => .struct wellFormed written
  | .function _, written, wellFormed => .function wellFormed written
  | .sentence _, written, wellFormed => .sentence wellFormed written

end Item

namespace Program

/-- The items of a contract in any order that keeps the order of its structs, that of its global sentences and
that of its functions. -/
def Interleaves (p : Program) (items : List Item) : Prop :=
  items.filterMap Item.struct? = p.structs ∧ items.filterMap Item.sentence? = p.globals ∧
    items.filterMap Item.function? = p.functions

/-- The items of a contract that can be written can be written. -/
theorem Interleaves.wellFormed {p : Program} {items : List Item} (interleaves : p.Interleaves items)
    (wellFormed : p.wellFormed = true) : ∀ i ∈ items, i.wellFormed = true := by
  obtain ⟨structs, globals, functions⟩ := interleaves
  simp only [Program.wellFormed, Bool.and_eq_true, List.all_eq_true, Sentence.allWellFormed_eq] at wellFormed
  intro i mem
  cases i with
  | struct s => exact wellFormed.1.1 s (structs ▸ List.mem_filterMap.2 ⟨_, mem, rfl⟩)
  | function f => exact wellFormed.2 f (functions ▸ List.mem_filterMap.2 ⟨_, mem, rfl⟩)
  | sentence s => exact wellFormed.1.2 s (globals ▸ List.mem_filterMap.2 ⟨_, mem, rfl⟩)

/-- A contract that can be written is written by its items in any order that keeps each group's, and it is read
back from the tokens, whichever way the items are written. -/
theorem ofTokens_written (p : Program) (wellFormed : p.wellFormed = true) :
    (∀ items, p.Interleaves items → ∃ pieces : List (Item × List Token), pieces.map (·.1) = items ∧
      ∀ piece ∈ pieces, piece.1.Written piece.2) ∧
    ∀ pieces : List (Item × List Token), p.Interleaves (pieces.map (·.1)) →
      (∀ piece ∈ pieces, piece.1.Written piece.2) → Program.ofTokens (pieces.flatMap (·.2)) = .ok p := by
  constructor
  · intro items interleaves
    exact exists_pieces Item.Written items fun i mem => Item.exists_written (interleaves.wellFormed wellFormed i mem)
  · intro pieces interleaves written
    have several : Parser.Several (Item.parser ((pieces.flatMap (·.2)).length + 1)) (pieces.flatMap (·.2) ++ [])
        (pieces.map (·.1)) [] :=
      Sentence.FoundBy.several (fun piece mem => (written piece mem).found
        (interleaves.wellFormed wellFormed _ (List.mem_map_of_mem mem))) (Nat.lt_succ_self _)
        (by simp [Sentence.NoElse])
    rw [List.append_nil] at several
    have reads := Parser.Reads.many several rfl
    obtain ⟨structs, globals, functions⟩ := interleaves
    rw [Program.ofTokens, reads.run]
    dsimp only
    rw [structs, globals, functions]

end Program

namespace Sample

/-- A contract with a struct, a variable and a function that branches on the variable. -/
def branching : Program where
  structs := [⟨"pair", [⟨"a", false, none, none, 1⟩, ⟨"b", true, none, none, 1⟩], 1⟩]
  globals := [.declaration ⟨.long, false, [⟨"x", false, some 2, some [named "y" 3], 3⟩], 3⟩]
  functions := [⟨"main", .void, false, [],
    [.ifElse 2 [named "x" 2] [.ifThen 2 [] []] [.phrase 2 false [named "x" 2, mark "=" 2, named "y" 2]]], 2⟩]

end Sample

/-- The function comes before the variable, the members of the struct are in one row, and the alternative
belongs to the outer condition. -/
theorem Program.ofTokens_written_branching : Program.ofTokens
    [word "struct" 1, named "pair" 1, mark "\x7b" 1, word "long" 1, named "a" 1, mark "," 1, mark "*" 1, named "b" 1,
      mark ";" 1, mark "\x7d" 1, mark ";" 1,
      word "void" 2, named "main" 2, mark "(" 2, word "void" 2, mark ")" 2, mark "\x7b" 2, word "if" 2, mark "(" 2,
      named "x" 2, mark ")" 2, mark "\x7b" 2, word "if" 2, mark "(" 2, mark ")" 2, mark "\x7b" 2, mark "\x7d" 2,
      mark "\x7d" 2, word "else" 2, mark "\x7b" 2, named "x" 2, mark "=" 2, named "y" 2, mark ";" 2, mark "\x7d" 2,
      mark "\x7d" 2,
      word "long" 3, named "x" 3, mark "[" 3, ⟨.number, "2", 3⟩, mark "]" 3, mark "=" 3, named "y" 3, mark ";" 3] =
    .ok Sample.branching := by
  have members := @Declarator.Listed.intro
    [(⟨"a", false, none, none, 1⟩, [named "a" 1]), (⟨"b", true, none, none, 1⟩, [mark "*" 1, named "b" 1])] _ 1
    (List.forall_mem_cons.2 ⟨⟨fun _ => 1, rfl⟩, List.forall_mem_singleton.2 ⟨fun _ => 1, rfl⟩⟩) (.more _ 1 (.one _))
  have struct := @StructDef.Written.intro [(_, _)] "pair" 1 (fun _ => 1)
    (List.forall_mem_singleton.2 ⟨1, _, rfl, members⟩)
  have inner := @Sentence.Written.ifThen [] 2 [] (fun _ => 2) (by simp)
  have assigns := @Sentence.Written.phrase 2 [named "x" 2, mark "=" 2, named "y" 2] 2 rfl
  have outer := @Sentence.Written.ifElse [(_, _)] [(_, _)] 2 [named "x" 2] (fun _ => 2)
    (List.forall_mem_singleton.2 inner) (List.forall_mem_singleton.2 assigns)
  have function := @FunctionDef.Written.intro [] _ [(_, _)] "main" .void false 2 (fun _ => 2) (.void 2)
    (List.forall_mem_singleton.2 outer)
  have declared := @Declarator.Listed.intro [(⟨"x", false, some 2, some [named "y" 3], 3⟩,
      [named "x" 3, mark "[" 3, ⟨.number, "2", 3⟩, mark "]" 3, mark "=" 3, named "y" 3])] _ 3
    (List.forall_mem_singleton.2 ⟨fun _ => 3, rfl⟩) (.one _)
  have global := Sentence.Written.declaration (.intro .long false 3 3 3 declared)
  exact (ofTokens_written Sample.branching (by decide)).2
    [(.struct _, _), (.function _, _), (.sentence _, _)] ⟨rfl, rfl, rfl⟩
    (List.forall_mem_cons.2 ⟨struct, List.forall_mem_cons.2 ⟨function, List.forall_mem_singleton.2 global⟩⟩)

end ContractCompiler
