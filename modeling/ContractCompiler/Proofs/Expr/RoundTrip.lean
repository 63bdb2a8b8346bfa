import ContractCompiler.Expr.Parser
import ContractCompiler.Proofs.Expr.Written

/-!
# Proofs.Expr.RoundTrip — written expressions are read back

An operator of rank `r` has the left power `leftPower r` and the right power `rightPower r`. So a parser of a
given power extends an operand by exactly those operators whose rank suffices (`Admits`), and it stops before a
token of lower power (`Stops`).

The parser begins with the leftmost operand and extends it step by step. What `Found need e ts` says of tokens
fits this order: the parser reads some operand at their front and comes from it to `e` by a path of extensions,
whatever follows, if that does not belong to `e`. Each way to write an expression keeps this
(`Written.found`), and so the parser reads it as that expression (`Expr.reads_written`).
-/

namespace ContractCompiler

set_option autoImplicit false

/-! ## Powers -/

namespace Expr

/-- The power on the left of an operator of the given rank. -/
def leftPower (rank : Nat) : Nat := if rank ≤ 2 then 2 * rank + 3 else 2 * rank + 2

/-- The power on the right of an operator of the given rank. -/
def rightPower (rank : Nat) : Nat := if rank ≤ 2 then 2 * rank + 2 else 2 * rank + 3

theorem le_leftNeed (r : Nat) : r ≤ leftNeed r := by grind [leftNeed]

theorem le_rightNeed (r : Nat) : r ≤ rightNeed r := by grind [rightNeed]

/-- The left operand of an operator ends before it. -/
theorem leftPower_lt_rightPower (r : Nat) : leftPower r < rightPower (leftNeed r) := by
  grind [leftPower, rightPower, leftNeed]

/-- The right operand of an operator takes in all it may. -/
theorem rightPower_le_leftPower (r : Nat) : rightPower r ≤ leftPower (rightNeed r) := by
  grind [leftPower, rightPower, rightNeed]

theorem rowRank_lt (symbol : String) : rowRank symbol < prefixRank := Nat.lt_succ_of_le (Nat.sub_le _ _)

theorem rightPower_mono {r r' : Nat} (le : r ≤ r') : rightPower r ≤ rightPower r' := by
  unfold rightPower
  split <;> split <;> omega

theorem leftPower_mono {r r' : Nat} (le : r ≤ r') : leftPower r ≤ leftPower r' := by
  unfold leftPower
  split <;> split <;> omega

end Expr

namespace InfixOp

open Token (mark)

variable (op : InfixOp)

theorem mem_all : op ∈ all := by
  rcases op with op | relation | connective | _ | op
  · cases op <;> decide
  · cases relation <;> decide
  · cases connective <;> decide
  · decide
  · cases op <;> decide

-- The line of a token plays no part in what it is, so that one line stands for all in the table.
theorem all_ranked : ∀ op ∈ all, op.leftPower = Expr.leftPower (Expr.rowRank op.symbol) ∧
    op.rightPower = Expr.rightPower (Expr.rowRank op.symbol) ∧ ofToken? (mark op.symbol 0) = some op ∧
    Step.ofToken? (mark op.symbol 0) = none ∧ (mark op.symbol 0).isOneOf ["[", ".", "->"] = false ∧
    (mark op.symbol 0).isPunct "?" = false ∧ (mark op.symbol 0).isPunct "(" = false := by
  decide +kernel

theorem leftPower_eq : op.leftPower = Expr.leftPower (Expr.rowRank op.symbol) := (all_ranked op op.mem_all).1

theorem rightPower_eq : op.rightPower = Expr.rightPower (Expr.rowRank op.symbol) := (all_ranked op op.mem_all).2.1

theorem ofToken?_mark (line : Nat) : ofToken? (mark op.symbol line) = some op := (all_ranked op op.mem_all).2.2.1

/-- The token of an operator does not follow an operand directly, and begins no call. -/
theorem mark_plain (line : Nat) : Step.ofToken? (mark op.symbol line) = none ∧
    (mark op.symbol line).isOneOf ["[", ".", "->"] = false ∧ (mark op.symbol line).isPunct "?" = false ∧
    (mark op.symbol line).isPunct "(" = false :=
  (all_ranked op op.mem_all).2.2.2

end InfixOp

theorem PrefixOp.ofToken?_mark (op : PrefixOp) (line : Nat) : ofToken? (Token.mark op.symbol line) = some op := by
  rcases op with _ | _ | _ | step | _ | _
  · rfl
  · rfl
  · rfl
  · cases step <;> rfl
  · rfl
  · rfl

theorem Step.ofToken?_mark (step : Step) (line : Nat) : ofToken? (Token.mark step.symbol line) = some step := by
  cases step <;> rfl

/-- The power with which a token extends the operand before it. -/
def Token.power? (t : Token) : Option Nat :=
  if (Step.ofToken? t).isSome || t.isOneOf ["[", ".", "->"] then some PrefixOp.power
  else if t.isPunct "?" then some Expr.ternaryLeftPower
  else (InfixOp.ofToken? t).map InfixOp.leftPower

namespace Expr

open Token (mark named Separated)

variable {need power fuel : Nat} {e : Expr} {ts us rest : List Token}

/-! ## Where an expression ends -/

/-- The tokens do not extend an operand with the given power. -/
def Stops (power : Nat) (rest : List Token) : Prop := ∀ t ∈ rest.head?, ∀ q, t.power? = some q → q < power

/-- The tokens may follow an expression that is written for the given rank. -/
def Follows (need : Nat) (rest : List Token) : Prop :=
  (∀ t ∈ rest.head?, t.isPunct "(" = false) ∧ Stops (rightPower need) rest

theorem Stops.mono {power' : Nat} (stops : Stops power rest) (le : power ≤ power') : Stops power' rest :=
  fun t isHead q isPower => Nat.lt_of_lt_of_le (stops t isHead q isPower) le

theorem Follows.mono {need' : Nat} (follows : Follows need rest) (le : need ≤ need') : Follows need' rest :=
  ⟨follows.1, follows.2.mono (rightPower_mono le)⟩

/-- A token that never extends an operand may follow everything. -/
theorem Follows.of_none {t : Token} (noCall : t.isPunct "(" = false) (none : t.power? = none) :
    Follows need (t :: rest) := by
  refine ⟨?_, ?_⟩
  · rintro _ ⟨⟩
    exact noCall
  · rintro _ ⟨⟩ q isPower
    rw [none] at isPower
    cases isPower

theorem Follows.of_some {t : Token} {q : Nat} (noCall : t.isPunct "(" = false) (isPower : t.power? = some q)
    (lt : q < rightPower need) : Follows need (t :: rest) := by
  refine ⟨?_, ?_⟩
  · rintro _ ⟨⟩
    exact noCall
  · rintro _ ⟨⟩ q' isPower'
    rw [isPower] at isPower'
    cases isPower'
    exact lt

theorem Follows.nil : Follows need [] := ⟨by simp, by simp [Stops]⟩

/-- What the token is not that a parser stops at. -/
theorem Stops.head {t : Token} (stops : Stops power rest) (le : power ≤ PrefixOp.power) (isHead : t ∈ rest.head?) :
    Step.ofToken? t = none ∧ t.isOneOf ["[", ".", "->"] = false ∧
      (t.isPunct "?" = true → ternaryLeftPower < power) ∧
      ∀ op, InfixOp.ofToken? t = some op → op.leftPower < power := by
  have below := stops t isHead
  unfold Token.power? at below
  by_cases suffix : ((Step.ofToken? t).isSome || t.isOneOf ["[", ".", "->"]) = true
  · rw [if_pos suffix] at below
    exact absurd (below _ rfl) (Nat.not_lt.2 le)
  · rw [if_neg suffix] at below
    obtain ⟨noStep, noBracket⟩ : Step.ofToken? t = none ∧ t.isOneOf ["[", ".", "->"] = false := by
      simpa using suffix
    refine ⟨noStep, noBracket, ?_⟩
    by_cases question : t.isPunct "?" = true
    · rw [if_pos question] at below
      refine ⟨fun _ => below _ rfl, fun op isOp => ?_⟩
      obtain ⟨isMark, isQuestion⟩ : t.kind = .punct ∧ t.text = "?" := by simpa [Token.isPunct] using question
      rw [InfixOp.ofToken?, if_pos isMark, isQuestion] at isOp
      cases isOp
    · rw [if_neg question] at below
      exact ⟨fun is => absurd is question, fun op isOp => below _ (by rw [isOp]; rfl)⟩

theorem suffixParser_refuses {inner : Nat → Parser Expr} (left : Expr)
    (noStep : ∀ t ∈ rest.head?, Step.ofToken? t = none)
    (noMark : ∀ t ∈ rest.head?, t.isOneOf ["[", ".", "->"] = false) : (suffixParser inner left).Refuses rest := by
  have other : ∀ t ∈ rest.head?, t.isPunct "[" = false ∧ (t.isPunct "." || t.isPunct "->") = false := by
    intro t isHead
    have none := noMark t isHead
    simp only [Token.isOneOf, List.contains_cons, List.contains_nil, Bool.or_false, Bool.and_or_distrib_left,
      Bool.or_eq_false_iff] at none
    exact ⟨none.1, Bool.or_eq_false_iff.2 none.2⟩
  refine .choice ?_
  simp only [List.forall_mem_cons, List.not_mem_nil, false_implies, implies_true, and_true]
  refine ⟨.bind (.tokenMap fun t isHead => ?_), .bind (.satisfy fun t isHead => (other t isHead).1),
    .bind (.satisfy fun t isHead => (other t isHead).2)⟩
  rw [noStep t isHead]
  rfl

/-- A parser stops where an operator is not strong enough. -/
theorem extensionParser_refuses {inner : Nat → Parser Expr} (stops : Stops power rest)
    (le : power ≤ PrefixOp.power) (left : Expr) : (extensionParser inner power left).Refuses rest := by
  refine .choice ?_
  simp only [List.forall_mem_cons, List.not_mem_nil, false_implies, implies_true, and_true]
  refine ⟨suffixParser_refuses left (fun t isHead => (stops.head le isHead).1)
    fun t isHead => (stops.head le isHead).2.1, .bind (.tokenMap fun t isHead => ?_), ?_⟩
  · obtain ⟨-, -, -, below⟩ := stops.head le isHead
    cases isOp : InfixOp.ofToken? t with
    | none => rfl
    | some op =>
      simp [below op isOp]
  · unfold ternaryParser
    split
    · rename_i strong
      refine .bind (.satisfy fun t isHead => ?_)
      obtain ⟨-, -, below, -⟩ := stops.head le isHead
      exact Bool.eq_false_iff.2 fun question => absurd (below question) (Nat.not_lt.2 strong)
    · exact .fail

/-! ## Operands and what extends them -/

/-- The power is low enough for operators of the rank. -/
def Admits (power need : Nat) : Prop := need < prefixRank → power ≤ leftPower need

theorem Admits.mono {need' : Nat} (admits : Admits power need) (le : need ≤ need') : Admits power need' :=
  fun below => Nat.le_trans (admits (Nat.lt_of_le_of_lt le below)) (leftPower_mono le)

/-- The first part of an expression. -/
def operandParser (inner : Nat → Parser Expr) : Parser Expr := Parser.orElse (prefixedParser inner) (atomParser inner)

/-- The tokens are read as the expression by an operand and a path of extensions, up to what follows. -/
def Found (need : Nat) (e : Expr) (ts : List Token) : Prop :=
  ∀ fuel power rest, ts.length ≤ fuel → Admits power need → Follows need rest →
    ∃ operand mid, (operandParser (parser fuel)).Reads (ts ++ rest) operand mid ∧
      Parser.Path (extensionParser (parser fuel) power) operand mid e rest

/-- A parser that stops behind the tokens reads all of them. -/
theorem Found.reads (found : Found need e ts) (enough : ts.length < fuel) (admits : Admits power need)
    (le : power ≤ PrefixOp.power) (follows : Follows need rest) (stops : Stops power rest) :
    (parser fuel power).Reads (ts ++ rest) e rest := by
  obtain ⟨fuel, rfl⟩ : ∃ n, fuel = n + 1 := ⟨fuel - 1, by omega⟩
  obtain ⟨operand, mid, first, path⟩ := found fuel power rest (by omega) admits follows
  exact .bind first (.iterate path (extensionParser_refuses stops le e))

/-- An expression between marks is read with the lowest power. -/
theorem Found.reads_inside (found : Found 0 e ts) (enough : ts.length < fuel) {t : Token}
    (noCall : t.isPunct "(" = false) (none : t.power? = none) :
    (parser fuel 0).Reads (ts ++ t :: rest) e (t :: rest) := by
  refine found.reads enough (fun _ => Nat.zero_le _) (Nat.zero_le _) (.of_none noCall none) ?_
  rintro _ ⟨⟩ q isPower
  rw [none] at isPower
  cases isPower

/-- An operand that begins with a mark which is no prefix operator stands in parentheses. -/
theorem operandParser_mark {inner : Nat → Parser Expr} {symbol : String} {l : Nat}
    (noPrefix : PrefixOp.ofToken? (mark symbol l) = none) {mid : List Token}
    (reads : (Parser.between "(" ")" (inner 0)).Reads (mark symbol l :: ts) e mid) :
    (operandParser inner).Reads (mark symbol l :: ts) e mid := by
  refine .orElse_later (.bind (.tokenMap_cons ?_)) (.choice_later (.bind (.satisfy_cons rfl))
    (.choice_later (.tokenMap_cons rfl) (.choice_later (.tokenMap_cons rfl) reads)))
  rw [noPrefix]
  rfl

/-- No expression begins with a closing parenthesis. -/
theorem parser_refuses_close (fuel power l : Nat) : (parser fuel power).Refuses (mark ")" l :: rest) := by
  cases fuel with
  | zero => exact .fail
  | succ fuel => exact .bind (.orElse rfl rfl)

theorem operandParser_call {inner : Nat → Parser Expr} {function : String} {line : Nat} {mid : List Token}
    {args : List Expr}
    (reads : (Parser.between "(" ")" (Parser.sepBy (inner 0) (Parser.punct ","))).Reads ts args mid) :
    (operandParser inner).Reads (named function line :: ts) (.call function line args) mid :=
  .orElse_later (.bind (.tokenMap_cons rfl))
    (.choice (.bind (.identifier function line) (.bind reads (.pure _ _))))

namespace Found

theorem name (text : String) (line : Nat) : Found need (.name text line) [named text line] := by
  intro fuel power rest _ _ follows
  refine ⟨.name text line, rest, .orElse_later (.bind (.tokenMap_cons rfl)) ?_, .refl _ _⟩
  refine .choice_later (.bind_later (.identifier text line) (.bind (.bind (.satisfy follows.1)))) ?_
  exact .choice (.tokenMap rfl)

theorem number (text : String) (line : Nat) : Found need (.number text line) [⟨.number, text, line⟩] := by
  intro fuel power rest _ _ follows
  refine ⟨.number text line, rest, .orElse_later (.bind (.tokenMap_cons rfl)) ?_, .refl _ _⟩
  exact .choice_later (.bind (.satisfy_cons rfl)) (.choice_later (.tokenMap_cons rfl) (.choice (.tokenMap rfl)))

theorem call (function : String) (line l l' : Nat) :
    Found need (.call function line []) [named function line, mark "(" l, mark ")" l'] := by
  intro fuel power rest _ _ _
  refine ⟨.call function line [], rest, operandParser_call (.between l' ?_), .refl _ _⟩
  exact .orElse_later (.bind (parser_refuses_close fuel 0 l')) (.pure _ _)

theorem callWith {args : List (Expr × List Token)} (function : String) (line l l' : Nat)
    (each : ∀ arg ∈ args, Found 0 arg.1 arg.2) (separated : Separated (args.map (·.2)) us) :
    Found need (.call function line (args.map (·.1)))
      (named function line :: mark "(" l :: (us ++ [mark ")" l'])) := by
  intro fuel power rest enough _ _
  simp only [List.length_cons, List.length_append] at enough
  refine ⟨.call function line (args.map (·.1)), rest, operandParser_call (.between l' (.orElse ?_)), .refl _ _⟩
  rw [List.append_eq, List.append_assoc]
  refine .sepBy1 (fun rest => ∃ t rest', rest = t :: rest' ∧ t.isPunct "(" = false ∧ t.power? = none) separated ?_
    (fun line rest => ⟨_, _, rfl, rfl, rfl⟩) ⟨_, _, rfl, rfl, rfl⟩ ?_
  · rintro arg mem _ ⟨t, rest, rfl, noCall, none⟩
    have le : arg.2.length ≤ us.length := separated.length_le (List.mem_map_of_mem mem)
    exact (each arg mem).reads_inside (by omega) noCall none
  · rintro _ ⟨⟩
    rfl

theorem enclosed (l l' : Nat) (inner : Found 0 e ts) : Found need e (mark "(" l :: (ts ++ [mark ")" l'])) := by
  intro fuel power rest enough _ _
  simp only [List.length_cons, List.length_append] at enough
  refine ⟨e, rest, operandParser_mark rfl (.between l' ?_), .refl _ _⟩
  rw [List.append_eq, List.append_assoc]
  exact inner.reads_inside (by omega) rfl rfl

/-- What follows an operand directly is one more step. -/
theorem suffix {base : Expr} (allowed : need ≤ suffixRank) (first : Found suffixRank base ts) {t : Token}
    (isSuffix : t.power? = some PrefixOp.power) (noCall : t.isPunct "(" = false)
    (reads : ∀ fuel rest, us.length < fuel →
      (suffixParser (parser fuel) base).Reads (t :: (us ++ rest)) e rest) :
    Found need e (ts ++ t :: us) := by
  intro fuel power rest enough admits _
  simp only [List.length_cons, List.length_append] at enough
  obtain ⟨operand, mid, isOperand, path⟩ := first fuel power (t :: (us ++ rest)) (by omega) (admits.mono allowed)
    (.of_some noCall isSuffix (by decide))
  refine ⟨operand, mid, ?_, path.snoc (.choice (reads fuel rest (by omega))) ?_⟩
  · rw [List.append_assoc]
    exact isOperand
  · simp only [List.length_cons, List.length_append]
    omega

theorem index {base position : Expr} (line l : Nat) (allowed : need ≤ suffixRank)
    (first : Found suffixRank base ts) (inner : Found 0 position us) :
    Found need (.index line base position) (ts ++ mark "[" line :: (us ++ [mark "]" l])) := by
  refine suffix allowed first rfl rfl fun fuel rest enough =>
    .choice_later (.bind (.tokenMap_cons rfl)) (.choice ?_)
  simp only [List.length_append] at enough
  rw [List.append_assoc]
  exact .bind (.punct "[" line) (.bind (inner.reads_inside (by omega) rfl rfl)
    (.bind (.punct "]" l) (.pure _ _)))

theorem member {base : Expr} (line l : Nat) (arrow : Bool) (field : String) (allowed : need ≤ suffixRank)
    (first : Found suffixRank base ts) :
    Found need (.member line arrow base field) (ts ++ [mark (if arrow then "->" else ".") l, named field line]) := by
  have known : ∀ l, (mark (if arrow then "->" else ".") l).power? = some PrefixOp.power ∧
      (mark (if arrow then "->" else ".") l).isPunct "(" = false ∧
      Step.ofToken? (mark (if arrow then "->" else ".") l) = none ∧
      (mark (if arrow then "->" else ".") l).isPunct "[" = false ∧
      ((mark (if arrow then "->" else ".") l).isPunct "." || (mark (if arrow then "->" else ".") l).isPunct "->") =
        true ∧
      ((mark (if arrow then "->" else ".") l).text == "->") = arrow := by
    cases arrow <;> exact fun _ => ⟨rfl, rfl, rfl, rfl, rfl, rfl⟩
  obtain ⟨isSuffix, noCall, noStep, noBracket, isMember, isArrow⟩ := known l
  refine suffix allowed first isSuffix noCall fun fuel rest enough => .choice_later (.bind (.tokenMap_cons ?_))
    (.choice_later (.bind (.satisfy_cons noBracket))
      (.choice (.bind (.satisfy isMember) (.bind (.identifier field line) ?_))))
  · rw [noStep]
    rfl
  · rw [isArrow]
    exact .pure _ _

theorem stepped {operand : Expr} (step : Step) (line : Nat) (allowed : need ≤ suffixRank)
    (first : Found suffixRank operand ts) :
    Found need (.stepped step line operand) (ts ++ [mark step.symbol line]) := by
  have isSuffix : (mark step.symbol line).power? = some PrefixOp.power := by cases step <;> rfl
  have noCall : (mark step.symbol line).isPunct "(" = false := by cases step <;> rfl
  have isStep : (Step.ofToken? (mark step.symbol line)).map (·, (mark step.symbol line).line) =
      some (step, line) := by
    rw [step.ofToken?_mark]
    rfl
  exact suffix allowed first isSuffix noCall fun fuel rest enough => .choice (.bind (.tokenMap isStep) (.pure _ _))

theorem prefixed {operand : Expr} (op : PrefixOp) (line : Nat) (allowed : need ≤ prefixRank)
    (inner : Found prefixRank operand ts) : Found need (.prefixed op line operand) (mark op.symbol line :: ts) := by
  intro fuel power rest enough _ follows
  have reads : (parser fuel PrefixOp.power).Reads (ts ++ rest) operand rest := by
    refine inner.reads enough (fun below => absurd below (Nat.lt_irrefl _)) (Nat.le_refl _) (follows.mono allowed) ?_
    exact follows.2.mono (Nat.le_trans (rightPower_mono allowed) (by decide))
  have isOp : (PrefixOp.ofToken? (mark op.symbol line)).map (·, (mark op.symbol line).line) =
      some (op, line) := by
    rw [op.ofToken?_mark]
    rfl
  exact ⟨.prefixed op line operand, rest, .orElse (.bind (.tokenMap isOp) (.bind reads (.pure _ _))), .refl _ _⟩

/-- An operator of a row comes behind its left operand. -/
theorem reads_left {rank : Nat} {left : Expr} {t : Token} (first : Found (leftNeed rank) left ts)
    (enough : ts.length ≤ fuel) (admits : Admits power need) (allowed : need ≤ rank) (noCall : t.isPunct "(" = false)
    (isPower : t.power? = some (leftPower rank)) (rest : List Token) :
    ∃ operand mid, (operandParser (parser fuel)).Reads (ts ++ t :: rest) operand mid ∧
      Parser.Path (extensionParser (parser fuel) power) operand mid left (t :: rest) :=
  first fuel power (t :: rest) enough (admits.mono (Nat.le_trans allowed (le_leftNeed rank)))
    (.of_some noCall isPower (leftPower_lt_rightPower rank))

/-- An operator of a row takes its right operand with the power of its rank. -/
theorem reads_right {rank : Nat} (second : Found (rightNeed rank) e us) (enough : us.length < fuel)
    (isRow : rank < prefixRank) (allowed : need ≤ rank) (follows : Follows need rest) :
    (parser fuel (rightPower rank)).Reads (us ++ rest) e rest :=
  second.reads enough (fun _ => rightPower_le_leftPower rank)
    (Nat.le_trans (rightPower_mono (Nat.le_of_lt_succ isRow)) (by decide))
    (follows.mono (Nat.le_trans allowed (le_rightNeed rank))) (follows.2.mono (rightPower_mono allowed))

theorem infixed {left right : Expr} (op : InfixOp) (line : Nat) (allowed : need ≤ rowRank op.symbol)
    (first : Found (leftNeed (rowRank op.symbol)) left ts)
    (second : Found (rightNeed (rowRank op.symbol)) right us) :
    Found need (.infixed op line left right) (ts ++ mark op.symbol line :: us) := by
  intro fuel power rest enough admits follows
  simp only [List.length_cons, List.length_append] at enough
  obtain ⟨noStep, noMark, noQuestion, noCall⟩ := op.mark_plain line
  have isPower : (mark op.symbol line).power? = some (leftPower (rowRank op.symbol)) := by
    simp [Token.power?, noStep, noMark, noQuestion, op.ofToken?_mark, op.leftPower_eq]
  have isRow : rowRank op.symbol < prefixRank := rowRank_lt _
  have strong : power ≤ op.leftPower := by
    rw [op.leftPower_eq]
    exact Nat.le_trans (admits (Nat.lt_of_le_of_lt allowed isRow)) (leftPower_mono allowed)
  have isOp : ((InfixOp.ofToken? (mark op.symbol line)).filter (power ≤ ·.leftPower)).map
      (·, (mark op.symbol line).line) = some (op, line) := by
    rw [op.ofToken?_mark, Option.filter_some, if_pos (decide_eq_true strong)]
    rfl
  have enoughLeft : ts.length ≤ fuel := by omega
  obtain ⟨operand, mid, isOperand, path⟩ := first.reads_left enoughLeft admits allowed noCall isPower (us ++ rest)
  refine ⟨operand, mid, ?_, path.snoc (.choice_later (suffixParser_refuses left ?_ ?_) (.choice
    (.bind (.tokenMap isOp) (.bind ?_ (.pure _ _))))) ?_⟩
  · rw [List.append_assoc]
    exact isOperand
  · rintro _ ⟨⟩
    exact noStep
  · rintro _ ⟨⟩
    exact noMark
  · rw [op.rightPower_eq]
    exact second.reads_right (by omega) isRow allowed follows
  · simp only [List.length_cons, List.length_append]
    omega

theorem ternary {condition yes no : Expr} {vs : List Token} (line l : Nat) (allowed : need ≤ rowRank "?")
    (first : Found (leftNeed (rowRank "?")) condition ts) (inner : Found 0 yes us)
    (second : Found (rightNeed (rowRank "?")) no vs) :
    Found need (.ternary line condition yes no) (ts ++ mark "?" line :: (us ++ mark ":" l :: vs)) := by
  intro fuel power rest enough admits follows
  simp only [List.length_cons, List.length_append] at enough
  have isRow : rowRank "?" < prefixRank := rowRank_lt _
  have strong : power ≤ ternaryLeftPower :=
    Nat.le_trans (admits (Nat.lt_of_le_of_lt allowed isRow)) (leftPower_mono allowed)
  have enoughLeft : ts.length ≤ fuel := by omega
  obtain ⟨operand, mid, isOperand, path⟩ := first.reads_left (t := mark "?" line) enoughLeft admits allowed rfl rfl
    (us ++ mark ":" l :: (vs ++ rest))
  have isTernary : (ternaryParser (parser fuel) power condition).Reads
      (mark "?" line :: (us ++ mark ":" l :: (vs ++ rest))) (.ternary line condition yes no) rest := by
    rw [ternaryParser, if_pos strong]
    exact .bind (.punct "?" line) (.bind (inner.reads_inside (by omega) rfl rfl) (.bind (.punct ":" l)
      (.bind (second.reads_right (by omega) isRow allowed follows) (.pure _ _))))
  refine ⟨operand, mid, ?_, path.snoc (.choice_later (suffixParser_refuses condition ?_ ?_)
    (.choice_later (.bind (.tokenMap_cons rfl)) (.choice isTernary))) ?_⟩
  · simp only [List.append_assoc, List.cons_append]
    exact isOperand
  · rintro _ ⟨⟩
    rfl
  · rintro _ ⟨⟩
    rfl
  · simp only [List.length_cons, List.length_append]
    omega

end Found

/-- Every way to write an expression is read as that expression, up to what follows. -/
theorem Written.found (written : Written need e ts) : Found need e ts := by
  induction written with
  | name text line => exact .name text line
  | number text line => exact .number text line
  | call function line l l' => exact .call function line l l'
  | callWith function line l l' _ separated each => exact .callWith function line l l' each separated
  | index line l allowed _ _ first inner => exact .index line l allowed first inner
  | member line l arrow field allowed _ first => exact .member line l arrow field allowed first
  | stepped step line allowed _ first => exact .stepped step line allowed first
  | prefixed op line allowed _ inner => exact .prefixed op line allowed inner
  | infixed op line allowed _ _ first second => exact .infixed op line allowed first second
  | ternary line l allowed _ _ _ first inner second => exact .ternary line l allowed first inner second
  | enclosed l l' _ inner => exact .enclosed l l' inner

/-! ## All the tokens -/

/-- An expression begins with a token, and not with a word of control. -/
theorem Written.head (written : Written need e ts) : ∃ t ts', ts = t :: ts' ∧ t.kind ≠ .keyword := by
  have longer : ∀ {ts : List Token}, (∃ t ts', ts = t :: ts' ∧ t.kind ≠ .keyword) →
      ∀ us, ∃ t ts', ts ++ us = t :: ts' ∧ t.kind ≠ .keyword := by
    rintro _ ⟨t, ts, rfl, noKeyword⟩ us
    exact ⟨t, ts ++ us, rfl, noKeyword⟩
  induction written with
  | name | number | call | callWith | prefixed | enclosed => exact ⟨_, _, rfl, by rintro ⟨⟩⟩
  | index _ _ _ _ _ first => exact longer first _
  | member _ _ _ _ _ _ first => exact longer first _
  | stepped _ _ _ _ first => exact longer first _
  | infixed _ _ _ _ _ first => exact longer first _
  | ternary _ _ _ _ _ _ first => exact longer first _

theorem Written.reads (written : Written 0 e ts) : (parser (ts.length + 1) 0).Reads ts e [] := by
  have reads : (parser (ts.length + 1) 0).Reads (ts ++ []) e [] :=
    written.found.reads (Nat.lt_succ_self _) (fun _ => Nat.zero_le _) (Nat.zero_le _) .nil (by simp [Stops])
  rwa [List.append_nil] at reads

theorem Written.ofCondition (written : Written 0 e ts) (line : Nat) : Expr.ofCondition ts line = .ok e := by
  obtain ⟨t, ts', rfl, -⟩ := written.head
  rw [Expr.ofCondition, if_neg (by simp), written.reads.run]

theorem Written.ofPhrase (written : Written 0 e ts) (line : Nat) :
    Phrase.ofTokens ts line = .ok (some (.value e)) := by
  obtain ⟨t, ts', rfl, noKeyword⟩ := written.head
  have reads : (Phrase.parser ((t :: ts').length + 1)).Reads (t :: ts') (.value e) [] := by
    refine .orElse_later (.bind (.tokenMap_cons ?_)) (.bind written.reads (.pure _ _))
    rw [Control.ofToken?, if_neg noKeyword]
    rfl
  rw [Phrase.ofTokens, if_neg (by simp), reads.run]

/-- The parser returns the expression that was written: with the fewest parentheses, and with any more of
them. -/
theorem reads_written (e : Expr) (l line : Nat) :
    (ofCondition (tokens l e) line = .ok e ∧ Phrase.ofTokens (tokens l e) line = .ok (some (.value e))) ∧
      ∀ ts, Written 0 e ts → (tokens l e).length ≤ ts.length ∧ ofCondition ts line = .ok e ∧
        Phrase.ofTokens ts line = .ok (some (.value e)) := by
  have fewest : Written 0 e (tokens l e) := (written_tokens l e).mono (Nat.zero_le _)
  refine ⟨⟨fewest.ofCondition line, fewest.ofPhrase line⟩, fun ts written => ?_⟩
  have shortest := written.length_le (Nat.zero_le _) l
  rw [enclose_of_le (Nat.zero_le _)] at shortest
  exact ⟨shortest, written.ofCondition line, written.ofPhrase line⟩

/-- The left operand of a difference in parentheses that it does not need, the right one in those it needs. -/
theorem reads_written_difference :
    ofCondition [mark "(" 1, named "x" 1, mark ")" 1, mark "-" 1, mark "(" 1, named "y" 1, mark "-" 1, named "z" 1,
      mark ")" 1] 1 =
      .ok (.infixed (.arith .sub) 1 (.name "x" 1) (.infixed (.arith .sub) 1 (.name "y" 1) (.name "z" 1))) :=
  ((reads_written (.infixed (.arith .sub) 1 (.name "x" 1) (.infixed (.arith .sub) 1 (.name "y" 1) (.name "z" 1)))
    1 1).2 _ (.infixed (.arith .sub) 1 (by decide) (.enclosed 1 1 (.name "x" 1))
      (.enclosed 1 1 (.infixed (.arith .sub) 1 (by decide) (.name "y" 1) (.name "z" 1))))).2.1

end Expr

end ContractCompiler
