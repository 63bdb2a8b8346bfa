import Mathlib.Data.Nat.Digits.Lemmas
import ContractCompiler.Proofs.Memory
import ContractCompiler.Proofs.OperandClosure

/-!
# Proofs.Literal — the numbers of a contract keep their value

A number is written in base ten or sixteen, and what its digits denote is `Token.denoted`. The compiler
reads it into a word, or refuses it if there is no such word (`Token.literal_eq`). From there on the word
goes through texts of sixteen digits: a literal is a slot with such a text, the lines that load it say the
digits or name a constant that is kept under them, and both the header and the phrases that fix contents
copy them. Each of these texts reads back as the word (`Word.Written`).
-/

namespace ContractCompiler

set_option autoImplicit false

/-! ## What digits denote -/

namespace Numeral

/-- The value of a digit is its place among the digits. -/
def place (c : Char) : Nat := "0123456789abcdef".toList.idxOf c.toLower

/-- The number that some digits denote. Underscores mean nothing. -/
def denoted (base : Nat) (digits : List Char) : Nat :=
  Nat.ofDigits base ((digits.filter (· != '_')).reverse.map place)

theorem digit?_eq {c : Char} (isDigit : Piece.isHexDigit c = true) : digit? 16 c = some (place c) ∧
    (Piece.isDecimalDigit c = true → digit? 10 c = some (place c)) := by
  have below : ∀ n < 103, Piece.isHexDigit (Char.ofNat n) = true →
      digit? 16 (Char.ofNat n) = some (place (Char.ofNat n)) ∧
        (Piece.isDecimalDigit (Char.ofNat n) = true →
          digit? 10 (Char.ofNat n) = some (place (Char.ofNat n))) := by decide
  have small : c.toNat < 103 := by
    simp only [Piece.isHexDigit, Piece.isDecimalDigit, Bool.or_eq_true, Bool.and_eq_true,
      decide_eq_true_eq, Char.le_def, UInt32.le_iff_toNat_le] at isDigit
    have codes : '9'.val.toNat = 57 ∧ 'f'.val.toNat = 102 ∧ 'F'.val.toNat = 70 := by decide
    have same : c.toNat = c.val.toNat := rfl
    omega
  have known := below c.toNat small
  rw [Char.ofNat_toNat] at known
  exact known isDigit

/-- Reading digits one after the other gives the number that they denote. -/
theorem digitsFrom?_eq {base : Nat} {cs : List Char} (digits : ∀ c ∈ cs, digit? base c = some (place c))
    (n : Nat) : digitsFrom? base n cs =
      some (n * base ^ cs.length + Nat.ofDigits base (cs.reverse.map place)) := by
  induction cs generalizing n with
  | nil => simp [digitsFrom?]
  | cons c rest ih =>
    obtain ⟨first, others⟩ := List.forall_mem_cons.1 digits
    simp only [digitsFrom?, first, Option.bind_some, ih others, List.reverse_cons, List.map_append,
      Nat.ofDigits_append, List.map_cons, List.map_nil, Nat.ofDigits_singleton, List.length_map,
      List.length_reverse, List.length_cons, Option.some.injEq]
    ring

/-- Digits between underscores are read if their number is below the bound. -/
theorem read?_eq {base bound : Nat} {cs : List Char} (hasDigit : ∃ c ∈ cs, c ≠ '_')
    (digits : ∀ c ∈ cs, c = '_' ∨ digit? base c = some (place c)) (noPlus : digit? base '+' = none) :
    read? base bound (cs.filter (· != '_')) = if denoted base cs < bound then some (denoted base cs) else none := by
  have digits : ∀ c ∈ cs.filter (· != '_'), digit? base c = some (place c) := fun c mem => by
    obtain ⟨listed, notLine⟩ := List.mem_filter.1 mem
    exact (digits c listed).resolve_left (bne_iff_ne.1 notLine)
  have value := digitsFrom?_eq digits 0
  rw [Nat.zero_mul, Nat.zero_add] at value
  unfold denoted
  cases found : cs.filter (· != '_') with
  | nil =>
    obtain ⟨c, listed, notLine⟩ := hasDigit
    exact absurd (List.filter_eq_nil_iff.1 found c listed) (by simpa using notLine)
  | cons c rest =>
    rw [found] at digits value
    have isDigit : c ≠ '+' := by
      rintro rfl
      rw [digits '+' List.mem_cons_self] at noPlus
      cases noPlus
    simp [read?, isDigit, digits?, value, Option.filter]

/-- The base of a number and its digits. -/
def cut : List Char → Nat × List Char
  | '0' :: 'x' :: digits | '0' :: 'X' :: digits => (16, digits)
  | digits => (10, digits)

theorem cut_decimal {cs : List Char} (noLetter : ∀ c ∈ cs, c ≠ 'x' ∧ c ≠ 'X') : cut cs = (10, cs) := by
  unfold cut
  split
  · exact absurd rfl (noLetter 'x' (by simp)).1
  · exact absurd rfl (noLetter 'X' (by simp)).2
  · rfl

end Numeral

/-- The word is read from the digits behind the base. -/
theorem literal?_eq (text : String) : literal? text =
    (Numeral.read? (Numeral.cut (text.toList.filter (· != '_'))).1 Word.count
      (Numeral.cut (text.toList.filter (· != '_'))).2).map UInt64.ofNat := by
  unfold literal?
  generalize text.toList.filter (· != '_') = cs
  unfold Numeral.cut
  dsimp only
  split <;> simp_all

namespace Token

def digits (t : Token) : Nat × List Char := Numeral.cut t.text.toList

def denoted (t : Token) : Nat := Numeral.denoted t.digits.1 t.digits.2

/-- The digits of a number are digits of its base, and underscores. -/
theorem digits_of_lexical {t : Token} (lexical : TokenKind.number.Lexical t.text.toList) :
    literal? t.text =
      (Numeral.read? t.digits.1 Word.count (t.digits.2.filter (· != '_'))).map UInt64.ofNat ∧
    (∀ c ∈ t.digits.2, c = '_' ∨ Numeral.digit? t.digits.1 c = some (Numeral.place c)) ∧
    Numeral.digit? t.digits.1 '+' = none := by
  rw [literal?_eq, digits]
  generalize t.text.toList = text at lexical
  cases lexical with
  | @decimal c rest digit others =>
    have all : ∀ d ∈ c :: rest, (Piece.isDecimalDigit d || d == '_') = true :=
      List.forall_mem_cons.2 ⟨by simp [digit], others⟩
    have noLetter : ∀ d ∈ c :: rest, d ≠ 'x' ∧ d ≠ 'X' := by
      intro d mem
      constructor <;> rintro rfl <;> exact absurd (all _ mem) (by decide)
    rw [Numeral.cut_decimal noLetter, Numeral.cut_decimal fun d mem => noLetter d (List.mem_filter.1 mem).1]
    refine ⟨rfl, fun d mem => ?_, rfl⟩
    rcases Bool.or_eq_true_iff.1 (all d mem) with isDigit | isLine
    · exact .inr ((Numeral.digit?_eq (by simp [Piece.isHexDigit, isDigit])).2 isDigit)
    · exact .inl (beq_iff_eq.1 isLine)
  | @hex x c rest isHex others =>
    have known : ∀ d ∈ c :: rest, d = '_' ∨ Numeral.digit? 16 d = some (Numeral.place d) := by
      intro d mem
      rcases Bool.or_eq_true_iff.1 (others d mem) with isDigit | isLine
      · exact .inr (Numeral.digit?_eq isDigit).1
      · exact .inl (beq_iff_eq.1 isLine)
    rcases Bool.or_eq_true_iff.1 isHex with same | same <;> rw [beq_iff_eq.1 same]
    · exact ⟨rfl, known, rfl⟩
    · exact ⟨rfl, known, rfl⟩

/-- A number that has a digit is read if there is a word for it, and refused at its line otherwise. -/
theorem literal_eq {t : Token} (lexical : TokenKind.number.Lexical t.text.toList)
    (hasDigit : ∃ c ∈ t.digits.2, c ≠ '_') :
    t.literal = if t.denoted < Word.count then .ok (UInt64.ofNat t.denoted)
      else .error (.shortage t.line .literalWidth) := by
  obtain ⟨read, digits, noPlus⟩ := digits_of_lexical lexical
  rw [Numeral.read?_eq hasDigit digits noPlus] at read
  rw [literal, read, denoted]
  by_cases small : Numeral.denoted t.digits.1 t.digits.2 < Word.count
  · rw [if_pos small, if_pos small]
    rfl
  · rw [if_neg small, if_neg small]
    rfl

end Token

/-! ## What words are written as -/

/-- The text has sixteen digits, which denote the word and read back as it. -/
structure Word.Written (v : Word) (hex : String) : Prop where
  length : hex.length = 16
  digits : ∀ c ∈ hex.toList, Piece.isHexDigit c = true
  denotes : Numeral.denoted 16 hex.toList = v.toNat
  reads : Word.ofHex? hex = some v

theorem Numeral.fixed_isHexDigit (count n : Nat) : (Numeral.fixed count n).length = count ∧
    ∀ c ∈ Numeral.fixed count n, Piece.isHexDigit c = true := by
  have isDigit : ∀ n < 16, Piece.isHexDigit (Numeral.hexDigit n) = true := by decide
  induction count generalizing n with
  | zero => exact ⟨rfl, by simp [Numeral.fixed]⟩
  | succ count ih =>
    rw [Numeral.fixed, List.length_append, (ih _).1, List.forall_mem_append]
    exact ⟨rfl, (ih _).2, List.forall_mem_singleton.2 (isDigit _ (Nat.mod_lt _ (by decide)))⟩

theorem Word.written_toHex (v : Word) : v.Written v.toHex := by
  have same : v.toHex.toList = Numeral.fixed 16 v.toNat := String.toList_ofList
  obtain ⟨length, digits⟩ := Numeral.fixed_isHexDigit 16 v.toNat
  rw [← same] at length digits
  have notLine : ∀ c ∈ v.toHex.toList, c ≠ '_' := by
    rintro c mem rfl
    exact absurd (digits _ mem) (by decide)
  refine ⟨String.length_toList ▸ length, digits, ?_, Word.ofHex?_toHex v⟩
  obtain ⟨c, mem⟩ := List.exists_mem_of_length_pos (length ▸ (by decide : 0 < 16))
  have read : Numeral.read? 16 Word.count _ = _ := Numeral.read?_eq ⟨c, mem, notLine c mem⟩
    (fun c mem => .inr (Numeral.digit?_eq (digits c mem)).1) rfl
  rw [List.filter_eq_self.2 fun c mem => bne_iff_ne.2 (notLine c mem)] at read
  have reads := Word.ofHex?_toHex v
  rw [Word.ofHex?, read] at reads
  split at reads
  · rename_i small
    have value := congrArg UInt64.toNat (Option.some.inj reads)
    rwa [UInt64.toNat_ofNat_of_lt' small] at value
  · cases reads

/-- The slot keeps the word, under the name that has its number in decimal digits. -/
structure SlotTable.Keeps (t : SlotTable) (v : Word) (s : Slot) : Prop where
  stored : s ∈ t.slots
  kind : s.kind = .constant
  asmName : s.asmName = "n" ++ toString v.toNat
  contents : ∃ hex, s.contents = some hex ∧ v.Written hex

/-- The line puts the word into a cell. -/
inductive Instr.Puts (t : SlotTable) (v : Word) (dest : String) : Instr → Prop
  | zero (isZero : v = 0) : Puts t v dest (.clear dest)
  | digits {hex : String} (written : v.Written hex) : Puts t v dest (.setLiteral dest hex)
  | kept {s : Slot} (keeps : t.Keeps v s) : Puts t v dest (.set dest s.asmName)

namespace SlotTable

variable {t : SlotTable} {v : Word} {s : Slot}

theorem keeps_of_interned? (found : t.interned? v = some s) : t.Keeps v s := by
  obtain ⟨stored, kind, asmName, contents⟩ := interned?_eq_some found
  exact ⟨stored, kind, asmName, _, contents, v.written_toHex⟩

/-- What is interned keeps the word. -/
theorem keeps_of_intern {ceiling : Nat} (found : (t.intern v ceiling).2 = some s) :
    (t.intern v ceiling).1.Keeps v s := by
  obtain ⟨stored, kind, asmName, contents⟩ := intern_some (Prod.ext rfl found)
  exact ⟨stored, kind, asmName, _, contents, v.written_toHex⟩

/-- A phrase that fixes contents takes the digits of the word from the line that loads it. -/
theorem constantLoad_of_puts (valid : t.Valid) (line : Nat) {i : Instr} {dest : String}
    (puts : i.Puts t v dest) : ∃ hex, v.Written hex ∧ t.constantLoad line i = .ok (dest, hex) := by
  cases puts with
  | zero isZero => exact ⟨_, isZero ▸ Word.written_toHex 0, rfl⟩
  | digits written => exact ⟨_, written, rfl⟩
  | @kept s keeps =>
    obtain ⟨hex, contents, written⟩ := keeps.contents
    have found := (find?_eq_some_iff valid.names).2 ⟨keeps.stored, rfl⟩
    refine ⟨hex, written, ?_⟩
    rw [constantLoad, found]
    simp [keeps.kind, contents]

end SlotTable

/-- The header says the digits of the words that are kept. -/
theorem Assembly.declaration_of_keeps {t : SlotTable} {v : Word} {s : Slot} (valid : t.Valid)
    (keeps : t.Keeps v s) :
    ∃ hex, v.Written hex ∧ declaration s = [.declare s.asmName, .constSet s.asmName hex] := by
  obtain ⟨hex, contents, written⟩ := keeps.contents
  have somewhere := (valid.address_lt keeps.stored (by simp [keeps.kind])).1
  refine ⟨hex, written, ?_⟩
  unfold declaration
  rw [if_neg (by omega), if_pos (.inr keeps.kind), contents]

namespace Codegen

variable {ctx : Context} {s : State}

/-- One line puts a literal into a cell. -/
theorem setLiteral_puts (dest : String) (v : Word) : (setLiteral dest v).Ends ctx s fun _ code s' =>
    ∃ i, code = [i] ∧ i.Puts s'.table v dest := by
  unfold setLiteral
  split
  · rename_i isZero
    exact .emit ⟨_, rfl, .zero isZero⟩
  · refine .bind (.of rfl ?_)
    split
    · rename_i kept found
      exact .emit ⟨_, rfl, .kept (SlotTable.keeps_of_interned? found)⟩
    · exact .emit ⟨_, rfl, .digits v.written_toHex⟩

/-- A literal becomes a constant that is kept, or one line puts it into a register. -/
theorem resolve_literal (valid : s.Valid) (v : Word) (line : Nat) :
    (resolve (.literal v) line).Ends ctx s fun o code s' =>
      code = [] ∧ s'.table.Keeps v o.slot ∨ ∃ i, code = [i] ∧ i.Puts s'.table v o.slot.asmName := by
  have same : resolve (.literal v) line = literal v line := by
    simp [resolve, Slot.literal, Slot.fresh, Slot.constant?]
  rw [same]
  refine .bind ((intern_ends valid v).mono ?_)
  rintro kept _ s₁ ⟨takes, rfl, found⟩
  cases kept with
  | some kept =>
    have keeps := SlotTable.keeps_of_intern (congrArg Prod.snd found)
    rw [found] at keeps
    exact .pure (.inl ⟨rfl, keeps⟩)
  | none =>
    refine .bind ((allocate_ends takes.valid).mono ?_)
    rintro r _ s₂ ⟨-, rfl, -⟩
    split
    · rename_i isZero
      exact .bind (.emit (.pure (.inr ⟨_, rfl, .zero isZero⟩)))
    · exact .bind (.emit (.pure (.inr ⟨_, rfl, .digits v.written_toHex⟩)))

end Codegen

/-! ## From the source to the output -/

/-- A literal node has the word as its value, and is folded under the two operators that only change the
bits of a number. -/
structure Word.Folds (v : Word) (digits : String) (line : Nat) : Prop where
  value : (Node.literal v line).literal? = some v
  bound : ∀ names, (Expr.number digits line).bind names = .ok (.literal v line)
  negated : ∀ names line', ∃ w : Word, w.toNat = (Word.count - v.toNat) % Word.count ∧
    (Expr.prefixed .negate line' (.number digits line)).bind names = .ok (.literal w line')
  complemented : ∀ names line', ∃ w : Word, w.toNat = Word.count - 1 - v.toNat ∧
    (Expr.prefixed .complement line' (.number digits line)).bind names = .ok (.literal w line')

theorem Token.folds {t : Token} {v : Word} (isNumber : t.kind = .number) (read : t.literal = .ok v) :
    v.Folds t.text t.line := by
  have same : t = ⟨.number, t.text, t.line⟩ := by rw [← isNumber]
  have bound : ∀ names, (Expr.number t.text t.line).bind names = .ok (.literal v t.line) := by
    intro names
    rw [Expr.bind, ← same, read]
    rfl
  refine ⟨Node.literal?_literal v t.line, bound, fun names line' => ⟨-v, UInt64.toNat_neg v, ?_⟩,
    fun names line' => ⟨~~~v, UInt64.toNat_not v, ?_⟩⟩
  · rw [Expr.bind, bound]
    exact congrArg Except.ok (by rw [Node.negated, Node.literal?_literal])
  · rw [Expr.bind, bound]
    exact congrArg Except.ok (by rw [Node.complemented, Node.literal?_literal])

/-- A literal goes through the backend as texts of sixteen digits that denote it. -/
structure Word.Carried (v : Word) : Prop where
  slot : ∃ hex, (Slot.literal v).contents = some hex ∧ v.Written hex
  interned : ∀ (t : SlotTable) (ceiling : Nat) (s : Slot), (t.intern v ceiling).2 = some s →
    (t.intern v ceiling).1.Keeps v s
  set : ∀ ctx s dest, (Codegen.setLiteral dest v).Ends ctx s fun _ code s' =>
    ∃ i, code = [i] ∧ i.Puts s'.table v dest
  resolved : ∀ ctx s line, s.Valid → (Codegen.resolve (.literal v) line).Ends ctx s fun o code s' =>
    code = [] ∧ s'.table.Keeps v o.slot ∨ ∃ i, code = [i] ∧ i.Puts s'.table v o.slot.asmName
  declared : ∀ (t : SlotTable) (s : Slot), t.Valid → t.Keeps v s →
    ∃ hex, v.Written hex ∧ Assembly.declaration s = [.declare s.asmName, .constSet s.asmName hex]
  fixed : ∀ (t : SlotTable) (line : Nat) (i : Instr) (dest : String), t.Valid → i.Puts t v dest →
    ∃ hex, v.Written hex ∧ t.constantLoad line i = .ok (dest, hex)

theorem Word.carried (v : Word) : v.Carried where
  slot := ⟨_, rfl, v.written_toHex⟩
  interned _ _ _ found := SlotTable.keeps_of_intern found
  set _ _ dest := Codegen.setLiteral_puts dest v
  resolved _ _ line valid := Codegen.resolve_literal valid v line
  declared _ _ valid keeps := Assembly.declaration_of_keeps valid keeps
  fixed _ line _ _ valid puts := SlotTable.constantLoad_of_puts valid line puts

/-- The digits that a line says. -/
def Instr.digits? : Instr → Option String
  | constSet _ hex | setLiteral _ hex => some hex
  | _ => none

theorem Instr.written_of_isLegible {i : Instr} {hex : String} (legible : i.isLegible = true)
    (said : i.digits? = some hex) : ∃ w : Word, w.Written hex := by
  have isText : Word.isText hex = true := by
    cases i <;> cases said <;> exact legible
  obtain ⟨w, rfl⟩ := Word.isText_iff.1 isText
  exact ⟨w, w.written_toHex⟩

/-- The numbers of a source keep their value. A number that has a digit is read as the word that its digits
denote, or refused at its line if there is none. The node of the word has it as its value, and folds. The
backend carries the word in sixteen digits that denote it, and all digits in the output of the source denote
words in this way. -/
theorem literals_keep_value {source : String} {tokens : List Token} {t : Token}
    (lexed : tokenize source = .ok tokens) (listed : t ∈ tokens) (isNumber : t.kind = .number)
    (hasDigit : ∃ c ∈ t.digits.2, c ≠ '_') :
    (t.literal = if t.denoted < Word.count then .ok (UInt64.ofNat t.denoted)
      else .error (.shortage t.line .literalWidth)) ∧
    (∀ v, t.literal = .ok v → v.toNat = t.denoted ∧ v.Folds t.text t.line ∧ v.Carried) ∧
    ∀ settings randomId c a, Contract.read source settings = .ok c →
      Assembly.ofProgram c.program c.layout c.settings randomId = .ok a →
      ∀ i ∈ a.lines, ∀ hex, i.digits? = some hex → ∃ w : Word, w.Written hex := by
  have lexical : TokenKind.number.Lexical t.text.toList := by
    rw [← isNumber]
    exact (tokenize_lexical source tokens lexed t listed).1 (by simp [isNumber])
  have literal := Token.literal_eq lexical hasDigit
  refine ⟨literal, fun v read => ⟨?_, t.folds isNumber read, v.carried⟩, ?_⟩
  · rw [literal] at read
    split at read
    · rename_i small
      cases read
      exact UInt64.toNat_ofNat_of_lt' small
    · cases read
  · intro settings randomId c a isContract assembled i isLine hex said
    rcases Contract.lines_legible isContract assembled i isLine with isFact | legible
    · obtain ⟨key, value, rfl⟩ := Assembly.eq_of_mem_facts isFact
      cases said
    · exact Instr.written_of_isLegible legible said

namespace Sample

/-- A number in base sixteen, and one that is too large by one. -/
def numbers : String := "0xfF_fF\n18_446744073709551616"

def numberTokens : List Token :=
  [⟨.number, "0xfF_fF", 1⟩, ⟨.number, "18_446744073709551616", 2⟩]

end Sample

theorem literals_keep_value_numbers : tokenize Sample.numbers = .ok Sample.numberTokens ∧
    Token.literal ⟨.number, "0xfF_fF", 1⟩ = .ok 65535 ∧ (65535 : Word).Folds "0xfF_fF" 1 ∧
    (65535 : Word).Carried ∧
    Token.literal ⟨.number, "18_446744073709551616", 2⟩ = .error (.shortage 2 .literalWidth) := by
  have lexed : tokenize Sample.numbers = .ok Sample.numberTokens := by decide
  have first := literals_keep_value lexed List.mem_cons_self rfl ⟨'f', by decide⟩
  have second := literals_keep_value lexed (List.mem_cons_of_mem _ List.mem_cons_self) rfl ⟨'1', by decide⟩
  have small : Token.denoted ⟨.number, "0xfF_fF", 1⟩ = 65535 := by decide
  have large : ¬ Token.denoted ⟨.number, "18_446744073709551616", 2⟩ < Word.count := by decide
  have read := first.1
  rw [small] at read
  have carried := first.2.1 65535 read
  exact ⟨lexed, read, carried.2.1, carried.2.2, second.1.trans (if_neg large)⟩

end ContractCompiler
