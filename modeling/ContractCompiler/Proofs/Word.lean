import ContractCompiler.Word

/-!
# Proofs.Word — the text of a word reads back as the word

A word is written with sixteen hexadecimal digits, and `Word.ofHex?` reads them back
(`ofHex?_toHex`). So what an instruction or a directive says in digits is the word it was written
for, and different words have different texts.
-/

namespace ContractCompiler

set_option autoImplicit false

namespace Numeral

/-- How many numbers have a numeral of that many hexadecimal digits. -/
def span : Nat → Nat
  | 0 => 1
  | count + 1 => 16 * span count

theorem digit?_hexDigit : ∀ n < 16, digit? 16 (hexDigit n) = some n := by
  decide

/-- Digits that stand before others are read first. -/
theorem digitsFrom?_append (base n : Nat) (cs rest : List Char) :
    digitsFrom? base n (cs ++ rest) = (digitsFrom? base n cs).bind (digitsFrom? base · rest) := by
  induction cs generalizing n with
  | nil => rfl
  | cons c cs ih =>
    simp only [List.cons_append, digitsFrom?]
    cases digit? base c with
    | none => rfl
    | some d => exact ih _

theorem digitsFrom?_fixed (count n : Nat) :
    digitsFrom? 16 0 (fixed count n) = some (n % span count) := by
  induction count generalizing n with
  | zero => simp [fixed, digitsFrom?, span, Nat.mod_one]
  | succ count ih =>
    have low : n % 16 < 16 := Nat.mod_lt _ (by decide)
    have split : n / 16 % span count * 16 + n % 16 = n % (16 * span count) := by
      rw [Nat.mod_mul]
      omega
    simp [fixed, digitsFrom?_append, ih, digitsFrom?, digit?_hexDigit _ low, span, split]

/-- A number in decimal digits reads back. -/
theorem digitsFrom?_toDigits (n : Nat) : digitsFrom? 10 0 (Nat.toDigits 10 n) = some n := by
  have read : ∀ d < 10, digit? 10 (Nat.digitChar d) = some d := by decide
  induction n using Nat.strongRecOn with
  | ind n ih =>
    by_cases small : n < 10
    · simp [Nat.toDigits_of_lt_base small, digitsFrom?, read n small]
    · have low : n % 10 < 10 := Nat.mod_lt _ (by decide)
      have split : n / 10 * 10 + n % 10 = n := by omega
      rw [Nat.toDigits_of_base_le (by decide) (Nat.le_of_not_lt small), digitsFrom?_append,
        ih (n / 10) (by omega)]
      simp [digitsFrom?, read _ low, split]

theorem isDigit_of_mem_toString {n : Nat} {c : Char} (mem : c ∈ (toString n).toList) : c.isDigit = true := by
  have mem : c ∈ Nat.toDigits 10 n := by simpa using mem
  exact Nat.isDigit_of_mem_toDigits (by decide) (by decide) mem

theorem toString_inj {m n : Nat} (same : toString m = toString n) : m = n := by
  have digits : Nat.toDigits 10 m = Nat.toDigits 10 n := by
    simpa using congrArg String.toList same
  simpa [digitsFrom?_toDigits] using congrArg (digitsFrom? 10 0) digits

/-- No digit is a plus sign, so that the digits of a word are read as they stand. -/
theorem hexDigit_ne_plus : ∀ n < 16, hexDigit n ≠ '+' := by
  decide

theorem fixed_ne_plus (count n : Nat) (rest : List Char) : fixed count n ≠ '+' :: rest := by
  induction count generalizing n rest with
  | zero => simp [fixed]
  | succ count ih =>
    intro starts
    rw [fixed] at starts
    cases digits : fixed count (n / 16) with
    | nil =>
      rw [digits] at starts
      exact hexDigit_ne_plus _ (Nat.mod_lt _ (by decide)) (List.cons.inj starts).1
    | cons c cs =>
      rw [digits] at starts
      exact ih _ cs (digits.trans (by rw [(List.cons.inj starts).1]))

theorem read?_fixed (count bound n : Nat) (small : n < span (count + 1)) (below : n < bound) :
    read? 16 bound (fixed (count + 1) n) = some n := by
  have whole : digitsFrom? 16 0 (fixed (count + 1) n) = some n := by
    rw [digitsFrom?_fixed, Nat.mod_eq_of_lt small]
  unfold read?
  split
  · rename_i rest starts
    exact absurd starts (fixed_ne_plus _ _ _)
  · cases digits : fixed (count + 1) n with
    | nil => simp [fixed] at digits
    | cons c cs =>
      rw [digits] at whole
      simp [digits?, whole, below]

end Numeral

namespace Word

/-- Reading what was written for a word gives the word. -/
@[simp] theorem ofHex?_toHex (w : Word) : ofHex? w.toHex = some w := by
  have below : w.toNat < count := w.toNat_lt
  have read : Numeral.read? 16 count (Numeral.fixed 16 w.toNat) = some w.toNat :=
    Numeral.read?_fixed 15 count w.toNat below below
  simp [ofHex?, toHex, read]

/-- The text is that of a word. -/
def isText (text : String) : Bool := (ofHex? text).map toHex == some text

@[simp] theorem isText_toHex (w : Word) : isText w.toHex = true := by
  simp [isText]

theorem isText_iff {text : String} : isText text = true ↔ ∃ w, text = toHex w := by
  constructor
  · intro isText
    obtain ⟨w, -, same⟩ := Option.map_eq_some_iff.1 (beq_iff_eq.1 isText)
    exact ⟨w, same.symm⟩
  · rintro ⟨w, rfl⟩
    exact isText_toHex w

end Word

end ContractCompiler
