import ContractCompiler.Settings

/-!
# LabelId — what tells labels apart

A label carries the number of labels made so far, alone or after the source line, or five letters and
digits. The letters and digits come from a supply that should give different ones for different
numbers; `scrambled` is such a supply for up to 62^5 labels.
-/

namespace ContractCompiler.LabelId

set_option autoImplicit false

/-- The digits of base 62: ten digits, then the capital letters, then the small ones. -/
def digit (n : Nat) : Char :=
  if n < 10 then Char.ofNat (48 + n)
  else if n < 36 then Char.ofNat (55 + n)
  else Char.ofNat (61 + n)

/-- The last `count` digits of a number in base 62. -/
def digits : Nat → Nat → List Char
  | 0, _ => []
  | count + 1, n => digits count (n / 62) ++ [digit (n % 62)]

/-- How many labels five letters and digits tell apart, 62^5. -/
def count : Nat := 916132832

def scrambled (seed ordinal : Nat) : String := String.ofList (digits 5 (seed + ordinal))

/-- What a label for that source line and of that number carries. -/
def ofSettings (s : Settings) (randomId : Nat → String) (line ordinal : Nat) : String :=
  if s.enableRandom then randomId ordinal
  else if s.enableLineLabels then toString line ++ "_" ++ toString ordinal
  else toString ordinal

end ContractCompiler.LabelId
