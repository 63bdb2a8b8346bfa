import ContractCompiler.Numeral

/-!
# Word — the machine's 64-bit values and their hexadecimal text

A word is written with sixteen lower-case digits. Reading accepts any numeral in base sixteen below
2^64, so that writing and reading back gives the word again.
-/

namespace ContractCompiler

set_option autoImplicit false

/-- A value of the machine. Arithmetic on words wraps. -/
abbrev Word := UInt64

namespace Word

/-- The number of words, 2^64. -/
def count : Nat := 18446744073709551616

def toHex (w : Word) : String := String.ofList (Numeral.fixed 16 w.toNat)

def ofHex? (text : String) : Option Word :=
  (Numeral.read? 16 count text.toList).map UInt64.ofNat

def ofDecimal? (text : String) : Option Word :=
  (Numeral.read? 10 count text.toList).map UInt64.ofNat

/-- The word read as a signed number. -/
def toSigned (w : Word) : Int := w.toInt64.toInt

end Word

end ContractCompiler
