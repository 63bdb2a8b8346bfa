/-!
# Text.Blank — white space, and the words between it

White space is the Unicode class `White_Space`: the five controls from tab to carriage return, the
space, next line, the no-break space and the wider spaces and separators.
-/

namespace ContractCompiler.Text

set_option autoImplicit false

/-- A character of the class `White_Space`. -/
def isBlank (c : Char) : Bool :=
  let n := c.toNat
  (9 ≤ n && n ≤ 13) || n == 0x20 || n == 0x85 || n == 0xa0 || n == 0x1680 ||
    (0x2000 ≤ n && n ≤ 0x200a) || n == 0x2028 || n == 0x2029 || n == 0x202f || n == 0x205f ||
    n == 0x3000

def trimRight (cs : List Char) : List Char :=
  (cs.reverse.dropWhile isBlank).reverse

def trim (cs : List Char) : List Char :=
  trimRight (cs.dropWhile isBlank)

/-- The first word and what follows it, trimmed. The word ends at the first white space, so a text
that begins with white space has an empty first word. -/
def firstWord (cs : List Char) : List Char × List Char :=
  (cs.takeWhile (!isBlank ·), trim (cs.dropWhile (!isBlank ·)))

end ContractCompiler.Text
