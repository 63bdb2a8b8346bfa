/-!
# Numeral — numbers written in a base

A numeral is one or more digits, after an optional plus sign, whose value stays below a bound.
`Numeral.fixed` writes a number with a fixed count of hexadecimal digits.
-/

namespace ContractCompiler.Numeral

set_option autoImplicit false

/-- The value of a digit; letters of either case continue after `9`. -/
def digit? (base : Nat) (c : Char) : Option Nat :=
  let n := c.toNat
  let value :=
    if '0' ≤ c ∧ c ≤ '9' then some (n - 48)
    else if 'a' ≤ c ∧ c ≤ 'z' then some (n - 87)
    else if 'A' ≤ c ∧ c ≤ 'Z' then some (n - 55)
    else none
  value.filter (· < base)

/-- The number that the digits continue, given the number before them. -/
def digitsFrom? (base : Nat) : Nat → List Char → Option Nat
  | n, [] => some n
  | n, c :: rest => (digit? base c).bind fun d => digitsFrom? base (n * base + d) rest

/-- The value of one or more digits. -/
def digits? (base : Nat) : List Char → Option Nat
  | [] => none
  | c :: rest => digitsFrom? base 0 (c :: rest)

/-- Reads a numeral whose value is below `bound`. -/
def read? (base bound : Nat) (cs : List Char) : Option Nat :=
  let digits :=
    match cs with
    | '+' :: rest => rest
    | _ => cs
  (digits? base digits).filter (· < bound)

/-- The digit that stands for a number below sixteen. -/
def hexDigit (n : Nat) : Char :=
  if n < 10 then Char.ofNat (48 + n) else Char.ofNat (87 + n)

/-- The last `count` hexadecimal digits of a number, the most significant first. -/
def fixed : Nat → Nat → List Char
  | 0, _ => []
  | count + 1, n => fixed count (n / 16) ++ [hexDigit (n % 16)]

end ContractCompiler.Numeral
