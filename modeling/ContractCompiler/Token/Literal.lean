import ContractCompiler.Error
import ContractCompiler.Token
import ContractCompiler.Word

/-!
# Token.Literal — the value of a number token

Underscores separate digits and mean nothing. A leading `0x` or `0X` makes the rest hexadecimal.
-/

namespace ContractCompiler

set_option autoImplicit false

/-- The word that the text of a number denotes, if it fits. -/
def literal? (text : String) : Option Word :=
  let value :=
    match text.toList.filter (· != '_') with
    | '0' :: 'x' :: digits => Numeral.read? 16 Word.count digits
    | '0' :: 'X' :: digits => Numeral.read? 16 Word.count digits
    | digits => Numeral.read? 10 Word.count digits
  value.map UInt64.ofNat

def Token.literal (t : Token) : Outcome Word :=
  match literal? t.text with
  | some value => .ok value
  | none => .error (.shortage t.line .literalWidth)

end ContractCompiler
