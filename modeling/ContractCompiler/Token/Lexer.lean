import ContractCompiler.Error
import ContractCompiler.Text.Blank
import ContractCompiler.Text.Identifier
import ContractCompiler.Token

/-!
# Token.Lexer — from text to tokens

The text is cut from the left into pieces: white space, comments and tokens. `Piece.next?` takes one
piece off the front and never takes nothing, so `Cut.ofText` ends with fuel equal to the length of
the text. The tokens are the pieces that are no white space and no comment, each at the line that
its first character stands on.

A comment opener that is never closed does not begin a comment, so it is read as two punctuation
marks; but if the text can not be cut to its end after one, the report is that the text ended.
-/

namespace ContractCompiler

set_option autoImplicit false

/-- One stretch of the text. A directive's stretch includes its `#` and its line continuations. -/
inductive Piece where
  | blank (text : List Char)
  | lineComment (text : List Char)
  | blockComment (text : List Char)
  | directive (text : List Char)
  | word (text : List Char)
  | number (text : List Char)
  | punct (text : List Char)
  deriving DecidableEq, Repr

namespace Piece

def text : Piece → List Char
  | blank cs => cs
  | lineComment cs => cs
  | blockComment cs => cs
  | directive cs => cs
  | word cs => cs
  | number cs => cs
  | punct cs => cs

/-- The marks of more than one character, such that no mark stands after one of its own
beginnings. -/
def longMarks : List (List Char) :=
  [['<', '<', '='], ['>', '>', '='], ['-', '>'], ['+', '+'], ['-', '-'], ['<', '<'], ['>', '>'],
    ['<', '='], ['>', '='], ['=', '='], ['!', '='], ['&', '&'], ['|', '|'], ['+', '='], ['-', '='],
    ['*', '='], ['/', '='], ['%', '='], ['&', '='], ['|', '='], ['^', '=']]

/-- The marks of one character. -/
def shortMarks : List Char :=
  ['+', '-', '*', '/', '%', '&', '|', '^', '~', '!', '<', '>', '=', '?', ':', ';', ',', '.', '(',
    ')', '[', ']', '{', '}']

def isDecimalDigit (c : Char) : Bool := '0' ≤ c && c ≤ '9'

def isHexDigit (c : Char) : Bool :=
  isDecimalDigit c || ('a' ≤ c && c ≤ 'f') || ('A' ≤ c && c ≤ 'F')

/-- The text up to and including the first comment closer, and the text after it. -/
def closeComment? : List Char → Option (List Char × List Char)
  | [] => none
  | '*' :: '/' :: rest => some (['*', '/'], rest)
  | c :: rest => (closeComment? rest).map fun (inside, after) => (c :: inside, after)

/-- The rest of a directive: up to a line end that no backslash continues. -/
def directiveBody : List Char → List Char × List Char
  | [] => ([], [])
  | '\\' :: '\r' :: '\n' :: rest =>
    let (body, after) := directiveBody rest
    ('\\' :: '\r' :: '\n' :: body, after)
  | '\\' :: '\n' :: rest =>
    let (body, after) := directiveBody rest
    ('\\' :: '\n' :: body, after)
  | c :: rest =>
    if c = '\n' then ([], c :: rest)
    else
      let (body, after) := directiveBody rest
      (c :: body, after)

/-- The text of a directive without its line continuations. -/
def joinLines : List Char → List Char
  | [] => []
  | '\\' :: '\r' :: '\n' :: rest => joinLines rest
  | '\\' :: '\n' :: rest => joinLines rest
  | c :: rest => c :: joinLines rest

/-- A hexadecimal or decimal number at the front of the text. Underscores may separate digits, and
a hexadecimal number may consist of them. -/
def number? (cs : List Char) : Option (List Char × List Char) :=
  let isHexRest c := isHexDigit c || c == '_'
  let isDecimalRest c := isDecimalDigit c || c == '_'
  let decimal :=
    match cs with
    | c :: rest =>
      if isDecimalDigit c then some (c :: rest.takeWhile isDecimalRest, rest.dropWhile isDecimalRest)
      else none
    | [] => none
  match cs with
  | '0' :: x :: rest =>
    if (x == 'x' || x == 'X') && rest.head?.any isHexRest then
      some ('0' :: x :: rest.takeWhile isHexRest, rest.dropWhile isHexRest)
    else decimal
  | _ => decimal

/-- A punctuation mark at the front of the text, the longest first. -/
def mark? (cs : List Char) : Option (List Char × List Char) :=
  match longMarks.find? (·.isPrefixOf cs) with
  | some mark => some (mark, cs.drop mark.length)
  | none =>
    match cs with
    | c :: rest => if shortMarks.contains c then some ([c], rest) else none
    | [] => none

/-- A token at the front of the text. -/
def token? : List Char → Option (Piece × List Char)
  | [] => none
  | c :: rest =>
    if c = '#' then
      let (body, after) := directiveBody rest
      some (directive (c :: body), after)
    else
      match number? (c :: rest) with
      | some (digits, after) => some (number digits, after)
      | none =>
        if Text.isNameStart c then
          some (word (c :: rest.takeWhile Text.isNameRest), rest.dropWhile Text.isNameRest)
        else (mark? (c :: rest)).map fun (mark, after) => (punct mark, after)

/-- The piece at the front of the text, if any begins there, and the text after it. -/
def next? (cs : List Char) : Option (Piece × List Char) :=
  match cs with
  | [] => none
  | c :: rest =>
    if Text.isBlank c then
      some (blank (c :: rest.takeWhile Text.isBlank), rest.dropWhile Text.isBlank)
    else
      match c, rest with
      | '/', '/' :: after =>
        some (lineComment ('/' :: '/' :: after.takeWhile (· != '\n')), after.dropWhile (· != '\n'))
      | '/', '*' :: after =>
        match closeComment? after with
        | some (inside, beyond) => some (blockComment ('/' :: '*' :: inside), beyond)
        | none => token? cs
      | _, _ => token? cs

/-- The line ends inside a piece. -/
def lineEnds (p : Piece) : Nat := p.text.count '\n'

/-- The token that a piece beginning at `line` stands for. -/
def toToken? (line : Nat) : Piece → Option Token
  | blank _ => none
  | lineComment _ => none
  | blockComment _ => none
  | directive cs => some ⟨.directive, String.ofList (Text.trimRight (joinLines (cs.drop 1))), line⟩
  | word cs =>
    let text := String.ofList cs
    some ⟨if keywords.contains text then .keyword else .identifier, text, line⟩
  | number cs => some ⟨.number, String.ofList cs, line⟩
  | punct cs => some ⟨.punct, String.ofList cs, line⟩

/-- The tokens among pieces of which the first begins at `line`. -/
def tokensFrom : Nat → List Piece → List Token
  | _, [] => []
  | line, p :: rest =>
    match p.toToken? line with
    | some t => t :: tokensFrom (line + p.lineEnds) rest
    | none => tokensFrom (line + p.lineEnds) rest

end Piece

/-- A text cut into pieces as far as possible. -/
structure Cut where
  pieces : List Piece
  /-- What could not be cut; empty when the whole text could. -/
  rest : List Char
  /-- A comment was opened and never closed. -/
  openComment : Bool
  deriving DecidableEq, Repr

namespace Cut

/-- A comment begins here and is never closed. -/
def opensUnclosed : List Char → Bool
  | '/' :: '*' :: rest => (Piece.closeComment? rest).isNone
  | _ => false

/-- Cuts at most as many pieces as the first argument says. -/
def ofTextAux : Nat → List Char → Cut
  | 0, cs => ⟨[], cs, false⟩
  | fuel + 1, cs =>
    match Piece.next? cs with
    | none => ⟨[], cs, false⟩
    | some (piece, after) =>
      let cut := ofTextAux fuel after
      { cut with
        pieces := piece :: cut.pieces
        openComment := opensUnclosed cs || cut.openComment }

def ofText (cs : List Char) : Cut := ofTextAux cs.length cs

end Cut

/-- The line, counted from one, that follows a text. -/
def lineAfter (cs : List Char) : Nat := 1 + cs.count '\n'

/-- The tokens of a source text. -/
def tokenize (source : String) : Outcome (List Token) :=
  let cs := source.toList
  let cut := Cut.ofText cs
  match cut.rest with
  | [] => .ok (Piece.tokensFrom 1 cut.pieces)
  | c :: rest =>
    if cut.openComment then .error (.malformed (lineAfter cs) .endOfText)
    else
      let before := cs.take (cs.length - (c :: rest).length)
      .error (.malformed (lineAfter before) (.invalidCharacter c))

end ContractCompiler
