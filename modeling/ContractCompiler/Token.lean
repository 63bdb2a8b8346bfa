/-!
# Token — the words of the language

A token keeps its text as written and the line it begins on. A directive is a whole line and is one
token, whose text leaves out the leading `#`.
-/

namespace ContractCompiler

set_option autoImplicit false

inductive TokenKind where
  | identifier
  | keyword
  | number
  | punct
  | directive
  deriving DecidableEq, Repr

structure Token where
  kind : TokenKind
  text : String
  line : Nat
  deriving DecidableEq, Repr

/-- The words that can not be names. -/
def keywords : List String :=
  ["long", "void", "const", "struct", "if", "else", "while", "do", "for", "return", "break",
    "continue", "exit", "halt", "sleep"]

namespace Token

def isPunct (t : Token) (symbol : String) : Bool :=
  t.kind == .punct && t.text == symbol

def isKeyword (t : Token) (word : String) : Bool :=
  t.kind == .keyword && t.text == word

def isIdentifier (t : Token) : Bool :=
  t.kind == .identifier

def isNumber (t : Token) : Bool :=
  t.kind == .number

def isOneOf (t : Token) (symbols : List String) : Bool :=
  t.kind == .punct && symbols.contains t.text

end Token

end ContractCompiler
