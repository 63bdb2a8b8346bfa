import ContractCompiler.Error
import ContractCompiler.Parser
import ContractCompiler.Sentence
import ContractCompiler.Word

/-!
# Sentence.Parser — from tokens to sentences

A run of tokens is a stretch with balanced parentheses and without `;`, `{` and `}`. Everything that
is no block, no control sentence and no declaration is read as a phrase if it ends with a semicolon,
so that many mistakes are only found when the phrase itself is read.

Each level of `Sentence.parser` takes a token before it descends, so that fuel above the number of
tokens never runs out.
-/

namespace ContractCompiler

set_option autoImplicit false

namespace Token

/-- A mark that never stands inside a run, or only in pairs. -/
def isDelimiter (t : Token) : Bool := t.isOneOf ["(", ")", ";", "\x7b", "\x7d"]

/-- What taking a run leads to. -/
structure Run where
  tokens : List Token
  rest : List Token
  /-- How many tokens were left where the scan stopped; fewer than in `rest` after a parenthesis that
  is not closed. -/
  left : Nat

/-- Takes a run inside `depth` open parentheses. Outside of them it ends before a delimiter, before a
token that satisfies `stop`, and before a parenthesis that is not closed. Inside of them it fails,
with the number of tokens left, if they are not all closed. -/
def runFrom (stop : Token → Bool) : Nat → List Token → Except Nat Run
  | 0, [] => .ok ⟨[], [], 0⟩
  | _ + 1, [] => .error 0
  | 0, t :: rest =>
    let here : Run := ⟨[], t :: rest, rest.length + 1⟩
    if t.isPunct "(" then
      match runFrom stop 1 rest with
      | .ok run => .ok { run with tokens := t :: run.tokens }
      | .error left => .ok { here with left := left }
    else if t.isDelimiter || stop t then .ok here
    else
      match runFrom stop 0 rest with
      | .ok run => .ok { run with tokens := t :: run.tokens }
      | .error left => .ok { here with left := left }
  | depth + 1, t :: rest =>
    let deeper := if t.isPunct "(" then depth + 2 else if t.isPunct ")" then depth else depth + 1
    if t.isDelimiter && !t.isPunct "(" && !t.isPunct ")" then .error (rest.length + 1)
    else
      match runFrom stop deeper rest with
      | .ok run => .ok { run with tokens := t :: run.tokens }
      | .error left => .error left

end Token

namespace Sentence

/-- A run of tokens that ends before a token that satisfies `stop`. -/
def runParser (stop : Token → Bool) : Parser (List Token) := fun ts =>
  match Token.runFrom stop 0 ts with
  | .ok run => ⟨some (run.tokens, run.rest), some ⟨run.left, false⟩⟩
  | .error left => ⟨none, some ⟨left, false⟩⟩

def run : Parser (List Token) := runParser fun _ => false

/-- A type and the line it begins on. -/
def typeParser : Parser (TypeName × Nat) :=
  Parser.choice
    [do
      let word ← Parser.keyword "long"
      return (.long, word.line),
    do
      let word ← Parser.keyword "void"
      return (.void, word.line),
    do
      let word ← Parser.keyword "struct"
      let tag ← Parser.identifier
      return (.struct tag.text, word.line)]

/-- A number that can be the size of an array: decimal, and a word. -/
def sizeParser : Parser Nat
  | [] => Parser.fail []
  | t :: rest =>
    if t.isNumber then
      match Numeral.read? 10 Word.count (t.text.toList.filter (· != '_')) with
      | some size => ⟨some (size, rest), none⟩
      | none => Parser.failSize (t :: rest)
    else Parser.fail (t :: rest)

def declaratorParser : Parser Declarator := do
  let star ← Parser.option (Parser.punct "*")
  let name ← Parser.identifier
  let array ← Parser.option (Parser.between "[" "]" sizeParser)
  let init ← Parser.option do
    let _ ← Parser.punct "="
    runParser (·.isPunct ",")
  return ⟨name.text, star.isSome, array, init, name.line⟩

def declarationParser : Parser Declaration := do
  let const ← Parser.option (Parser.keyword "const")
  let (type, line) ← typeParser
  let declarators ← Parser.sepBy1 declaratorParser (Parser.punct ",")
  let _ ← Parser.punct ";"
  return ⟨type, const.isSome, declarators, line⟩

/-- The tokens between a pair of parentheses. -/
def conditionParser : Parser (List Token) := Parser.between "(" ")" run

/-- A phrase after the word `const`. -/
def constPhraseParser : Parser Sentence := do
  let word ← Parser.keyword "const"
  let code ← run
  let _ ← Parser.punct ";"
  return phrase word.line true code

def phraseParser : Parser Sentence := do
  let code ← run
  let semicolon ← Parser.punct ";"
  return phrase ((code.head?.getD semicolon).line) false code

section Parts

variable (inner : Parser Sentence)

/-- Sentences between braces. -/
def blockParser : Parser (List Sentence) := Parser.between "\x7b" "\x7d" (Parser.many inner)

/-- The body of a sentence: a block or one sentence. -/
def bodyParser : Parser (List Sentence) := do return (← inner).toBody

def ifParser : Parser Sentence := do
  let word ← Parser.keyword "if"
  let condition ← conditionParser
  let yes ← bodyParser inner
  let no ← Parser.option do
    let _ ← Parser.keyword "else"
    bodyParser inner
  match no with
  | none => return ifThen word.line condition yes
  | some no => return ifElse word.line condition yes no

def whileParser : Parser Sentence := do
  let word ← Parser.keyword "while"
  let condition ← conditionParser
  let body ← bodyParser inner
  return whileLoop word.line condition body

/-- A loop tested at its end; its line is that of the test. -/
def doParser : Parser Sentence := do
  let _ ← Parser.keyword "do"
  let body ← bodyParser inner
  let word ← Parser.keyword "while"
  let condition ← conditionParser
  let _ ← Parser.punct ";"
  return doLoop word.line condition body

def forParser : Parser Sentence := do
  let word ← Parser.keyword "for"
  let _ ← Parser.punct "("
  let init ← run
  let _ ← Parser.punct ";"
  let condition ← run
  let _ ← Parser.punct ";"
  let step ← run
  let _ ← Parser.punct ")"
  let body ← bodyParser inner
  return forLoop word.line init condition step body

end Parts

/-- A sentence nested no deeper than the argument says. -/
def parser : Nat → Parser Sentence
  | 0 => Parser.fail
  | fuel + 1 =>
    let inner := parser fuel
    Parser.choice
      [do return block (← blockParser inner),
        ifParser inner, whileParser inner, doParser inner, forParser inner,
        do return declaration (← declarationParser),
        constPhraseParser, phraseParser]

end Sentence

/-- A member list: `long a, *b;`. -/
def StructDef.membersParser : Parser (List Declarator) := do
  let _ ← Parser.keyword "long"
  let members ← Parser.sepBy1 Sentence.declaratorParser (Parser.punct ",")
  let _ ← Parser.punct ";"
  return members

def StructDef.parser : Parser StructDef := do
  let _ ← Parser.keyword "struct"
  let tag ← Parser.identifier
  let members ← Parser.between "\x7b" "\x7d" (Parser.many StructDef.membersParser)
  let _ ← Parser.punct ";"
  return ⟨tag.text, members.flatten, tag.line⟩

def Param.parser : Parser Param := do
  let (type, _) ← Sentence.typeParser
  let star ← Parser.option (Parser.punct "*")
  let name ← Parser.identifier
  return ⟨type, star.isSome, name.text, name.line⟩

/-- The parameters in parentheses; the word `void` alone stands for none. -/
def Param.listParser : Parser (List Param) :=
  Parser.between "(" ")" <|
    Parser.orElse
      (do
        let _ ← Parser.keyword "void"
        return [])
      (Parser.sepBy Param.parser (Parser.punct ","))

def FunctionDef.parser (sentence : Parser Sentence) : Parser FunctionDef := do
  let (returns, line) ← Sentence.typeParser
  let star ← Parser.option (Parser.punct "*")
  let name ← Parser.identifier
  let params ← Param.listParser
  let body ← Sentence.blockParser sentence
  return ⟨name.text, returns, star.isSome, params, body, line⟩

/-- One of the things that a contract is a sequence of. -/
inductive Item where
  | struct (struct : StructDef)
  | function (function : FunctionDef)
  | sentence (sentence : Sentence)

namespace Item

def parser (fuel : Nat) : Parser Item :=
  Parser.choice
    [do return struct (← StructDef.parser),
      do return function (← FunctionDef.parser (Sentence.parser fuel)),
      do return sentence (← Sentence.parser fuel)]

def struct? : Item → Option StructDef
  | struct s => some s
  | _ => none

def function? : Item → Option FunctionDef
  | function f => some f
  | _ => none

def sentence? : Item → Option Sentence
  | sentence s => some s
  | _ => none

end Item

namespace Program

/-- The report of tokens that are no contract: the token that does not fit, at its line, or the end
of the source, at the line of the failure. -/
def unreadable (tokens : List Token) (f : Failure) : CompileError :=
  let lastLine := (tokens.getLast?.map (·.line)).getD 1
  let here := (tokens.drop (tokens.length - f.left)).head?
  let line := (here.map (·.line)).getD lastLine
  match f.found? tokens with
  | some t => .malformed line (.unexpected t.text)
  | none => .malformed line .unfinishedSource

def ofTokens (tokens : List Token) : Outcome Program :=
  match (Parser.many (Item.parser (tokens.length + 1))).run tokens with
  | .ok items =>
    .ok ⟨items.filterMap Item.struct?, items.filterMap Item.sentence?,
      items.filterMap Item.function?⟩
  | .error f => .error (unreadable tokens f)

end Program

end ContractCompiler
