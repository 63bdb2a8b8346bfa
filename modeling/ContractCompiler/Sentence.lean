import ContractCompiler.Token

/-!
# Sentence — a contract before its expressions are read

Sentences fix the shape of a contract: its blocks, loops and declarations. Phrases, conditions and
initial values are still runs of tokens.
-/

namespace ContractCompiler

set_option autoImplicit false

inductive TypeName where
  | long
  | void
  | struct (tag : String)
  deriving DecidableEq, Repr

/-- One declared name: `name`, `*name`, `name[size]`, each with or without an initial value. -/
structure Declarator where
  name : String
  pointer : Bool
  array : Option Nat
  init : Option (List Token)
  line : Nat
  deriving DecidableEq, Repr

structure Declaration where
  type : TypeName
  isConst : Bool
  declarators : List Declarator
  line : Nat
  deriving DecidableEq, Repr

inductive Sentence where
  | phrase (line : Nat) (isConst : Bool) (code : List Token)
  | ifThen (line : Nat) (condition : List Token) (yes : List Sentence)
  | ifElse (line : Nat) (condition : List Token) (yes no : List Sentence)
  | whileLoop (line : Nat) (condition : List Token) (body : List Sentence)
  | doLoop (line : Nat) (condition : List Token) (body : List Sentence)
  | forLoop (line : Nat) (init condition step : List Token) (body : List Sentence)
  | block (body : List Sentence)
  | declaration (declaration : Declaration)

/-- The sentences that a sentence stands for as the body of another: a block is opened. -/
def Sentence.toBody : Sentence → List Sentence
  | block body => body
  | sentence => [sentence]

structure StructDef where
  tag : String
  members : List Declarator
  line : Nat
  deriving DecidableEq, Repr

structure Param where
  type : TypeName
  pointer : Bool
  name : String
  line : Nat
  deriving DecidableEq, Repr

structure FunctionDef where
  name : String
  returns : TypeName
  returnsPointer : Bool
  params : List Param
  body : List Sentence
  line : Nat

/-- A whole contract. Each list keeps the order of the source. -/
structure Program where
  structs : List StructDef
  globals : List Sentence
  functions : List FunctionDef

end ContractCompiler
