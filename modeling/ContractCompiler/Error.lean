/-!
# Error — why a contract is refused

Every refusal is a fault at a source line. Faults come in four classes: text that is malformed, code
that misuses the language, a bounded resource that ran out, and a defect, which no contract should
be able to cause. The wording of a fault is in `Fault.text`, and nowhere else.
-/

namespace ContractCompiler

set_option autoImplicit false

/-- Text that is not a sequence of tokens, or tokens that do not form the language. -/
inductive Malformed where
  | invalidCharacter (c : Char)
  /-- The text ends inside a comment. -/
  | endOfText
  | unexpected (text : String)
  /-- The tokens end inside a sentence. -/
  | unfinishedSource
  | incompleteAfter (text : String)
  | emptyCondition
  | sleepWithoutValue
  | valueAfterKeyword (word : String)
  deriving DecidableEq, Repr

/-- Well-formed code that means something invalid. -/
inductive Misuse where
  -- directives
  | unknownDirective (command : String)
  | unknownPragma (key : String)
  | unknownProgramOption (key : String)
  | unknownInclude (target : String)
  | notDecimal (text : String)
  | notBoolean (text : String)
  | otherVersion (ours required : String)
  | outOfRange (low high : Nat)
  | stackPagesOutOfRange (budget : Nat)
  | badProgramName
  | longDescription
  | badActivationAmount
  -- declarations
  | memberNotPlain (member : String)
  | memberRepeated (member : String)
  | structRedefined (tag : String)
  | structUndefined (tag : String)
  | functionRedefined (function : String)
  | functionNamedAsHostCall (function : String)
  | structByValue (param : String)
  | voidParameter (param : String)
  | structReturned (function : String)
  | initializerNotAllowed (name : String)
  | nameReserved (name : String)
  | nameTaken (name stored : String)
  | variableRedeclared (name : String)
  | variableNamedAsHostCall (name : String)
  | voidVariable (name : String)
  | emptyArray (name : String)
  | arrayNotLong (name : String)
  -- names and operators in a phrase
  | variableUndeclared (name : String)
  | functionUndeclared (function : String)
  | argumentCount (function : String) (expected : Nat)
  | aggregateAsValue (name : String)
  | notStructPointer (field : String)
  | notStructVariable (field : String)
  | notStruct (name : String)
  | pointerNeedsArrow (name : String)
  | noSuchMember (tag field : String)
  | invalidLeftSide (operator : String)
  | literalAsAddress
  | notAnAddress (name : String)
  | indexOutOfBounds (index : Nat) (array : String) (size : Nat)
  | noAddress
  -- code
  | mainWithParameters
  | returnFromVoid (function : String)
  | returnWithoutValue (function : String)
  | callWithoutValue (function : String)
  | postStepInCondition
  | notAssignable (name : String)
  | constantAsAccumulator
  | notModifiable (name : String)
  | outsideLoop (word : String)
  | notConstant
  | alreadyFrozen
  deriving DecidableEq, Repr

/-- A bounded resource that ran out. -/
inductive Shortage where
  | registers (available : Nat)
  | literalWidth
  deriving DecidableEq, Repr

/-- An earlier stage broke a promise to a later one. -/
inductive Defect where
  | memberSlotMissing (name field : String)
  | registersHeld (names : List String)
  | registerUnknown (address : Int)
  | registerNotHeld (name : String)
  | literalWithoutValue
  | notBaseAddress (name : String)
  | arrayWithoutBase (name : String)
  | elementMissing (index : Nat) (array : String)
  | noSlotAt (address : Int)
  | orderedWithoutRight
  | sleepWithoutOperand
  | constantWithoutValue (name : String)
  | slotUnknown (name : String)
  | updatesNestTooDeep
  deriving DecidableEq, Repr

/-- The cause of a refusal. -/
inductive Fault where
  | malformed (cause : Malformed)
  | misuse (cause : Misuse)
  | shortage (cause : Shortage)
  | defect (cause : Defect)
  deriving DecidableEq, Repr

/-- A fault and the source line, counted from one, that it is reported at. -/
structure CompileError where
  fault : Fault
  line : Nat
  deriving DecidableEq, Repr

/-- What a stage of the compiler gives: a result, or the reason there is none. -/
abbrev Outcome (α : Type) := Except CompileError α

def Malformed.text : Malformed → String
  | .invalidCharacter c => s!"Invalid character '{c}'."
  | .endOfText => "Unexpected end of source code."
  | .unexpected text => s!"Unexpected '{text}'."
  | .unfinishedSource => "Unexpected end of source code. Missing ';' or '\x7d'?"
  | .incompleteAfter text => s!"Incomplete expression after '{text}'."
  | .emptyCondition => "Sentence condition can not be empty."
  | .sleepWithoutValue => "Keyword 'sleep' needs a value."
  | .valueAfterKeyword word => s!"Keyword '{word}' does not take a value."

def Misuse.text : Misuse → String
  | .unknownDirective command => s!"Unknown directive '#{command}'."
  | .unknownPragma key => s!"Unknown '#pragma' option '{key}'."
  | .unknownProgramOption key => s!"Unknown '#program' option '{key}'."
  | .unknownInclude target => s!"Unknown '#include' target '{target}'."
  | .notDecimal text => s!"Expecting a decimal number, got '{text}'."
  | .notBoolean text => s!"Expecting 'true' or 'false', got '{text}'."
  | .otherVersion ours required =>
    s!"This compiler is version '{ours}'. Source code requires version '{required}'."
  | .outOfRange low high => s!"Value out of permitted range {low}..{high}."
  | .stackPagesOutOfRange budget =>
    s!"Stack pages out of range. Code and user stack pages together must not exceed {budget}."
  | .badProgramName => "Program name must contain only letters and digits, up to 30 chars."
  | .longDescription => "Program description max length is 1000 chars."
  | .badActivationAmount => "Program activation amount must be a decimal number."
  | .memberNotPlain member => s!"Struct member '{member}' must be a plain long or pointer."
  | .memberRepeated member => s!"Struct member '{member}' declared twice."
  | .structRedefined tag => s!"Struct '{tag}' already defined."
  | .structUndefined tag => s!"Struct '{tag}' not defined."
  | .functionRedefined function => s!"Function '{function}' already defined."
  | .functionNamedAsHostCall function =>
    s!"Function '{function}' has the same name as an API function."
  | .structByValue param => s!"Struct parameter '{param}' must be passed as a pointer."
  | .voidParameter param => s!"Parameter '{param}' can not be 'void'."
  | .structReturned function => s!"Function '{function}' can not return a struct by value."
  | .initializerNotAllowed name => s!"Initializer not allowed for '{name}'."
  | .nameReserved name => s!"Variable '{name}' uses a name reserved for registers and constants."
  | .nameTaken name stored =>
    s!"Variable '{name}' would be stored as '{stored}', which is already in use."
  | .variableRedeclared name => s!"Variable '{name}' already declared."
  | .variableNamedAsHostCall name => s!"Variable '{name}' has the same name as an API function."
  | .voidVariable name => s!"Variable '{name}' can not be 'void'."
  | .emptyArray name => s!"Array '{name}' must have at least one element."
  | .arrayNotLong name => s!"Array '{name}' must be an array of long."
  | .variableUndeclared name => s!"Variable '{name}' not declared."
  | .functionUndeclared function => s!"Function '{function}' not declared."
  | .argumentCount function expected =>
    s!"Wrong number of arguments for function '{function}'. It must have {expected} argument(s)."
  | .aggregateAsValue name => s!"Struct '{name}' can only be used through its members."
  | .notStructPointer field => s!"Left side of '->{field}' is not a struct pointer."
  | .notStructVariable field => s!"Left side of '.{field}' must be a struct variable."
  | .notStruct name => s!"'{name}' is not a struct."
  | .pointerNeedsArrow name => s!"Use '->' to access members through '{name}'."
  | .noSuchMember tag field => s!"Struct '{tag}' has no member '{field}'."
  | .invalidLeftSide operator =>
    s!"Invalid left side for '{operator}'. It must be a variable."
  | .literalAsAddress => "Can not use a constant as an address."
  | .notAnAddress name => s!"Can not use '{name}' as an address."
  | .indexOutOfBounds index array size =>
    s!"Array index {index} out of bounds for '{array}' (size {size})."
  | .noAddress => "Can not take the address of this expression."
  | .mainWithParameters => "Function 'main' can not have arguments."
  | .returnFromVoid function => s!"Function '{function}' is void and can not return a value."
  | .returnWithoutValue function => s!"Function '{function}' must return a value."
  | .callWithoutValue function => s!"Function '{function}' does not return a value."
  | .postStepInCondition => "Post increment or decrement can not be used in conditions."
  | .notAssignable name => s!"Invalid left side of assignment: '{name}' can not be assigned."
  | .constantAsAccumulator =>
    "Invalid left side of operation: can not assign into a constant."
  | .notModifiable name => s!"Invalid operand: '{name}' can not be modified."
  | .outsideLoop word => s!"'{word}' used outside of a loop."
  | .notConstant => "No operations can be done during 'const' assignment."
  | .alreadyFrozen => "Left side of an assignment with 'const' keyword already has been set."

def Shortage.text : Shortage → String
  | .registers available =>
    "No more registers available. Increase the number with '#pragma maxAuxVars' " ++
      s!"(current: {available})."
  | .literalWidth => "Overflow on long value assignment. Value bigger than 64 bits."

def Defect.text : Defect → String
  | .memberSlotMissing name field => s!"Member slot '{name}.{field}' missing."
  | .registersHeld names =>
    "Registers still in use after statement: " ++ String.intercalate ", " names ++ "."
  | .registerUnknown address => s!"Address {address} is not a register."
  | .registerNotHeld name => s!"Register '{name}' released but not in use."
  | .literalWithoutValue => "Literal without a value."
  | .notBaseAddress name => s!"Slot '{name}' can not be used as a base address."
  | .arrayWithoutBase name => s!"Array '{name}' has no base address."
  | .elementMissing index array => s!"Element {index} of array '{array}' not found."
  | .noSlotAt address => s!"No slot at address {address}."
  | .orderedWithoutRight => "Ordered comparison without a right operand."
  | .sleepWithoutOperand => "'sleep' without a value."
  | .constantWithoutValue name => s!"Constant '{name}' has no value."
  | .slotUnknown name => s!"Unknown slot '{name}'."
  | .updatesNestTooDeep => "Deferred updates nest too deeply."

def Fault.text : Fault → String
  | .malformed cause => cause.text
  | .misuse cause => cause.text
  | .shortage cause => cause.text
  | .defect cause => cause.text

/-- A fault that no contract should be able to cause. -/
def Fault.isDefect : Fault → Bool
  | .defect _ => true
  | _ => false

namespace CompileError

def malformed (line : Nat) (cause : Malformed) : CompileError := ⟨.malformed cause, line⟩

def misuse (line : Nat) (cause : Misuse) : CompileError := ⟨.misuse cause, line⟩

def shortage (line : Nat) (cause : Shortage) : CompileError := ⟨.shortage cause, line⟩

def defect (line : Nat) (cause : Defect) : CompileError := ⟨.defect cause, line⟩

/-- Whether the compiler, and not the contract, is to blame. -/
def isInternal (e : CompileError) : Bool := e.fault.isDefect

/-- The report: the line, then the wording; defects say that they are internal. -/
def message (e : CompileError) : String :=
  if e.isInternal then s!"Internal error at line: {e.line}. {e.fault.text}"
  else s!"At line: {e.line}. {e.fault.text}"

end CompileError

end ContractCompiler
