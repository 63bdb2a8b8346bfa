import ContractCompiler.Error
import ContractCompiler.HostCall
import ContractCompiler.Sentence
import ContractCompiler.Settings
import ContractCompiler.SlotTable

/-!
# Layout — where the names of a contract live

The registers come first, then the global variables, then the parameters and variables of each
function, all in source order and wherever they are nested. A struct variable takes a slot for each of
its members, an array one for its address and one for each element.
-/

namespace ContractCompiler

set_option autoImplicit false

/-- What a caller has to know about a function. -/
structure Signature where
  name : String
  /-- The slots of the parameters by their names in the code. -/
  params : List String
  returns : ValueType
  line : Nat
  deriving DecidableEq, Repr

namespace Signature

/-- A call of the function has a value. -/
def returnsValue (f : Signature) : Bool := f.returns != .void

def find? (functions : List Signature) (name : String) : Option Signature :=
  functions.find? (·.name == name)

end Signature

structure Layout where
  table : SlotTable := {}
  functions : List Signature := []
  deriving DecidableEq, Repr

mutual

/-- The declarations anywhere in a sentence. -/
def Sentence.declarations : Sentence → List Declaration
  | .phrase _ _ _ => []
  | .ifThen _ _ yes => Sentence.allDeclarations yes
  | .ifElse _ _ yes no => Sentence.allDeclarations yes ++ Sentence.allDeclarations no
  | .whileLoop _ _ body => Sentence.allDeclarations body
  | .doLoop _ _ body => Sentence.allDeclarations body
  | .forLoop _ _ _ _ body => Sentence.allDeclarations body
  | .block body => Sentence.allDeclarations body
  | .declaration d => [d]

def Sentence.allDeclarations : List Sentence → List Declaration
  | [] => []
  | s :: rest => s.declarations ++ Sentence.allDeclarations rest

end

namespace SlotTable

/-- The names of registers and of constants kept in memory. -/
def isReservedName (asmName : String) : Bool :=
  match asmName.toList with
  | first :: digits =>
    (first == 'r' || first == 'n') && !digits.isEmpty && digits.all Char.isDigit
  | [] => false

/-- Checks that the variable `name` may be stored under `asmName`. -/
def checkName (t : SlotTable) (name asmName : String) (line : Nat) : Outcome Unit :=
  if isReservedName asmName then .error (.misuse line (.nameReserved name))
  else if (t.find? asmName).isSome then .error (.misuse line (.nameTaken name asmName))
  else .ok ()

/-- The name in the code of a variable. -/
def storedName (name scope : String) : String :=
  if scope = Slot.globalScope then name else scope ++ "_" ++ name

/-- The kind, type and size of the slot that a declarator asks for. -/
def slotShape (t : SlotTable) (type : TypeName) (d : Declarator) :
    Outcome (SlotKind × ValueType × Nat) :=
  match type, d.pointer, d.array with
  | .void, false, _ => .error (.misuse d.line (.voidVariable d.name))
  | .long, false, none => .ok (.long, .long, 1)
  | .long, true, none => .ok (.long, .longPtr, 1)
  | .void, true, none => .ok (.long, .longPtr, 1)
  | .long, false, some size =>
    if size = 0 then .error (.misuse d.line (.emptyArray d.name))
    else .ok (.array, .longPtr, size)
  | .struct tag, pointer, none =>
    if (t.members? tag).isNone then .error (.misuse d.line (.structUndefined tag))
    else if pointer then .ok (.structRef, .structPtr tag, 1)
    else .ok (.struct, .struct tag, 1)
  | _, _, some _ => .error (.misuse d.line (.arrayNotLong d.name))

/-- The slot of a declared name, not yet stored. -/
def slotFor (t : SlotTable) (type : TypeName) (d : Declarator) (scope : String) : Outcome Slot := do
  if (t.inScope? d.name scope).isSome then
    throw (.misuse d.line (.variableRedeclared d.name))
  if (HostCall.find? d.name).isSome then
    throw (.misuse d.line (.variableNamedAsHostCall d.name))
  let asmName := storedName d.name scope
  t.checkName d.name asmName d.line
  let (kind, valueType, size) ← t.slotShape type d
  return { Slot.fresh d.name asmName kind scope valueType with size := size }

/-- Stores the parts of a variable one after the other. -/
def pushParts (d : Declarator) (scope : String) :
    List (String × ValueType) → SlotTable → Outcome SlotTable
  | [], t => .ok t
  | (asmName, type) :: rest, t => do
    t.checkName d.name asmName d.line
    pushParts d scope rest (t.push (Slot.fresh asmName asmName .long scope type))

/-- The parts of a variable that get slots of their own. -/
def parts (t : SlotTable) (s : Slot) : List (String × ValueType) :=
  match s.kind, s.type with
  | .array, _ => (List.range s.size).map fun i => (s.asmName ++ "_" ++ toString i, .long)
  | .struct, .struct tag =>
    ((t.members? tag).getD []).map fun m => (s.asmName ++ "_" ++ m.name, m.type)
  | _, _ => []

/-- Declares one variable. The slot of an array holds the address after its own, which is that of the
first element. -/
def declareVariable (t : SlotTable) (type : TypeName) (scope : String) (d : Declarator) :
    Outcome SlotTable := do
  let isStruct := match type with
    | .struct _ => true
    | _ => false
  if d.init.isSome && (d.array.isSome || isStruct && !d.pointer) then
    throw (.misuse d.line (.initializerNotAllowed d.name))
  let s ← t.slotFor type d scope
  let s :=
    if s.kind = .array then
      { s with contents := some (Word.toHex (UInt64.ofNat (t.next + 1))) }
    else s
  pushParts d scope (t.parts s) (t.push s)

def declareAll (t : SlotTable) (scope : String) (ds : List Declaration) : Outcome SlotTable :=
  ds.foldlM (fun t d => d.declarators.foldlM (fun t v => t.declareVariable d.type scope v) t) t

/-- The members that the declarators of a struct make. -/
def membersOf (ds : List Declarator) : Outcome (List Member) :=
  ds.foldlM
    (fun members d =>
      if d.array.isSome || d.init.isSome then .error (.misuse d.line (.memberNotPlain d.name))
      else if members.any (·.name == d.name) then .error (.misuse d.line (.memberRepeated d.name))
      else .ok (members ++ [⟨d.name, if d.pointer then .longPtr else .long⟩]))
    []

def declareStruct (t : SlotTable) (s : StructDef) : Outcome SlotTable := do
  match t.defineStruct? s.tag (← membersOf s.members) with
  | some t => return t
  | none => throw (.misuse s.line (.structRedefined s.tag))

/-- Declares a parameter and gives its name in the code. -/
def declareParam (t : SlotTable) (function : String) (p : Param) : Outcome (SlotTable × String) := do
  match p.type, p.pointer with
  | .struct _, false => throw (.misuse p.line (.structByValue p.name))
  | .void, _ => throw (.misuse p.line (.voidParameter p.name))
  | _, _ => pure ()
  let s ← t.slotFor p.type ⟨p.name, p.pointer, none, none, p.line⟩ function
  return (t.push s, s.asmName)

/-- Declares parameters in turn and gives their names in the code. -/
def declareParams (t : SlotTable) (function : String) : List Param → Outcome (SlotTable × List String)
  | [] => .ok (t, [])
  | p :: rest => do
    let (t, asmName) ← t.declareParam function p
    let (t, asmNames) ← t.declareParams function rest
    return (t, asmName :: asmNames)

end SlotTable

def FunctionDef.returnType (f : FunctionDef) : Outcome ValueType :=
  match f.returns, f.returnsPointer with
  | .void, false => .ok .void
  | .long, false => .ok .long
  | .struct tag, true => .ok (.structPtr tag)
  | .struct _, false => .error (.misuse f.line (.structReturned f.name))
  | _, true => .ok .longPtr

namespace Layout

def declareFunction (l : Layout) (f : FunctionDef) : Outcome Layout := do
  if (Signature.find? l.functions f.name).isSome then
    throw (.misuse f.line (.functionRedefined f.name))
  if (HostCall.find? f.name).isSome then
    throw (.misuse f.line (.functionNamedAsHostCall f.name))
  let (table, params) ← l.table.declareParams f.name f.params
  let table ← table.declareAll f.name (Sentence.allDeclarations f.body)
  let returns ← f.returnType
  return ⟨table, l.functions ++ [⟨f.name, params, returns, f.line⟩]⟩

def ofProgram (p : Program) (settings : Settings) : Outcome Layout := do
  let table := SlotTable.ofRegisters settings.maxAuxVars
  let table ← p.structs.foldlM SlotTable.declareStruct table
  let table ← table.declareAll Slot.globalScope (Sentence.allDeclarations p.globals)
  p.functions.foldlM declareFunction ⟨table, []⟩

end Layout

end ContractCompiler
