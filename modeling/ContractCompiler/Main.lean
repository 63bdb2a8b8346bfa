import ContractCompiler.Compile

/-!
# Main — the command line

`SOURCE [-o DESTINATION]`: compiles a file and writes the assembly to another file, or to the standard
output. A refusal is written to the standard error.
-/

namespace ContractCompiler

set_option autoImplicit false

structure Request where
  source : String
  destination : Option String
  deriving DecidableEq, Repr

namespace Request

/-- Reads the arguments after those already read. -/
def ofArgsFrom (source destination : Option String) : List String → Option Request
  | [] => source.map fun source => ⟨source, destination⟩
  | "-o" :: file :: rest => if destination.isSome then none else ofArgsFrom source (some file) rest
  | "--output" :: file :: rest =>
    if destination.isSome then none else ofArgsFrom source (some file) rest
  | file :: rest =>
    if source.isSome || file.startsWith "-" then none else ofArgsFrom (some file) destination rest

/-- Reads the arguments: one source and at most one destination, in any order. -/
def ofArgs? (args : List String) : Option Request := ofArgsFrom none none args

def usage : String := "Usage: SOURCE [-o DESTINATION]"

/-- Reads, compiles and writes. Gives the exit code. -/
def run (r : Request) : IO UInt32 := do
  let source ← try IO.FS.readFile r.source catch e =>
    IO.eprintln s!"Error reading source file: {e}"
    return 1
  match compile source {} (LabelId.scrambled (← IO.rand 0 LabelId.count)) with
  | .error e =>
    IO.eprintln e.message
    return 1
  | .ok assembly =>
    match r.destination with
    | none => IO.print assembly
    | some file =>
      try IO.FS.writeFile file assembly catch e =>
        IO.eprintln s!"Error writing to destination file: {e}"
        return 1
      IO.println "Compilation successful!"
    return 0

end Request

end ContractCompiler

def main (args : List String) : IO UInt32 := do
  match ContractCompiler.Request.ofArgs? args with
  | some r => r.run
  | none =>
    IO.eprintln ContractCompiler.Request.usage
    return 2
