import ContractCompiler.Assembly
import ContractCompiler.Directive
import ContractCompiler.Sentence.Parser
import ContractCompiler.Token.Lexer

/-!
# Compile — from the source of a contract to its assembly

The stages are: tokens, directives, sentences, layout, code. The first refusal of any stage is the
answer.
-/

namespace ContractCompiler

set_option autoImplicit false

/-- A contract whose names are laid out, before code is made for it. -/
structure Contract where
  /-- The settings after the directives of the source. -/
  settings : Settings
  program : Program
  layout : Layout

/-- Reads a contract. Directives override the settings. -/
def Contract.read (source : String) (settings : Settings) : Outcome Contract := do
  let (settings, tokens) ← Directive.split (← tokenize source) settings
  let program ← Program.ofTokens tokens
  let layout ← Layout.ofProgram program settings
  return ⟨settings, program, layout⟩

/-- Compiles a contract. Directives in the source override the settings; random labels take what they
carry from `randomId`. -/
def compile (source : String) (settings : Settings := {})
    (randomId : Nat → String := LabelId.scrambled 0) : Outcome String := do
  let c ← Contract.read source settings
  return (← Assembly.ofProgram c.program c.layout c.settings randomId).render

end ContractCompiler
