import ContractCompiler.Compile
import ContractCompiler.Proofs.Anchor.Sentence
import ContractCompiler.Proofs.Program

/-!
# Proofs.Anchor.Compile — what a contract is refused for, and where

The stages before the code report lines of the source and no defects, and the layout that they end with is
complete. So the compiler is at rest before it makes code. `compile_anchored` says where a contract is
refused: inside of its source, and, once the source is split into tokens, at the line of one of them.
`compile_blames_source` says that a source is compiled, or is refused because it is malformed, misuses the
language, or runs out of a resource.
-/

namespace ContractCompiler

set_option autoImplicit false

variable {inside : Nat → Prop} {named : String → Prop} {strict : Prop}

theorem Assembly.ofProgram_within {p : Program} {l : Layout} (within : p.Within inside named) (laid : l.table.Laid)
    (small : strict → l.table.Small) (settings : Settings) (randomId : Nat → String) :
    Outcome.Within inside strict (Assembly.ofProgram p l settings randomId) fun _ => True := by
  have anchored : (Codegen.State.ofLayout l).Anchored inside strict := by
    refine ⟨by simp [Codegen.State.ofLayout], fun h => ⟨⟨Codegen.State.ofLayout_valid laid.valid, ?_⟩, ?_, ?_⟩⟩
    · simp [Codegen.State.ofLayout]
    · exact laid.complete (small h)
    · exact Pool.not_holds_ofTable l.table
  have leaves := Codegen.blocks_anchored within ⟨settings, l.functions, randomId, none, none, false⟩ _ anchored
  unfold Assembly.ofProgram
  split
  · exact .ok trivial
  · rename_i failed
    rwa [failed] at leaves

theorem compile_within {source : String} (settings : Settings) (randomId : Nat → String)
    (lexed : Outcome.Within inside strict (tokenize source) fun tokens => ∀ t ∈ tokens, inside t.line)
    (small : strict → ∀ c, Contract.read source settings = .ok c → c.layout.table.Small) :
    Outcome.Within inside strict (compile source settings randomId) fun _ => True := by
  have read := (Contract.read_within (fun _ => True) settings
    (lexed.mono fun _ stand t mem => ⟨stand t mem, fun _ => trivial⟩)).and fun c isContract h => small h c isContract
  refine .bind (read.mono fun c known => ?_)
  exact .bind ((Assembly.ofProgram_within known.1.1 known.1.2 known.2 c.settings randomId).mono
    fun _ _ => .ok trivial)

/-- A contract is refused at a line of its source. Once the source is split into tokens, it is the line of
one of them. -/
theorem compile_anchored {source : String} {settings : Settings} {randomId : Nat → String} {e : CompileError}
    (refused : compile source settings randomId = .error e) :
    (1 ≤ e.line ∧ e.line ≤ 1 + source.toList.count '\n') ∧
      ∀ tokens, tokenize source = .ok tokens → ∃ t ∈ tokens, t.line = e.line := by
  constructor
  · have within := compile_within settings randomId (tokenize_within source) False.elim
    rw [refused] at within
    exact within.atLine
  · intro tokens isTokens
    have lexed : Outcome.Within (fun line => ∃ t ∈ tokens, t.line = line) False (tokenize source)
        fun tokens' => ∀ t' ∈ tokens', ∃ t ∈ tokens, t.line = t'.line := by
      rw [isTokens]
      exact .ok fun t mem => ⟨t, mem, rfl⟩
    have within := compile_within settings randomId lexed False.elim
    rw [refused] at within
    exact within.atLine

namespace Sample

/-- The second line names a variable that is not declared; the last one has no token. -/
def undeclared : String := "long a;\na = b;\n// done"

end Sample

/-- The unknown name is reported at the line where it stands. -/
theorem compile_anchored_undeclared :
    ∃ e, compile Sample.undeclared {} toString = .error e ∧ e.line = 2 ∧
      (1 ≤ e.line ∧ e.line ≤ 1 + Sample.undeclared.toList.count '\n') ∧
      ∀ tokens, tokenize Sample.undeclared = .ok tokens → ∃ t ∈ tokens, t.line = e.line := by
  have refused : compile Sample.undeclared {} toString = .error (.misuse 2 (.variableUndeclared "b")) := by
    decide +kernel
  exact ⟨_, refused, rfl, compile_anchored refused⟩

/-- Whatever the source is, it is compiled, or refused by its own fault. That addresses are words with a
sign is the one limit: the contract may not ask for more cells than they can tell apart. -/
theorem compile_blames_source (source : String) (settings : Settings) (randomId : Nat → String)
    (small : ∀ c, Contract.read source settings = .ok c → c.layout.table.Small) :
    (∃ text, compile source settings randomId = .ok text) ∨
      ∃ e, compile source settings randomId = .error e ∧ e.isInternal = false := by
  have within := compile_within settings randomId (tokenize_within source) fun _ : True => small
  cases compiled : compile source settings randomId with
  | ok text => exact .inl ⟨text, rfl⟩
  | error e =>
    rw [compiled] at within
    exact .inr ⟨e, rfl, within.fault trivial⟩

namespace Sample

/-- Steps inside the target of a step, a member through a pointer, and a call. -/
def crowded : String :=
  "struct P \x7b long x, y; \x7d; struct P p, *q; long a[4], i; " ++
    "long f(long n) \x7b return n * 2; \x7d " ++
    "void main(void) \x7b q = &p; q->y = a[a[i++]++]++ + f(p.x); \x7d"

def twoRegisters : Settings := { maxAuxVars := 2 }

/-- The contract is read, and refused when it is compiled. -/
theorem crowded_refused : (Contract.read crowded twoRegisters).Succeeds fun c => c.layout.table.Small ∧
    ¬ (Assembly.ofProgram c.program c.layout c.settings (LabelId.scrambled 0)).Succeeds fun _ => True := by
  decide +kernel

end Sample

/-- Two registers do not suffice, which is the fault of the contract. -/
theorem compile_blames_source_crowded :
    (∀ c, Contract.read Sample.crowded Sample.twoRegisters = .ok c → c.layout.table.Small) ∧
      ∃ e, compile Sample.crowded Sample.twoRegisters = .error e ∧ e.isInternal = false := by
  obtain ⟨c, isContract, isSmall, refused⟩ := Sample.crowded_refused
  have small : ∀ c', Contract.read Sample.crowded Sample.twoRegisters = .ok c' → c'.layout.table.Small := by
    intro c' isContract'
    rw [← Except.ok.inj (isContract.symm.trans isContract')]
    exact isSmall
  refine ⟨small, ?_⟩
  rcases compile_blames_source Sample.crowded Sample.twoRegisters (LabelId.scrambled 0) small with
    ⟨text, compiled⟩ | blamed
  · unfold compile at compiled
    rw [isContract] at compiled
    cases assembled : Assembly.ofProgram c.program c.layout c.settings (LabelId.scrambled 0) with
    | ok assembly => exact absurd ⟨assembly, assembled, trivial⟩ refused
    | error e =>
      simp only [bind, Except.bind, assembled] at compiled
      cases compiled
  · exact blamed

end ContractCompiler
