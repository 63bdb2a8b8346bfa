import ContractCompiler.Proofs.Assembly
import ContractCompiler.Proofs.Balance
import ContractCompiler.Proofs.Sentence.Account

/-!
# Proofs.LabelClosure — every label is defined once, and where it is used

The labels of a contract are those of its functions, and those that carry a number. The first are told
apart by the names of the functions, the second by their numbers, which go on from block to block
(`LabelledCode`). A jump of a sentence or of an expression finds its label in the same block, which ends in
a line that does not go on to the next one (`ClosedBlock`). What is called is a function of the contract
(`Codegen.CallsKnown`), and has a block of its own unless it is the main function.
-/

namespace ContractCompiler

set_option autoImplicit false

open Codegen (functionLabel)

namespace Codegen

variable {functions : List Signature}

/-! ## What is called -/

theorem callsOf_of_node? {c : Command} {n : Node} (calls : c.CallsOf functions)
    (isNode : c.node? = some n) : n.CallsOf functions := by
  cases c with
  | value _ =>
    cases isNode
    exact calls
  | control _ _ _ => exact calls n isNode

/-- The code calls functions of the contract, and leaves steps that do. -/
def CallsKnown (functions : List Signature) (s : State) (code : List Instr) (s' : State) : Prop :=
  Known functions s → Known functions s' ∧ ∀ c ∈ Instr.callees code, c.Known functions

theorem callsKnown_composes (functions : List Signature) : Composes (CallsKnown functions) where
  marks areMarks _ _ same known := by
    refine ⟨fun p mem => known p (same ▸ mem), fun c mem => ?_⟩
    obtain ⟨i, listed, isCallee⟩ := List.mem_filterMap.1 mem
    have isMark := areMarks i listed
    cases i with
    | call _ | host _ _ _ => cases isMark
    | _ => cases isCallee
  trans first second known := by
    obtain ⟨known', calls⟩ := first known
    obtain ⟨known'', calls'⟩ := second known'
    refine ⟨known'', ?_⟩
    rw [Instr.callees_append]
    exact List.forall_mem_append.2 ⟨calls, calls'⟩

theorem callsKnown_pop (s : State) (name : String) : CallsKnown functions s [.pop name] s :=
  fun known => ⟨known, by simp [Instr.callees, Instr.callee?]⟩

theorem condition_callsKnown (tokens : List Token) (target : String) (when : Bool) (line : Nat) :
    Keeps functions (CallsKnown functions) (condition tokens target when line) := by
  intro ctx isContext s
  subst isContext
  refine .bind (.of rfl (.bind (.ofOutcome fun n isNode => ?_)))
  have calls := Names.condition_callsOf tokens line n isNode
  refine .bind (.within (((n.code_settles []).jump_does target when { ctx with inCondition := true } s).mono ?_))
  intro _ code s₁ ⟨callees, deferred, empty⟩
  refine (Does.of_straight (checkRegisters_straight line) ctx s₁).mono ?_
  intro _ code' s₂ ⟨callees', deferred', _⟩ known
  rw [empty rfl] at deferred
  refine ⟨fun p mem => known p (by simpa [deferred, deferred'] using mem), fun c mem => ?_⟩
  have mem : c ∈ (n.rounds.jumped n.isTest 0).calls := by simpa [callees, callees'] using mem
  refine n.callees_known calls c ?_
  cases isTest : n.isTest with
  | true =>
    rw [isTest] at mem
    exact n.mem_callees_of_round 0 c mem
  | false =>
    rw [isTest] at mem
    rcases List.mem_append.1 mem with mem | mem
    · exact n.mem_callees_of_round 0 c mem
    · exact n.mem_callees_of_round 1 c mem

theorem phrase_callsKnown (q : List Token × Nat) (isConst : Bool) :
    Keeps functions (CallsKnown functions) (phrase q.1 isConst q.2) := by
  intro ctx isContext s
  subst isContext
  refine phrase_ends_of_bound q.2 (fun known => ⟨known, nofun⟩) fun c isPhrase => ?_
  intro a code s' done known
  refine ⟨(phrase_balanced q.2 q.1 isConst s known a code s' done).1, ?_⟩
  obtain ⟨callees, -⟩ := phrase_does q.2 isPhrase isConst a code s' done
  have calls := Names.phrase_callsOf q.1 q.2 _ isPhrase c rfl
  have ofRound : ∀ k, ∀ callee ∈ (c.rounds ctx k).calls, callee.Known ctx.functions := by
    intro k callee mem
    rw [Command.rounds] at mem
    cases isEvaluated : c.evaluated ctx with
    | none =>
      rw [isEvaluated] at mem
      cases mem
    | some n =>
      rw [isEvaluated] at mem
      exact n.callees_known (callsOf_of_node? calls (Command.node?_of_evaluated isEvaluated)) callee
        (n.mem_callees_of_round k callee mem)
  have ofQueue : ∀ callee ∈ (Node.redo s.deferred).calls, callee.Known ctx.functions := by
    intro callee mem
    obtain ⟨p, queued, mem⟩ := Node.mem_calls_redo.1 mem
    exact p.2.callees_known (known p queued) callee (p.2.mem_callees_of_round 0 callee mem)
  rw [callees]
  exact List.forall_mem_append.2 ⟨ofRound 0, List.forall_mem_append.2 ⟨ofQueue, ofRound 1⟩⟩

/-- A contract calls its functions and operations of the host. -/
theorem blocks_callees {p : Program} {settings : Settings} {l : Layout} {randomId : Nat → String}
    {blocks : List (List Instr)} {code : List Instr} {s : State} (compiled : Codegen.blocks p
      ⟨settings, l.functions, randomId, none, none, false⟩ (.ofLayout l) = .done blocks code s) :
    ∀ c ∈ Instr.callees blocks.flatten, c.Known l.functions := by
  have calls := blocks_keep (callsKnown_composes l.functions) condition_callsKnown
    (fun _ _ _ _ s => callsKnown_pop s _) rfl (fun q _ => phrase_callsKnown q) _ _ _ _ compiled
  exact (calls (State.ofLayout_known l)).2

end Codegen

/-- The labels of a compiled contract. Each is defined once in the whole output, a jump finds its label
in the same block, and a call the function that it names: at the head of a block, or in the first block
if it is the main function. The first block ends in the end of the activation and each other one in a
return, so that control never runs over the end of a block. -/
theorem Program.labels_closed {p : Program} {settings : Settings} {l : Layout}
    {randomId : Nat → String} {blocks : List (List Instr)} {code : List Instr} {s : Codegen.State}
    (isLayout : Layout.ofProgram p settings = .ok l)
    (compiled : Codegen.blocks p ⟨settings, l.functions, randomId, none, none, false⟩ (.ofLayout l) =
      .done blocks code s)
    (distinct : LabelId.Distinct settings randomId s.labels) :
    (Instr.labels (Assembly.lines ⟨settings, s.table, blocks⟩)).Nodup ∧
    (∀ block ∈ blocks, ∀ i ∈ block, ∀ target, i.target? = some target → .label target ∈ block) ∧
    (∀ block ∈ blocks, ∀ name, .call name ∈ block →
      (∃ called ∈ blocks, called.head? = some (.label name)) ∨
        name = "__fn_main" ∧ ∃ first ∈ blocks.head?, .label name ∈ first) ∧
    (∃ first others, blocks = first :: others ∧ first.getLast? = some .finish ∧
      ∀ block ∈ others, block.getLast? = some .ret) ∧
    ∀ block ∈ blocks, ∀ visited p q, p < block.length → Path block p visited q → q < block.length := by
  obtain ⟨names, different⟩ := Layout.ofProgram_names p settings l isLayout
  obtain ⟨first, others, s₁, rfl, split⟩ := Codegen.blocks_split isLayout compiled
  refine ⟨?_, ?_, ?_, ⟨first, others, rfl, split.finish.last, fun block mem => (split.returns block mem).last⟩, ?_⟩
  · rw [Assembly.lines, Instr.labels_append, Assembly.labels_header]
    exact (split.main.trans split.rest).labelled.nodup (Codegen.mainNames_nodup different) distinct
  · exact split.jumps
  · intro block mem name isCall
    have isCallee : .function name ∈ Instr.callees (first :: others).flatten :=
      Instr.mem_callees_function.2 (List.mem_flatten_of_mem mem isCall)
    obtain ⟨g, signed, rfl⟩ := Codegen.blocks_callees compiled _ isCallee
    have isName : g.name ∈ p.functions.map (·.name) := names ▸ List.mem_map_of_mem signed
    obtain ⟨f, defined, sameName⟩ := List.mem_map.1 isName
    rw [← sameName]
    by_cases notMain : f.name = "main"
    · refine .inr ⟨by rw [notMain]; rfl, first, rfl, split.main.labelled.label_mem ?_⟩
      unfold Codegen.mainNames
      cases found : p.functions.find? (·.name == "main") with
      | none => exact absurd notMain (by simpa using List.find?_eq_none.1 found f defined)
      | some g' =>
        have name : g'.name = "main" := by simpa using List.find?_some found
        simp [name, notMain]
    · obtain ⟨called, listed, isBlock⟩ := split.functions f defined notMain
      exact .inl ⟨called, List.mem_cons_of_mem _ listed, isBlock.head⟩
  · intro block mem visited p q inside path
    rcases List.mem_cons.1 mem with rfl | mem
    · exact split.finish.path_lt rfl path inside
    · exact (split.returns block mem).path_lt rfl path inside

namespace Sample

/-- A loop with two tests that calls a function. -/
def looping : String :=
  "long x; long half(long n) \x7b if (n > 9) return 4; return n / 2; \x7d " ++
    "void main(void) \x7b while (x > 1 || x == 7) x = half(x); \x7d"

/-- The contract is compiled to eight labels, and `half` is called. -/
theorem looping_calls : (Contract.read looping settings).Succeeds fun c => (Codegen.blocks c.program).Succeeds
    (context c c.settings) (.ofLayout c.layout) fun blocks _ s => s.labels < LabelId.count ∧
      (Instr.labels (Assembly.lines ⟨c.settings, s.table, blocks⟩)).length = 8 ∧
      ∃ block ∈ blocks, ∃ i ∈ block, i = .call "__fn_half" := by
  decide +kernel

end Sample

/-- The eight labels of a loop, a test and two functions are different, all jumps stay in their block, and
the call finds its function. -/
theorem Program.labels_closed_looping : ∃ (c : Contract) (blocks : List (List Instr))
    (code : List Instr) (s : Codegen.State), Contract.read Sample.looping Sample.settings = .ok c ∧
    Codegen.blocks c.program
      ⟨c.settings, c.layout.functions, LabelId.scrambled 0, none, none, false⟩ (.ofLayout c.layout) =
        .done blocks code s ∧
    (Instr.labels (Assembly.lines ⟨c.settings, s.table, blocks⟩)).length = 8 ∧
    (Instr.labels (Assembly.lines ⟨c.settings, s.table, blocks⟩)).Nodup ∧
    (∃ block ∈ blocks, ∃ i ∈ block, i = .call "__fn_half") ∧
    (∃ called ∈ blocks, called.head? = some (.label "__fn_half")) ∧
    ∀ block ∈ blocks, ∀ i ∈ block, ∀ target, i.target? = some target → .label target ∈ block := by
  obtain ⟨c, isContract, blocks, code, s, compiled, few, count, block, listed, i, mem, isCall⟩ :=
    Sample.looping_calls
  obtain ⟨nodup, jumps, calls, -, -⟩ := Program.labels_closed (Contract.layout_of_read isContract)
    compiled (LabelId.scrambled_distinct c.settings 0 few)
  refine ⟨c, blocks, code, s, isContract, compiled, count, nodup, ⟨block, listed, i, mem, isCall⟩, ?_, jumps⟩
  rcases calls block listed "__fn_half" (isCall ▸ mem) with called | ⟨isMain, -⟩
  · exact called
  · exact absurd isMain (by decide)

end ContractCompiler
