import ContractCompiler.Proofs.Blocks
import ContractCompiler.Proofs.Codegen.Sentence

/-!
# Proofs.Program — contracts run as they are written

The first block of a contract, run from its first line, does what the contract does from the same
memory (`Program.code_executes`): it reaches the end of the activation with the same variables if the
contract ends, and never halts if the contract does not.
-/

namespace ContractCompiler

set_option autoImplicit false

namespace Codegen

variable {M : Machine} {t : SlotTable} {ctx : Context} {st : State}

/-! ## The first block -/

theorem mainFunction_performs (laid : t.Laid) (small : t.Small) {f : FunctionDef} {body : Statement}
    (isStatement : Sentence.statements? ⟨t, ctx.functions, some f.name⟩ f.body = some body)
    (allows : ctx.Allows body.isDirect) :
    Performs M t ctx (mainFunction f) fun fuel m => body.run M.environment fuel m := by
  intro st valid interns settled
  unfold mainFunction
  split
  · refine .bind (.emit (.bind (.emit (.within ?_))))
    refine (sentences_performs (M := M) laid small { ctx with function := some f.name } f.body body
      isStatement allows st valid interns settled).mono ?_
    rintro _ code s' ⟨passes, follows⟩
    refine ⟨passes, fun hosts fuel m mm ready => ?_⟩
    exact .after (.label _ mm) (.after (.resetStart mm) (follows hosts fuel m mm ready))
  · exact .fail _

/-- The first block does what the contract does, and ends the activation. -/
theorem firstBlock_follows {p : Program} {l : Layout} {body : Statement} (laid : l.table.Laid)
    (small : l.table.Small) (functions : ctx.functions = l.functions) (function : ctx.function = none)
    (isStatement : p.statement? l = some body) (allows : ctx.Allows body.isDirect) (valid : st.Valid)
    (interns : l.table.Interns st.table) (settled : st.deferred = []) :
    (firstBlock p).Ends ctx st fun _ code st' => ∃ lines, code = lines ++ [.finish] ∧
      (M.Hosts st' → ∀ (fuel : Nat) (m mm : Memory), M.Ready m mm →
        M.Follows lines ctx.loop fuel mm (body.run M.environment fuel m)) := by
  obtain ⟨globals, isGlobals, isStatement⟩ := Option.bind_eq_some_iff.1 isStatement
  have names : ctx.names l.table = ⟨l.table, l.functions, none⟩ := by
    rw [Context.names, functions, function]
  rw [← names] at isGlobals
  unfold firstBlock
  cases found : p.functions.find? (·.name == "main") with
  | some f =>
    simp only [found] at isStatement
    obtain ⟨main, isMain, isStatement⟩ := Option.bind_eq_some_iff.1 isStatement
    obtain rfl := Option.some.inj isStatement
    rw [← functions] at isMain
    have performs := sentences_performs (M := M) laid small ctx p.globals globals isGlobals allows.and.1
    have performs' := mainFunction_performs (M := M) laid small isMain allows.and.2
    refine .bind ((performs st valid interns settled).mono ?_)
    rintro _ c₁ s₁ ⟨passes, follows⟩
    refine .bind ((performs' s₁ passes.valid (interns.trans passes.interns) passes.settled).mono ?_)
    rintro _ c₂ s₂ ⟨passes', follows'⟩
    refine .emit ⟨c₁ ++ c₂, (List.append_assoc ..).symm, fun hosts fuel m mm ready => ?_⟩
    exact (follows (hosts.of_interns passes'.interns) fuel m mm ready).append
      fun m' mm' ready' => follows' hosts fuel m' mm' ready'
  | none =>
    simp only [found] at isStatement
    obtain rfl := Option.some.inj isStatement
    have performs := sentences_performs (M := M) laid small ctx p.globals globals isGlobals allows
    refine .bind ((performs st valid interns settled).mono ?_)
    rintro _ c₁ s₁ ⟨passes, follows⟩
    exact .bind (.pure (.emit ⟨c₁, rfl, follows⟩))

end Codegen

/-- A compiled contract runs as it is written. From a memory that holds the constants and the arrays,
the first block reaches the end of the activation if the contract ends, with the same words in all
cells but the registers, and it never halts if the contract goes on forever. -/
theorem Program.code_executes {p : Program} {settings : Settings} {l : Layout} {body : Statement}
    {randomId : Nat → String} {blocks : List (List Instr)} {code : List Instr} {s : Codegen.State}
    (isLayout : Layout.ofProgram p settings = .ok l) (small : l.table.Small)
    (isStatement : p.statement? l = some body)
    (allows : settings.reuseAssignedVar = false ∨ body.isDirect = true)
    (compiled : Codegen.blocks p ⟨settings, l.functions, randomId, none, none, false⟩ (.ofLayout l) =
      .done blocks code s)
    (distinct : LabelId.Distinct settings randomId s.labels) {M : Machine} {arithmetic : Arithmetic}
    (isMachine : M = ⟨arithmetic, s.table, blocks.flatten⟩) {m : Memory} (fixed : M.Fixed m)
    (stack : List Word) (returns : List Nat) :
    ∃ first others, blocks = first :: others ∧
      (∀ fuel flow m', body.run M.environment fuel m = .ended flow m' → flow = .next ∧
        ∃ mm' stop, M.Reaches 0 first.length ⟨0, m, stack, returns⟩ ⟨stop, mm', stack, returns⟩ ∧
          first[stop]? = some .finish ∧ ∀ a, ¬ M.IsRegister a → mm' a = m' a) ∧
      ((∀ fuel, body.run M.environment fuel m = .unfinished) →
        ∀ n, M.RunsFor n ⟨0, m, stack, returns⟩) := by
  have laid := Layout.ofProgram_laid p settings l isLayout
  have valid := Codegen.State.ofLayout_valid laid.valid
  let ctx : Codegen.Context := ⟨settings, l.functions, randomId, none, none, false⟩
  have allows : ctx.Allows body.isDirect := allows
  obtain ⟨first, others, s₁, rfl, split⟩ := Codegen.blocks_split isLayout compiled
  obtain ⟨lines, rfl, follows⟩ := Codegen.firstBlock_follows (M := M) laid small rfl rfl isStatement allows
    valid (.refl _) rfl _ _ _ split.isFirst
  have nodup := split.main.labelled.nodup (Codegen.mainNames_nodup_main p) (distinct.mono split.rest.le)
  have hosts : M.Hosts s₁ := by
    rw [isMachine]
    exact ⟨split.rest.valid.table, split.rest.grows⟩
  have whole : M.code = [] ++ ((lines ++ [.finish]) ++ others.flatten) := by
    rw [isMachine]
    rfl
  have placed : M.Placed 0 (lines ++ [.finish]) :=
    Machine.placed_of_fresh whole nodup (by simp)
  have placedLines := (Machine.placed_append.1 placed).1
  have ready : M.Ready m m := ⟨fixed, fun _ _ => rfl⟩
  refine ⟨_, others, rfl, fun fuel flow m' ended => ?_, fun unfinished n => ?_⟩
  · have done := follows hosts fuel m m ready
    rw [ended] at done
    obtain ⟨exit, mm', exits, leads, ready'⟩ := done
    cases flow with
    | next =>
      cases exits
      have run := leads 0 _ stack returns placedLines rfl
      refine ⟨rfl, mm', lines.length, ?_, by simp, ready'.agrees⟩
      simpa using run.widen (Nat.le_refl 0) (Nat.le_succ _)
    | break_ => cases exits
    | continue_ => cases exits
  · have lasts := follows hosts n m m ready
    rw [unfinished] at lasts
    exact lasts 0 stack returns placedLines

/-! ## A contract at work -/

/-- The directives of a contract that is read make its settings, and it is laid out. -/
theorem Contract.stages_of_read {source : String} {settings : Settings} {c : Contract}
    (isContract : Contract.read source settings = .ok c) :
    (∃ tokens rest, tokenize source = .ok tokens ∧ Directive.split tokens settings = .ok (c.settings, rest)) ∧
      Layout.ofProgram c.program c.settings = .ok c.layout := by
  unfold Contract.read at isContract
  simp only [bind, Except.bind] at isContract
  split at isContract
  · cases isContract
  · rename_i tokens lexed
    split at isContract
    · cases isContract
    · rename_i found isSplit
      split at isContract
      · cases isContract
      · split at isContract
        · cases isContract
        · cases isContract
          exact ⟨⟨tokens, found.2, lexed, isSplit⟩, by assumption⟩

theorem Contract.layout_of_read {source : String} {settings : Settings} {c : Contract}
    (isContract : Contract.read source settings = .ok c) :
    Layout.ofProgram c.program c.settings = .ok c.layout :=
  (Contract.stages_of_read isContract).2

namespace Sample

/-- Fills an array, one element left out, and adds up its elements. -/
def filling : String :=
  "long a[4], i, sum; void main(void) \x7b for (i = 0; ; i++) \x7b if (i > 3) break; " ++
    "if (i == 1) continue; a[i] = i; sum += a[i]; \x7d \x7d"

def settings : Settings := { reuseAssignedVar := false, enableRandom := true }

/-- The settings and the names that the contract is compiled with. -/
abbrev context (c : Contract) (settings : Settings := {}) : Codegen.Context :=
  ⟨settings, c.layout.functions, LabelId.scrambled 0, none, none, false⟩

/-- All is zero but the array, which is the address of its first element. -/
def start : Memory := fun a => if a = 3 then 4 else 0

/-- What is in the cell 9 at the end. -/
def sum? : Run → Option Word
  | .ended _ m => some (m 9)
  | _ => none

/-- The contract is compiled, and its loop leaves 5 in the cell 9. -/
theorem filling_runs : (Contract.read filling settings).Succeeds fun c =>
    ∃ body ∈ c.program.statement? c.layout, (Codegen.blocks c.program).Succeeds (context c c.settings)
      (.ofLayout c.layout) fun blocks _ s =>
        let M : Machine := ⟨arithmetic, s.table, blocks.flatten⟩
        c.layout.table.Small ∧ c.settings.reuseAssignedVar = false ∧ s.labels < LabelId.count ∧
          M.Fixed start ∧ ¬ M.IsRegister 9 ∧ sum? (body.run M.environment 5 start) = some 5 := by
  decide +kernel

end Sample

/-- The sum ends up in its variable, whose address is 9. -/
theorem Program.code_executes_filling : ∃ (c : Contract) (body : Statement)
    (blocks : List (List Instr)) (code : List Instr) (s : Codegen.State) (M : Machine),
    Contract.read Sample.filling Sample.settings = .ok c ∧
    c.program.statement? c.layout = some body ∧
    Codegen.blocks c.program
      ⟨c.settings, c.layout.functions, LabelId.scrambled 0, none, none, false⟩ (.ofLayout c.layout) =
        .done blocks code s ∧
    M = ⟨Sample.arithmetic, s.table, blocks.flatten⟩ ∧ M.Fixed Sample.start ∧
    ∃ first others stop mm', blocks = first :: others ∧
      M.Reaches 0 first.length ⟨0, Sample.start, [], []⟩ ⟨stop, mm', [], []⟩ ∧
      first[stop]? = some .finish ∧ mm' 9 = 5 := by
  obtain ⟨c, isContract, body, isStatement, blocks, code, s, compiled, small, noReuse, few, fixed,
    notRegister, sum⟩ := Sample.filling_runs
  obtain ⟨first, others, isBlocks, ends, -⟩ := Program.code_executes
    (Contract.layout_of_read isContract) small isStatement (.inl noReuse) compiled
    (LabelId.scrambled_distinct c.settings 0 few) rfl fixed [] []
  cases ended : body.run _ 5 Sample.start with
  | ended flow m' =>
    obtain ⟨-, mm', stop, reaches, finish, agrees⟩ := ends 5 flow m' ended
    rw [ended] at sum
    exact ⟨c, body, blocks, code, s, _, isContract, isStatement, compiled, rfl, fixed, first, others,
      stop, mm', isBlocks, reaches, finish, (agrees 9 notRegister).trans (Option.some.inj sum)⟩
  | fault | unfinished =>
    rw [ended] at sum
    cases sum

end ContractCompiler
