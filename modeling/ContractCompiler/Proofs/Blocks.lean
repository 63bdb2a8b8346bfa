import ContractCompiler.Compile
import ContractCompiler.Proofs.Layout
import ContractCompiler.Proofs.Sentence.Balance

/-!
# Proofs.Blocks — a contract is its first block and one for each function

The blocks of a contract are walked once (`Codegen.blocks_split`). The labels of a block are those of its
function, and others whose numbers go on from block to block (`LabelledCode`). A jump finds its label in
the same block, which ends in a line that does not go on to the next one (`ClosedBlock`). The block of a
function takes its parameters from the stack, keeps the stack level, and returns with its value on it
(`FunctionBlock`).
-/

namespace ContractCompiler

set_option autoImplicit false

open Codegen (functionLabel)

/-! ## Labels of blocks -/

/-- The labels of the code are those of the functions `names`, and others that carry numbers above `low`
and up to `high`. -/
def LabelledCode (settings : Settings) (randomId : Nat → String) (low : Nat) (names : List String)
    (code : List Instr) (high : Nat) : Prop :=
  ∃ inner, Numbered settings randomId low inner high ∧
    (Instr.labels code).Perm (names.map functionLabel ++ Instr.labels inner)

namespace LabelledCode

variable {settings : Settings} {randomId : Nat → String} {low mid high : Nat}
  {names names' : List String} {code rest : List Instr}

theorem of_numbered (numbered : Numbered settings randomId low code high) :
    LabelledCode settings randomId low [] code high := ⟨code, numbered, .refl _⟩

theorem of_labels_nil (none : Instr.labels code = []) (low : Nat) :
    LabelledCode settings randomId low [] code low := of_numbered (.of_labels_nil none low)

theorem line (i : Instr) (low : Nat) (none : Instr.labels [i] = [] := by rfl) :
    LabelledCode settings randomId low [] [i] low := of_labels_nil none low

theorem function (name : String) (low : Nat) :
    LabelledCode settings randomId low [name] [.label (functionLabel name)] low :=
  ⟨[], .of_labels_nil rfl low, .refl _⟩

theorem append (first : LabelledCode settings randomId low names code mid)
    (second : LabelledCode settings randomId mid names' rest high) :
    LabelledCode settings randomId low (names ++ names') (code ++ rest) high := by
  obtain ⟨inner, numbered, labels⟩ := first
  obtain ⟨inner', numbered', labels'⟩ := second
  refine ⟨inner ++ inner', numbered.append numbered', ?_⟩
  rw [Instr.labels_append, Instr.labels_append, List.map_append, List.append_assoc]
  refine (labels.append labels').trans ?_
  rw [List.append_assoc]
  apply List.Perm.append_left
  rw [← List.append_assoc, ← List.append_assoc]
  exact List.perm_append_comm.append_right _

theorem label_mem (labelled : LabelledCode settings randomId low names code high) {name : String}
    (mem : name ∈ names) : .label (functionLabel name) ∈ code := by
  obtain ⟨inner, -, labels⟩ := labelled
  exact Instr.mem_labels.1 (labels.mem_iff.2 (List.mem_append_left _ (List.mem_map_of_mem mem)))

/-- No label is defined twice if no two functions have one name. -/
theorem nodup (labelled : LabelledCode settings randomId low names code high) (different : names.Nodup)
    (distinct : LabelId.Distinct settings randomId high) : (Instr.labels code).Nodup := by
  obtain ⟨inner, numbered, labels⟩ := labelled
  rw [labels.nodup_iff, List.nodup_append]
  refine ⟨different.map fun _ _ => Codegen.functionLabel_inj.1, numbered.nodup distinct, ?_⟩
  intro l isFunction l' mem same
  obtain ⟨name, -, rfl⟩ := List.mem_map.1 isFunction
  obtain ⟨ordinal, line, mark, -, -, isMark⟩ := numbered.numbers l' mem
  exact Codegen.functionLabel_ne_text name mark _ (same.trans isMark)

end LabelledCode

/-! ## Blocks that are closed -/

/-- Every jump finds its label in the code. -/
def JumpsInside (code : List Instr) : Prop :=
  ∀ i ∈ code, ∀ l, i.target? = some l → .label l ∈ code

namespace JumpsInside

variable {code rest : List Instr}

theorem append (first : JumpsInside code) (second : JumpsInside rest) : JumpsInside (code ++ rest) := by
  intro i mem l target
  rcases List.mem_append.1 mem with mem | mem
  · exact List.mem_append_left _ (first i mem l target)
  · exact List.mem_append_right _ (second i mem l target)

theorem of_none (none : ∀ i ∈ code, i.target? = none) : JumpsInside code := by
  intro i mem l target
  rw [none i mem] at target
  cases target

theorem of_balanced {calls : Calls} {result : Int} {defined : List String}
    (balanced : Codegen.BalancedCode calls result [] defined code) : JumpsInside code := by
  intro i mem l target
  obtain ⟨p, line⟩ := List.getElem?_of_mem mem
  rcases balanced.level.jumps i _ l (mem_leveled line) target with label | ⟨exit, -⟩
  · obtain ⟨q, line', -⟩ := exists_of_mem_leveled label
    exact List.mem_of_getElem? line'
  · cases exit

end JumpsInside

/-- A block whose jumps stay inside and that ends in the given line. -/
structure ClosedBlock (ending : Instr) (block : List Instr) : Prop where
  jumps : JumpsInside block
  last : block.getLast? = some ending

namespace ClosedBlock

variable {ending : Instr} {block : List Instr} (closed : ClosedBlock ending block)
  (stops : ending.fallsThrough = false)
include closed stops

theorem next_lt {p q : Nat} (next : Next block p q) : q < block.length := by
  cases next with
  | on line falls =>
    have inside := (List.getElem?_eq_some_iff.1 line).1
    by_cases isLast : p + 1 = block.length
    · have last := closed.last
      rw [List.getLast?_eq_getElem?, ← isLast, Nat.add_sub_cancel, line] at last
      obtain rfl := Option.some.inj last
      rw [stops] at falls
      cases falls
    · omega
  | jump _ _ position => exact (List.findIdx?_eq_some_iff_getElem.1 position).1

/-- Control never runs over the end of the block. -/
theorem path_lt {p q : Nat} {visited : List Nat} (path : Path block p visited q)
    (inside : p < block.length) : q < block.length := by
  induction path with
  | here _ => exact inside
  | step next _ ih => exact ih (closed.next_lt stops next)

end ClosedBlock

/-- The block of a function, made of its lines and of the return behind them. -/
structure FunctionBlock (functions : List Signature) (g : Signature) (lines block : List Instr) :
    Prop where
  ends : block = lines ∨ block = lines ++ [.ret] ∧ lines.getLast? ≠ some .ret
  begins : lines.head? = some (.label (functionLabel g.name))
  level : Level (Signature.calls functions) (if g.returnsValue then 1 else 0) noExit g.params.length
    lines 0
  returns : Codegen.ReturnsPushed (if g.returnsValue then 1 else 0) lines
  nodup : (Instr.labels lines).Nodup

namespace Codegen

variable {ctx : Context} {s s' s'' : State}

/-! ## Walking the blocks -/

/-- What the main function adds to the labels of the first block. -/
def mainNames (p : Program) : List String :=
  ((p.functions.find? (·.name == "main")).map (·.name)).toList

theorem mainNames_nodup_main (p : Program) : (mainNames p).Nodup := by
  unfold mainNames
  cases p.functions.find? (·.name == "main") <;> simp

/-- The names that the labels of functions are made from are told apart. -/
theorem mainNames_nodup {p : Program} (different : (p.functions.map (·.name)).Nodup) :
    (mainNames p ++ (p.functions.filter (·.name != "main")).map (·.name)).Nodup := by
  have others : ((p.functions.filter (·.name != "main")).map (·.name)).Nodup :=
    (List.filter_sublist.map _).nodup different
  unfold mainNames
  cases isMain : p.functions.find? (·.name == "main") with
  | none => exact others
  | some f =>
    have name : f.name = "main" := by simpa using List.find?_some isMain
    refine List.nodup_cons.2 ⟨fun mem => ?_, others⟩
    obtain ⟨g, listed, same⟩ := List.mem_map.1 mem
    have notMain : g.name ≠ "main" := by simpa using (List.mem_filter.1 listed).2
    exact notMain (same.trans name)

theorem mainNames_subset (p : Program) :
    mainNames p ++ (p.functions.filter (·.name != "main")).map (·.name) ⊆ p.functions.map (·.name) := by
  refine List.append_subset.2 ⟨fun name mem => ?_, (List.filter_sublist.map _).subset⟩
  obtain ⟨f, isMain, rfl⟩ := Option.map_eq_some_iff.1 (Option.mem_toList.1 mem)
  exact List.mem_map_of_mem (List.mem_of_find?_eq_some isMain)

/-- What blocks add to a contract: their labels are those of the functions `names` and new ones. -/
structure Adds (ctx : Context) (names : List String) (s : State) (code : List Instr) (s' : State) :
    Prop where
  valid : s'.Valid
  known : Known ctx.functions s'
  grows : s.table.Grows s'.table
  labelled : LabelledCode ctx.settings ctx.randomId s.labels names code s'.labels

theorem Adds.le {names : List String} {code : List Instr} (adds : Adds ctx names s code s') :
    s.labels ≤ s'.labels := by
  obtain ⟨inner, numbered, -⟩ := adds.labelled
  exact numbered.le

theorem Adds.trans {names names' : List String} {code rest : List Instr}
    (first : Adds ctx names s code s') (second : Adds ctx names' s' rest s'') :
    Adds ctx (names ++ names') s (code ++ rest) s'' :=
  ⟨second.valid, second.known, first.grows.trans second.grows, first.labelled.append second.labelled⟩

/-- Sentences outside of loops, in any function. -/
theorem sentences_adds (ss : List Sentence) (function : Option String) (outside : ctx.loop = none)
    (valid : s.Valid) (known : Known ctx.functions s) :
    (sentences ss).Ends { ctx with function := function } s fun _ code s' => Adds ctx [] s code s' ∧
      BalancedCode (Signature.calls ctx.functions) ({ ctx with function := function } : Context).result
        [] [] code := by
  let ctx' : Context := { ctx with function := function }
  have noExits : ctx'.loopExits = [] := by
    rw [Context.loopExits, show ctx'.loop = none from outside]
  refine ((sentences_tame ss ctx' s valid).and (sentences_balanced ss ctx' s known)).mono ?_
  rintro _ code s' ⟨extends', known', balanced⟩
  rw [noExits] at balanced
  exact ⟨⟨extends'.valid, known', extends'.grows, .of_numbered extends'.numbered⟩, balanced⟩

theorem firstBlock_ends (p : Program) (outside : ctx.loop = none) (valid : s.Valid)
    (known : Known ctx.functions s) : (firstBlock p).Ends ctx s fun _ code s' =>
      Adds ctx (mainNames p) s code s' ∧ ClosedBlock .finish code := by
  have finish : JumpsInside [.finish] := .of_none (by simp [Instr.target?])
  refine .bind ((sentences_adds p.globals ctx.function outside valid known).mono ?_)
  rintro _ c₁ s₁ ⟨adds₁, balanced₁⟩
  unfold mainNames
  split
  · rename_i f isMain
    rw [isMain]
    unfold mainFunction
    split
    · refine .bind (.bind (.emit (.bind (.emit (.within ((sentences_adds f.body (some f.name) outside
        adds₁.valid adds₁.known).mono ?_))))))
      rintro _ c₂ s₂ ⟨adds₂, balanced₂⟩
      have start : JumpsInside [.label (functionLabel f.name), .resetStart] :=
        .of_none (by simp [Instr.target?])
      refine .emit ⟨⟨adds₂.valid, adds₂.known, adds₁.grows.trans adds₂.grows, ?_⟩, ?_, ?_⟩
      · have labelled := adds₁.labelled.append (((LabelledCode.function f.name s₁.labels).append
          ((LabelledCode.line .resetStart s₁.labels).append adds₂.labelled)).append
            (.line .finish s₂.labels))
        simpa using labelled
      · exact (JumpsInside.of_balanced balanced₁).append
          ((start.append (.of_balanced balanced₂)).append finish)
      · rw [← List.append_assoc]
        exact List.getLast?_concat
    · exact .bind (.fail _)
  · rename_i noMain
    rw [noMain]
    refine .bind (.pure (.emit ⟨⟨adds₁.valid, adds₁.known, adds₁.grows, ?_⟩, ?_, by simp⟩))
    · have labelled := adds₁.labelled.append (.line .finish s₁.labels)
      simpa using labelled
    · exact (JumpsInside.of_balanced balanced₁).append finish

/-- The block of a function: that of its signature, unless it is the main function. -/
structure BlockOf (ctx : Context) (f : FunctionDef) (high : Nat) (block : List Instr) : Prop where
  head : block.head? = some (.label (functionLabel f.name))
  signed : ∀ g, Signature.find? ctx.functions f.name = some g → f.name ≠ "main" →
    LabelId.Distinct ctx.settings ctx.randomId high → ∃ lines, FunctionBlock ctx.functions g lines block

theorem functionBlock_ends (f : FunctionDef) (outside : ctx.loop = none) (valid : s.Valid)
    (known : Known ctx.functions s) : (functionBlock f).Ends ctx s fun block _ s' =>
      Adds ctx [f.name] s block s' ∧ ClosedBlock .ret block ∧ BlockOf ctx f s'.labels block := by
  have valid₀ : State.Valid { s with lastComment := none } := ⟨valid.table, valid.pool⟩
  refine .bind (.modifyState (.bind (.of rfl (.bind (.capture (.within
    ((sentences_adds f.body (some f.name) outside valid₀ known).mono ?_)))))))
  rintro _ body s' ⟨adds, balanced⟩
  generalize isParams : ((Signature.find? ctx.functions f.name).map (·.params)).getD [] = params
  generalize isLines : .label (functionLabel f.name) :: params.map .pop ++ body = lines
  have inside : JumpsInside lines := by
    rw [← isLines]
    refine JumpsInside.append (.of_none ?_) (.of_balanced balanced)
    simp [Instr.target?]
  have labelled : LabelledCode ctx.settings ctx.randomId s.labels [f.name] lines s'.labels := by
    have pops : Instr.labels (params.map Instr.pop) = [] := by simp [Instr.labels]
    rw [← isLines]
    exact ((LabelledCode.function f.name s.labels).append (.of_labels_nil pops s.labels)).append
      adds.labelled
  have head : lines.head? = some (.label (functionLabel f.name)) := by
    rw [← isLines]
    rfl
  have signed : ∀ g, Signature.find? ctx.functions f.name = some g → f.name ≠ "main" →
      LabelId.Distinct ctx.settings ctx.randomId s'.labels →
        ∀ block, block = lines ∨ block = lines ++ [.ret] ∧ lines.getLast? ≠ some .ret →
          FunctionBlock ctx.functions g lines block := by
    intro g found notMain distinct block ends
    have sameName : g.name = f.name := by simpa using List.find?_some found
    have result : ({ ctx with function := some f.name } : Context).result =
        if g.returnsValue then 1 else 0 := by
      have called : ({ ctx with function := some f.name } : Context).called = some f.name := by
        simp [Context.called, notMain]
      rw [Context.result, called]
      simp [found]
    rw [found] at isParams
    obtain rfl : g.params = params := isParams
    rw [result] at balanced
    refine ⟨ends, sameName ▸ head, ?_, ?_, labelled.nodup (List.nodup_singleton _) distinct⟩
    · have entry : Level (Signature.calls ctx.functions) (if g.returnsValue then 1 else 0) noExit
          g.params.length [.label (functionLabel f.name)] g.params.length :=
        .of_plain (by simp [Instr.isPlain]) (by omega)
      have pops : Level (Signature.calls ctx.functions) (if g.returnsValue then 1 else 0) noExit
          g.params.length (g.params.map .pop) 0 := by
        simpa using Level.pops g.params (Int.le_refl 0)
      have inner : Level (Signature.calls ctx.functions) (if g.returnsValue then 1 else 0) noExit 0
          body 0 := balanced.level.widen fun l x exits => by cases exits.1
      rw [← isLines]
      exact (entry.append pops).append inner
    · rw [← isLines]
      refine .append (.of_not_mem ?_) balanced.returns
      simp
  refine .pure ?_
  rw [isLines]
  split
  · rename_i isLast
    exact ⟨⟨adds.valid, adds.known, adds.grows, labelled⟩, ⟨inside, isLast⟩, head,
      fun g found notMain distinct => ⟨lines, signed g found notMain distinct _ (.inl rfl)⟩⟩
  · rename_i notLast
    have closed := inside.append (.of_none (by simp [Instr.target?]) : JumpsInside [.ret])
    refine ⟨⟨adds.valid, adds.known, adds.grows, labelled.append (.line .ret s'.labels)⟩,
      ⟨closed, List.getLast?_concat⟩, by rw [List.head?_append, head]; rfl, fun g found notMain distinct => ?_⟩
    exact ⟨lines, signed g found notMain distinct _ (.inr ⟨rfl, notLast⟩)⟩

theorem functionBlocks_ends (fs : List FunctionDef) (outside : ctx.loop = none) (valid : s.Valid)
    (known : Known ctx.functions s) : (functionBlocks fs).Ends ctx s fun blocks _ s' =>
      Adds ctx (fs.map (·.name)) s blocks.flatten s' ∧ (∀ block ∈ blocks, ClosedBlock .ret block) ∧
      ∀ f ∈ fs, ∃ block ∈ blocks, BlockOf ctx f s'.labels block := by
  induction fs generalizing s with
  | nil => exact .pure ⟨⟨valid, known, .refl _, .of_labels_nil rfl _⟩, by simp, by simp⟩
  | cons f fs ih =>
    refine .bind ((functionBlock_ends f outside valid known).mono ?_)
    rintro block _ s₁ ⟨adds, closed, isBlock⟩
    refine .bind ((ih adds.valid adds.known).mono ?_)
    rintro blocks _ s₂ ⟨adds', closed', areBlocks⟩
    refine .pure ⟨adds.trans adds', List.forall_mem_cons.2 ⟨closed, closed'⟩, List.forall_mem_cons.2 ⟨?_, ?_⟩⟩
    · exact ⟨block, List.mem_cons_self, isBlock.head, fun g found notMain distinct =>
        isBlock.signed g found notMain (distinct.mono adds'.le)⟩
    · intro f' mem
      obtain ⟨block', mem', isBlock'⟩ := areBlocks f' mem
      exact ⟨block', List.mem_cons_of_mem _ mem', isBlock'⟩

/-- The state before any code is valid. -/
theorem State.ofLayout_valid {l : Layout} (valid : l.table.Valid) : (State.ofLayout l).Valid :=
  ⟨valid, Pool.slots_ofTable l.table⟩

theorem State.ofLayout_known (l : Layout) : Known l.functions (.ofLayout l) := by
  simp [Known, State.ofLayout]

/-- The blocks of a contract: `first`, after which the state is `s₁`, and those of its functions. -/
structure Blocks (ctx : Context) (p : Program) (s : State) (first : List Instr) (s₁ : State)
    (others : List (List Instr)) (s' : State) : Prop where
  isFirst : firstBlock p ctx s = .done () first s₁
  main : Adds ctx (mainNames p) s first s₁
  finish : ClosedBlock .finish first
  rest : Adds ctx ((p.functions.filter (·.name != "main")).map (·.name)) s₁ others.flatten s'
  returns : ∀ block ∈ others, ClosedBlock .ret block
  functions : ∀ f ∈ p.functions, f.name ≠ "main" → ∃ block ∈ others, BlockOf ctx f s'.labels block

theorem Blocks.jumps {p : Program} {s₁ : State} {first : List Instr} {others : List (List Instr)}
    (split : Blocks ctx p s first s₁ others s') : ∀ block ∈ first :: others, JumpsInside block :=
  List.forall_mem_cons.2 ⟨split.finish.jumps, fun block mem => (split.returns block mem).jumps⟩

theorem blocks_split {p : Program} {settings : Settings} {l : Layout} {randomId : Nat → String}
    {blocks : List (List Instr)} {code : List Instr} (isLayout : Layout.ofProgram p settings = .ok l)
    (compiled : Codegen.blocks p ⟨settings, l.functions, randomId, none, none, false⟩ (.ofLayout l) =
      .done blocks code s') : ∃ first others s₁, blocks = first :: others ∧
      Blocks ⟨settings, l.functions, randomId, none, none, false⟩ p (.ofLayout l) first s₁ others s' := by
  have valid := State.ofLayout_valid (Layout.ofProgram_laid p settings l isLayout).valid
  have ends : (Codegen.blocks p).Ends ⟨settings, l.functions, randomId, none, none, false⟩ (.ofLayout l)
      fun blocks _ s' => ∃ first others s₁, blocks = first :: others ∧ Blocks
        ⟨settings, l.functions, randomId, none, none, false⟩ p (.ofLayout l) first s₁ others s' := by
    refine .bind (.capture fun _ first s₁ isFirst => ?_)
    obtain ⟨adds, closed⟩ := firstBlock_ends p rfl valid (State.ofLayout_known l) _ _ _ isFirst
    refine .bind ((functionBlocks_ends _ rfl adds.valid adds.known).mono ?_)
    rintro others _ s₂ ⟨adds', closed', areBlocks⟩
    refine .pure ⟨first, others, s₁, rfl, isFirst, adds, closed, adds', closed', fun f mem notMain => ?_⟩
    exact areBlocks f (List.mem_filter.2 ⟨mem, by simpa using notMain⟩)
  exact ends _ _ _ compiled

end Codegen

end ContractCompiler
