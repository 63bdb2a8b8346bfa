import ContractCompiler.Assembly
import ContractCompiler.Proofs.Sentence.Keep
import ContractCompiler.Proofs.Variation.Layout
import ContractCompiler.Proofs.Variation.Node

/-!
# Proofs.Variation.Sentence — whole contracts agree

Phrases and conditions agree if they take no address, or if no register is added (`Pairing.phrase_agrees`,
`Pairing.condition_agrees`), and then the sentences that are woven from them agree (`Pairing.woven_agrees`).
The blocks of a contract then differ in labels, and in the comments if the second compilation has none
(`Pairing.blocks_agree`). There is one place where finished code is looked at: a function is given a return
at its end, unless its last line is one (`Instr.closed`).
-/

namespace ContractCompiler

set_option autoImplicit false

/-- The code of a function with a return at its end. -/
def Instr.closed (code : List Instr) : List Instr := if code.getLast? = some .ret then code else code ++ [.ret]

/-- The address of something is taken somewhere in the contract. -/
def Program.takesAddress (p : Program) : Bool :=
  p.phrases.any (fun q => Phrase.readsAddress q.1 q.2) || p.conditions.any fun q => Expr.readsAddress q.1 q.2

namespace Pairing

open Codegen Variation

variable {v : Pairing}

/-! ## Phrases -/

theorem command_line (c : Command) : (v.command c).line = c.line := by
  cases c with
  | control word value line => rfl
  | value node => exact v.node_line node

theorem controlValue_agrees (word : Control) (value : Option Node) (line : Nat) :
    v.Agree (fun found found' => found' = found.map v.node) (controlValue word value line)
      (controlValue word (value.map v.node) line) := by
  refine .bind .calledFunction ?_
  rintro function _ rfl
  cases word with
  | return_ =>
    cases function with
    | none => exact .pure rfl
    | some function =>
      refine .bind .context fun ctx ctx' contexts => ?_
      rw [contexts.functions]
      dsimp only
      cases ((Signature.find? ctx.functions function).map Signature.returnsValue).getD false with
      | false =>
        cases value with
        | none => exact .pure rfl
        | some node => exact .fail _
      | true =>
        cases value with
        | none => exact .fail _
        | some node => exact .pure rfl
  | _ => exact .pure rfl

theorem command_agrees (c : Command) : v.Agree Eq (Codegen.command c) (Codegen.command (v.command c)) := by
  cases c with
  | value node => exact (code_agrees node).effect
  | control word value line =>
    refine .bind (controlValue_agrees word value line) ?_
    rintro found _ rfl
    cases found with
    | none => exact control_agrees line word none
    | some node =>
      refine .bind (eval_agrees node) ?_
      rintro o _ rfl
      exact .bind (control_agrees line word (some o.slot)) fun _ _ _ => .release o.holds

/-- Fixing contents moves no element. -/
theorem Small.freeze {t : SlotTable} (small : v.Small t) (line : Nat) (code : List Instr) :
    v.Small (t.freeze line code).1 := by
  refine small.imp_right fun small s' stored isLong => ?_
  obtain ⟨s, stored, becomes⟩ := (t.freeze_fixes line code).origin stored
  rw [becomes.address]
  exact small s stored (becomes.kind ▸ isLong)

theorem freeze_agrees {code code' : List Instr} (lines : List.Forall₂ v.Lines code code') (line : Nat) :
    v.Agree Eq (Codegen.freeze code line) (Codegen.freeze code' line) := by
  refine .bind .table fun t t' related => ?_
  obtain ⟨tables, small⟩ := related
  have stay : ∀ directives, (t.freeze line code).2 = .ok directives → v.Code directives directives := by
    intro directives frozen
    refine .refl fun i mem => ?_
    obtain ⟨-, -, -, dest, hex, -, rfl⟩ := (SlotTable.freeze_sets frozen).2 _ mem
    exact ⟨rfl, rfl, rfl⟩
  have frozen := tables.freeze line lines
  have stillSmall := small.freeze line code
  -- what a refusal leaves in the table matters to nobody, so the outcomes come first
  generalize t.freeze line code = made at frozen stillSmall stay
  generalize t'.freeze line code' = made' at frozen
  obtain ⟨t₁, result⟩ := made
  obtain ⟨t₁', result'⟩ := made'
  cases result with
  | ok directives =>
    obtain ⟨_, isResult, rfl, tables₁⟩ := frozen
    obtain rfl : result' = .ok _ := isResult
    refine .bind (.modifyState fun s s' states => ?_) fun _ _ _ => .emitAll (stay _ rfl)
    exact { states with tables := tables₁, small := stillSmall }
  | error e =>
    intro ctx ctx' s s' _ _ none
    obtain rfl : result' = .error e := frozen none
    exact ⟨_, rfl⟩

/-- What a phrase does is looked at before its code is emitted. There is no comment in it. -/
theorem phrase_agrees (loud : ¬ v.quiet) (tokens : List Token) (isConst : Bool) (line : Nat)
    (allowed : v.extra = 0 ∨ Phrase.readsAddress tokens line = false) :
    v.Agree Eq (phrase tokens isConst line) (phrase tokens isConst line) := by
  refine .bind .names fun names names' namings => .bind (.ofOutcome (namings.phrase tokens line allowed)) ?_
  rintro bound _ rfl
  cases bound with
  | none => exact .pure rfl
  | some bound =>
    dsimp only [Option.map_some]
    rw [command_line]
    let w : Pairing := { v with quiet := True }
    have code : w.Agree _ _ _ := .capture (.bind (command_agrees bound) fun _ _ _ =>
      .bind (applyDeferred_agrees bound.line eval_agrees 0) fun _ _ _ => .checkRegisters bound.line)
    refine .bind (.comment loud bound.line) fun _ _ _ => .bind code.ofQuiet ?_
    rintro ⟨_, code⟩ ⟨_, code'⟩ ⟨_, related⟩
    dsimp only
    split
    · have lines : List.Forall₂ v.Lines (w.visible code) code' := related.lines
      rw [visible_of_none (related.quiet trivial)] at lines
      exact freeze_agrees lines bound.line
    · exact .emitAll related.ofQuiet

theorem condition_agrees (tokens : List Token) (line : Nat)
    (allowed : v.extra = 0 ∨ Expr.readsAddress tokens line = false) :
    v.Jumps (condition tokens · · line) (condition tokens · · line) := by
  intro target target' when labels
  refine .bind .names fun names names' namings =>
    .bind (.ofOutcome (namings.condition tokens line allowed)) ?_
  rintro node _ rfl
  have jumps := (code_agrees (v := v) node).jump target target' when labels
  refine .bind (.within (fun ctx ctx' contexts => ?_) jumps) fun _ _ _ => .checkRegisters line
  exact { contexts with inCondition := rfl }

/-! ## Sentences -/

/-- Sentences that are woven alike agree. -/
theorem woven_agrees (loud : ¬ v.quiet) {exits labels : List String} {m m' : Codegen Unit}
    (woven : Woven v.id (fun tokens line => v.extra = 0 ∨ Phrase.readsAddress tokens line = false)
      (fun tokens line => v.extra = 0 ∨ Expr.readsAddress tokens line = false) exits labels m m') :
    v.Agree Eq m m' := by
  induction woven with
  | phrase allowed isConst => exact phrase_agrees loud _ isConst _ allowed
  | condition allowed mark ids when _ => exact condition_agrees _ _ allowed _ _ when (.mark mark ids)
  | nothing => exact .pure rfl
  | andThen _ _ ih ih' => exact .bind ih fun _ _ _ => ih'
  | labelId _ _ _ ih => exact .bind (.labelId _) ih
  | label mark ids _ ih => exact .bind (.emit (.label (.mark mark ids)) rfl) fun _ _ _ => ih
  | lastLabel mark ids => exact .emit (.label (.mark mark ids)) rfl
  | jump mark ids _ => exact .emit (.jump (.mark mark ids)) rfl
  | comment line => exact .comment loud line
  | loop ids _ _ ih => exact .within (fun _ _ contexts => { contexts with loop := .some (.stem ids) }) ih

/-! ## Contracts -/

theorem function_agrees (f : FunctionDef) {body : Codegen Unit} (inner : v.Agree Eq body body) :
    v.Agree Eq (within ({ · with function := some f.name }) body)
      (within ({ · with function := some f.name }) body) :=
  .within (fun _ _ contexts => { contexts with function := rfl }) inner

theorem mainFunction_agrees (f : FunctionDef) (bodies : v.Agree Eq (sentences f.body) (sentences f.body)) :
    v.Agree Eq (mainFunction f) (mainFunction f) := by
  unfold mainFunction
  split
  · exact .bind (.emit (.function f.name) rfl) fun _ _ _ => .bind (.same rfl rfl rfl) fun _ _ _ =>
      function_agrees f bodies
  · exact .fail _

/-- Blocks that are closed from code that belongs together. -/
def Closed (v : Pairing) (block block' : List Instr) : Prop :=
  ∃ code code', block = Instr.closed code ∧ block' = Instr.closed code' ∧ v.Code code code'

theorem functionBlock_agrees (f : FunctionDef)
    (bodies : v.Agree Eq (sentences f.body) (sentences f.body)) :
    v.Agree v.Closed (functionBlock f) (functionBlock f) := by
  refine .bind (.modifyState fun s s' states => { states with lastComment := (ite_self _).symm }) fun _ _ _ =>
    .bind .context fun ctx ctx' contexts => .bind (.capture (function_agrees f bodies)) ?_
  rintro ⟨_, body⟩ ⟨_, body'⟩ ⟨_, lines⟩
  rw [contexts.functions]
  refine .pure ⟨_, _, rfl, rfl, ?_⟩
  exact .append (.append (.line (.function f.name) rfl) (.map (fun _ => ⟨rfl, rfl, rfl⟩) _)) lines

section Program

variable {p : Program} (loud : ¬ v.quiet) (allowed : v.extra = 0 ∨ p.takesAddress = false)
include loud allowed

/-- What is written anywhere in the contract agrees. -/
theorem sentences_agree (ss : List Sentence) (phrases : ∀ q ∈ Sentence.allPhrases ss, q ∈ p.phrases)
    (conditions : ∀ q ∈ Sentence.allConditions ss, q ∈ p.conditions) :
    v.Agree Eq (sentences ss) (sentences ss) := by
  rw [Program.takesAddress, Bool.or_eq_false_iff, or_and_left, List.any_eq_false, List.any_eq_false] at allowed
  refine woven_agrees loud (sentences_woven ss (fun q mem => ?_) fun q mem => ?_ : Woven _ _ _ [] _ _ _)
  · exact allowed.1.imp_right fun none => by simpa using none q (phrases q mem)
  · exact allowed.2.imp_right fun none => by simpa using none q (conditions q mem)

theorem bodies_agree {f : FunctionDef} (listed : f ∈ p.functions) :
    v.Agree Eq (sentences f.body) (sentences f.body) :=
  sentences_agree loud allowed f.body
    (fun _ mem => List.mem_append_right _ (List.mem_flatMap.2 ⟨f, listed, mem⟩))
    fun _ mem => List.mem_append_right _ (List.mem_flatMap.2 ⟨f, listed, mem⟩)

theorem firstBlock_agrees : v.Agree Eq (firstBlock p) (firstBlock p) := by
  refine .bind (sentences_agree loud allowed p.globals (fun _ => List.mem_append_left _)
    fun _ => List.mem_append_left _) fun _ _ _ => ?_
  cases isMain : p.functions.find? (·.name == "main") with
  | none => exact .bind (.pure (R := Eq) rfl) fun _ _ _ => .same rfl rfl rfl
  | some f =>
    have bodies := bodies_agree loud allowed (List.mem_of_find?_eq_some isMain)
    exact .bind (mainFunction_agrees f bodies) fun _ _ _ => .same rfl rfl rfl

theorem functionBlocks_agree {fs : List FunctionDef} (listed : ∀ f ∈ fs, f ∈ p.functions) :
    v.Agree (List.Forall₂ v.Closed) (functionBlocks fs) (functionBlocks fs) := by
  induction fs with
  | nil => exact .pure .nil
  | cons f rest ih =>
    obtain ⟨first, listed⟩ := List.forall_mem_cons.1 listed
    refine .bind (functionBlock_agrees f (bodies_agree loud allowed first)) fun _ _ closed => ?_
    exact .bind (ih listed) fun _ _ others => .pure (.cons closed others)

/-- The blocks of a contract agree if it takes no address, or if no register is added. -/
theorem blocks_agree : v.Agree (fun blocks blocks' => ∃ first first' others others',
    blocks = first :: others ∧ blocks' = first' :: others' ∧ v.Code first first' ∧
      List.Forall₂ v.Closed others others') (blocks p) (blocks p) := by
  refine .bind (.capture (firstBlock_agrees loud allowed)) ?_
  rintro ⟨_, first⟩ ⟨_, first'⟩ ⟨_, lines⟩
  refine .bind (functionBlocks_agree loud allowed fun f mem => List.mem_of_mem_filter mem) ?_
  exact fun _ _ others => .pure ⟨_, _, _, _, rfl, rfl, lines, others⟩

end Program

/-! ## Comments in both compilations -/

/-- The end of a block returns in both compilations, or in none. -/
theorem getLast?_eq_ret {code code' : List Instr} (lines : List.Forall₂ v.Lines code code') :
    code'.getLast? = some .ret ↔ code.getLast? = some .ret := by
  have same : ∀ i i', v.Lines i i' → (i' = .ret ↔ i = .ret) := by
    rintro _ _ (_ | _ | _ | _ | _ | _ | _)
    · rfl
    all_goals simp
  rw [← List.head?_reverse, ← List.head?_reverse]
  have reversed := List.forall₂_reverse_iff.2 lines
  generalize code.reverse = back, code'.reverse = back' at reversed
  cases reversed with
  | nil => rfl
  | cons first rest => simpa using same _ _ first

theorem Closed.lines (full : v.bare = false) {block block' : List Instr} (closed : v.Closed block block') :
    List.Forall₂ v.Lines block block' := by
  obtain ⟨code, code', rfl, rfl, lines, -⟩ := closed
  rw [visible, full, if_neg Bool.false_ne_true] at lines
  unfold Instr.closed
  rw [if_congr (getLast?_eq_ret lines) rfl rfl]
  split
  · exact lines
  · exact List.rel_append lines (.cons (.same rfl rfl) .nil)

/-- With the comments in both compilations, the blocks differ in labels only. -/
theorem program_agrees (loud : ¬ v.quiet) (full : v.bare = false) {p : Program}
    (allowed : v.extra = 0 ∨ p.takesAddress = false) :
    v.Agree (List.Forall₂ (List.Forall₂ v.Lines)) (blocks p) (blocks p) := by
  refine (blocks_agree loud allowed).mono ?_
  rintro _ _ ⟨first, first', others, others', rfl, rfl, ⟨lines, -⟩, closed⟩
  rw [visible, full, if_neg Bool.false_ne_true] at lines
  exact .cons lines (closed.imp fun _ _ => Closed.lines full)

/-- An assembly of the first compilation and that of the second. -/
structure Assemblies (v : Pairing) (a a' : Assembly) : Prop where
  blocks : List.Forall₂ (List.Forall₂ v.Lines) a.blocks a'.blocks
  tables : v.Tables a.table a'.table

/-- The assembly of a contract that was laid out twice. -/
theorem assembly_agrees {p : Program} {l l' : Layout} {settings settings' : Settings}
    {randomId randomId' : Nat → String} (loud : ¬ v.quiet) (full : v.bare = false) (layouts : v.Layouts l l')
    (small : v.Small l.table) (allowed : v.extra = 0 ∨ p.takesAddress = false)
    (contexts : v.Contexts ⟨settings, l.functions, randomId, none, none, false⟩
      ⟨settings', l'.functions, randomId', none, none, false⟩) :
    v.Outcomes v.Assemblies (Assembly.ofProgram p l settings randomId)
      (Assembly.ofProgram p l' settings' randomId') := by
  have related := program_agrees loud full allowed _ _ (.ofLayout l) (.ofLayout l') contexts
    ⟨layouts.tables, small, layouts.tables.pools, rfl, rfl, (ite_self _).symm⟩
  unfold Assembly.ofProgram
  cases ends : blocks p ⟨settings, l.functions, randomId, none, none, false⟩ (.ofLayout l) with
  | done code _ s =>
    rw [ends] at related
    obtain ⟨code', _, s', ends', lines, -, states'⟩ := related
    rw [ends']
    exact .ok ⟨lines, states'.tables⟩
  | failed e s =>
    rw [ends] at related
    intro none
    obtain ⟨s', ends'⟩ := related none
    rw [ends']

end Pairing

end ContractCompiler
