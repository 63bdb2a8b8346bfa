import ContractCompiler.Proofs.Bind
import ContractCompiler.Proofs.Sentence.Growth
import ContractCompiler.Proofs.Sentence.Keep

/-!
# Proofs.Sentence.Refers — the code of a contract names cells of the table

Names are bound to slots of the table, so that the code of phrases and conditions names cells of the
table. A phrase that fixes contents fixes each variable once, and none that was fixed before. Both
carry over to the blocks of a contract (`Codegen.blocks_refer`).
-/

namespace ContractCompiler

set_option autoImplicit false

open Outcome (Ensures)

/-! ## Bound phrases -/

theorem Node.allSlots_isNamed {t : SlotTable} {es : List Expr} {ns : List Node}
    (named : List.Forall₂ (fun _ n => n.IsNamed t) es ns) : ∀ s ∈ allSlots ns, s.IsNamed t := by
  induction named with
  | nil => simp [allSlots]
  | cons first _ ih => exact List.forall_mem_append.2 ⟨first, ih⟩

namespace Names

variable {names : Names} {l : SlotTable}

/-- Names are bound to cells. -/
theorem relates_isNamed (laid : l.Laid) (derives : l.Derives names.table) (valid : names.table.Valid) :
    names.Relates (fun _ => True) False fun _ n => n.IsNamed names.table where
  stored _ s _ _ stored _ hasCell := List.forall_mem_singleton.2 (.inr ⟨s, stored, hasCell, rfl⟩)
  member _ name field nameLine line _ _ := by
    refine .of_ensures ((names.memberSlot_ensures valid (fun s stored => derives.hasMembers laid.structVariables stored) name
      nameLine field line).mono ?_)
    rintro _ ⟨e, stored, long, rfl⟩
    exact List.forall_mem_singleton.2 (.inr ⟨e, stored, by simp [long], rfl⟩)
  literal _ value _ _ := List.forall_mem_singleton.2 (.literal value)
  view _ _ _ _ _ _ _ _ named isBase _ _ := by
    obtain ⟨_, rfl, notLiteral, -⟩ := Node.base?_eq isBase
    have has := (List.forall_mem_singleton.1 named).hasName notLiteral
    exact List.forall_mem_singleton.2 (.inr has)
  deref _ _ _ named _ := named
  lookup _ _ _ named named' _ _ := List.forall_mem_append.2 ⟨named, named'⟩
  arrow _ value _ _ _ named _ :=
    List.forall_mem_append.2 ⟨named, List.forall_mem_singleton.2 (.literal value)⟩
  prefixed _ _ _ _ _ _ named := named
  stepped _ _ _ _ named := named
  assign _ _ _ _ named named' := List.forall_mem_append.2 ⟨named, named'⟩
  binary _ _ _ named named' := List.forall_mem_append.2 ⟨named, named'⟩
  compare _ _ _ named named' := List.forall_mem_append.2 ⟨named, named'⟩
  logic _ _ _ named named' := List.forall_mem_append.2 ⟨named, named'⟩
  ternary _ named namedYes namedNo :=
    List.forall_mem_append.2 ⟨named, List.forall_mem_append.2 ⟨namedYes, namedNo⟩⟩
  call {_ _ _ callee _} _ _ named := by
    have all := Node.allSlots_isNamed named
    cases callee with
    | inl f => exact all
    | inr c => exact all

end Names

namespace Codegen

/-! ## The code of commands -/

section Commands

variable {strict : Prop} {ctx : Context} {s : State} {c : Command}

theorem command_runs (ready : s.Ready strict) (named : ∀ n, c.node? = some n → n.IsNamed s.table)
    (sound : strict → c.Sound s.table) :
    ((command c).Ends ctx s fun _ code s' => s.Runs strict code s') ∧
      (command c ctx s).Leaves (fun _ _ => True) fun e _ => strict → e.isInternal = false := by
  refine Made.runs c.node?.toList (fun W d inside isStrict fits => command_made ?_) ready fun n mem => ?_
  · have fits : ∀ n, c.node? = some n → W.Fits d n := by simpa using fits
    cases c with
    | value node => exact fits node rfl
    | control word operand line =>
      exact ⟨inside line, fun n isOperand => fits n isOperand, fun h => (sound (isStrict h)).2⟩
  · have isNode := Option.mem_toList.1 mem
    refine ⟨named n isNode, fun h => ?_⟩
    cases c with
    | value node => exact Option.some.inj isNode ▸ sound h
    | control word operand line => exact (sound h).1 n isNode

theorem applyDeferred_runs (ready : s.Ready strict) (line : Nat) :
    ((applyDeferred Node.eval 0 line).Ends ctx s fun _ code s' => s.Runs strict code s') ∧
      (applyDeferred Node.eval 0 line ctx s).Leaves (fun _ _ => True) fun e _ => strict → e.isInternal = false :=
  Made.runs [] (fun _ _ inside _ _ => applyDeferred_made Node.eval_made (inside line)) ready (by simp)

theorem jump_runs {n : Node} (ready : s.Ready strict) (readyNode : n.Ready strict s.table) (target : String)
    (when : Bool) : ((n.code.jump target when).Ends ctx s fun _ code s' => s.Runs strict code s') ∧
      (n.code.jump target when ctx s).Leaves (fun _ _ => True) fun e _ => strict → e.isInternal = false := by
  refine Made.runs [n] (fun W d _ _ fits => ?_) ready (List.forall_mem_singleton.2 readyNode)
  exact (Node.code_made (List.forall_mem_singleton.1 fits)).jump target when

/-- What a phrase does, with the steps that were put off. -/
theorem phraseCode_ends (ready : s.Ready strict) (named : ∀ n, c.node? = some n → n.IsNamed s.table)
    (sound : strict → c.Sound s.table) (line : Nat) :
    (do command c; applyDeferred Node.eval 0 line; checkRegisters line).Ends ctx s
      fun _ code s' => s.Runs strict code s' := by
  refine .bind ((command_runs ready named sound).1.mono fun _ code s₁ first => ?_)
  refine .bind ((applyDeferred_runs first.ready line).1.mono fun _ code' s₂ second => ?_)
  refine (checkRegisters_ends line).mono ?_
  rintro _ _ _ ⟨rfl, rfl⟩
  rw [List.append_nil]
  exact first.trans second

end Commands

end Codegen

/-- The variable that is loaded is an operand of the line. -/
theorem SlotTable.constantLoad_dest {t : SlotTable} {line : Nat} {i : Instr} {dest hex : String}
    (loads : t.constantLoad line i = .ok (dest, hex)) : dest ∈ i.operands := by
  cases i with
  | setLiteral _ _ | clear _ =>
    cases loads
    exact List.mem_cons_self
  | set _ src =>
    rw [constantLoad] at loads
    repeat' split at loads
    all_goals first | cases loads; exact List.mem_cons_self | cases loads
  | _ => cases loads

namespace Codegen

variable {l : SlotTable} {functions : List Signature}

/-- The lines name cells of the table that is there at their end, declare nothing, and fix variables that
were not fixed before. -/
structure State.Refers (s : State) (code : List Instr) (s' : State) : Prop where
  ready : s'.Ready False
  derives : s.table.Derives s'.table
  declares : Instr.declared code = []
  operands : ∀ i ∈ code, ∀ name ∈ i.operands, s'.table.HasName name
  legible : ∀ i ∈ code, i.isLegible = true
  fixes : s.table.FixesOnce code s'.table

namespace State.Refers

variable {s s' s'' : State} {code code' : List Instr}

theorem trans (first : s.Refers code s') (second : s'.Refers code' s'') : s.Refers (code ++ code') s'' where
  ready := second.ready
  derives := first.derives.trans second.derives
  declares := by rw [Instr.declared_append, first.declares, second.declares, List.append_nil]
  operands := List.forall_mem_append.2
    ⟨fun i mem name isOperand => (first.operands i mem name isOperand).mono second.derives, second.operands⟩
  legible := List.forall_mem_append.2 ⟨first.legible, second.legible⟩
  fixes := first.fixes.append second.fixes first.derives.grows second.derives.grows

theorem of_lines (ready : s'.Ready False) (derives : s.table.Derives s'.table)
    (lines : ∀ i ∈ code, i.isCode = true ∧ ∀ name ∈ i.operands, s'.table.HasName name) : s.Refers code s' where
  ready := ready
  derives := derives
  declares := List.filterMap_eq_nil_iff.2 fun i mem => Instr.declared?_of_isCode (lines i mem).1
  operands i mem := (lines i mem).2
  legible i mem := Instr.isLegible_of_isCode (lines i mem).1
  fixes := .of_none (List.filterMap_eq_nil_iff.2 fun i mem => Instr.fixed?_of_isCode (lines i mem).1)

theorem of_runs (runs : s.Runs False code s') : s.Refers code s' :=
  of_lines runs.ready runs.derives runs.lines

end State.Refers

/-- In a table that derives from `l`, the lines name cells. -/
def RefersFrom (l : SlotTable) (s : State) (code : List Instr) (s' : State) : Prop :=
  l.Derives s.table → s.Ready False → s.Refers code s'

theorem refersFrom_composes (l : SlotTable) : Composes (RefersFrom l) where
  marks {s s' code} areMarks table pool deferred derives ready := by
    refine .of_lines ⟨⟨table ▸ ready.valid.table, ?_⟩, fun step mem => ?_⟩ (table ▸ .refl _) ?_
    · rw [pool, table, ready.valid.pool]
    · rw [table]
      exact ready.deferred step (deferred ▸ mem)
    · intro i mem
      have isMark := areMarks i mem
      cases i with
      | label _ | jump _ | comment _ | ret | finish | resetStart => exact ⟨isMark, nofun⟩
      | _ => cases isMark
  trans first second derives ready := by
    have refers := first derives ready
    exact refers.trans (second (derives.trans refers.derives) refers.ready)

theorem condition_refersFrom (laid : l.Laid) (tokens : List Token) (target : String) (when : Bool)
    (line : Nat) : Keeps functions (RefersFrom l) (condition tokens target when line) := by
  intro ctx _ s
  refine .bind (.of rfl (.bind (.ofOutcome fun n isNode => ?_)))
  intro a code s' done derives ready
  have rules := (Names.relates_isNamed laid derives ready.valid.table :
    Names.Relates ⟨s.table, ctx.functions, ctx.function⟩ _ _ _)
  obtain ⟨e, namedN⟩ := Names.condition_relates rules isNode
  have ends : (do
      within ({ · with inCondition := true }) (n.code.jump target when)
      checkRegisters line).Ends ctx s fun _ code s' => s.Runs False code s' := by
    refine .bind (.within ((jump_runs ready ⟨namedN, False.elim⟩ target when).1.mono fun _ code s₁ runs => ?_))
    refine (checkRegisters_ends line).mono ?_
    rintro _ _ _ ⟨rfl, rfl⟩
    rwa [List.append_nil]
  exact .of_runs (ends a code s' done)

/-- Fixing what the lines load. -/
theorem freeze_refers (laid : l.Laid) {ctx : Context} {s : State} (derives : l.Derives s.table)
    (ready : s.Ready False) {code : List Instr}
    (lines : ∀ i ∈ code, i.isCode = true ∧ ∀ name ∈ i.operands, s.table.HasName name) (line : Nat) :
    (freeze code line).Ends ctx s fun _ directives s' => s.Refers directives s' := by
  obtain ⟨valid, grows, -⟩ := SlotTable.freeze_grows line code ready.valid.table
  refine .bind (.of rfl (.bind (.modifyState (.bind (.ofOutcome fun directives frozen => .emitAll ?_)))))
  obtain ⟨derives', fixes, legible⟩ := laid.freeze derives ready.valid.table frozen
  refine ⟨⟨⟨valid, ?_⟩, fun step mem => (ready.deferred step mem).mono derives'⟩, derives', ?_, ?_,
    legible fun i mem => Instr.isLegible_of_isCode (lines i mem).1, fixes⟩
  · exact ready.valid.pool.trans grows.registers.symm
  · refine List.filterMap_eq_nil_iff.2 fun directive mem => ?_
    obtain ⟨i, -, t', dest, hex, -, rfl⟩ := (SlotTable.freeze_sets frozen).2 _ mem
    rfl
  · intro directive mem
    obtain ⟨i, listed, t', dest, hex, loads, rfl⟩ := (SlotTable.freeze_sets frozen).2 _ mem
    have has := (lines i listed).2 dest (SlotTable.constantLoad_dest loads)
    exact List.forall_mem_singleton.2 (has.mono derives')

/-- The code of a bound phrase, run or fixed at the start. -/
theorem bound_refers (laid : l.Laid) {ctx : Context} {s : State} (derives : l.Derives s.table)
    (ready : s.Ready False) {c : Command} (namedC : ∀ n, c.node? = some n → n.IsNamed s.table) (isConst : Bool) :
    (do
      let ((), code) ← capture do
        command c
        applyDeferred Node.eval 0 c.line
        checkRegisters c.line
      if isConst then freeze code c.line else emitAll code : Codegen Unit).Ends ctx s
        fun _ code s' => s.Refers code s' := by
  refine .bind (.capture ((phraseCode_ends ready namedC False.elim c.line).mono fun _ lines s₁ runs => ?_))
  dsimp only
  split
  · refine (freeze_refers laid (derives.trans runs.derives) runs.ready runs.lines c.line).mono ?_
    intro _ directives s₂ frozen
    have before : s.Refers [] s₁ := .of_lines runs.ready runs.derives (by simp)
    exact before.trans frozen
  · exact .emitAll (.of_runs runs)

theorem phrase_refersFrom (laid : l.Laid) (tokens : List Token) (isConst : Bool) (line : Nat) :
    Keeps functions (RefersFrom l) (phrase tokens isConst line) := by
  intro ctx isContext s
  refine .bind (.of rfl (.bind (.ofOutcome fun found isFound => ?_)))
  cases found with
  | none => exact (refersFrom_composes l).pure () ctx isContext s
  | some c =>
    refine .bind (((refersFrom_composes l).comment c.line ctx isContext s).mono ?_)
    intro _ commentLine s₁ commented a code s' done derives ready
    have refers := commented derives ready
    have rules := (Names.relates_isNamed laid derives ready.valid.table :
      Names.Relates ⟨s.table, ctx.functions, ctx.function⟩ _ _ _)
    have namedC : ∀ n, c.node? = some n → n.IsNamed s₁.table := by
      intro n isNode
      obtain ⟨p, -, bound⟩ := Names.phrase_relates rules isFound
      obtain ⟨e, -, namedN⟩ := bound.node isNode
      exact namedN.mono refers.derives
    exact refers.trans
      (bound_refers laid (derives.trans refers.derives) refers.ready namedC isConst a code s' done)

/-- The blocks of a contract name cells of the table. -/
theorem blocks_refer (laid : l.Laid) {ctx : Context}
    (params : ∀ f ∈ ctx.functions, ∀ x ∈ f.params, l.HasName x) (p : Program) (s : State) :
    (blocks p).Ends ctx s fun blocks _ s' => RefersFrom l s blocks.flatten s' := by
  refine blocks_keep (refersFrom_composes l) (condition_refersFrom laid) ?_ rfl
    (fun q _ isConst => phrase_refersFrom laid q.1 isConst q.2) s
  intro f isFunction x isParam s derives ready
  have has := (params f isFunction x isParam).mono derives
  refine .of_lines ready (.refl _) (List.forall_mem_singleton.2 ⟨rfl, ?_⟩)
  exact List.forall_mem_singleton.2 has

end Codegen

end ContractCompiler
