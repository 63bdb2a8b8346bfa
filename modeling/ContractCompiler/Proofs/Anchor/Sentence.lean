import ContractCompiler.Proofs.Anchor.Bind
import ContractCompiler.Proofs.Sentence.Refers

/-!
# Proofs.Anchor.Sentence — what is reported while code is made

An action is refused at the line that it is made for, or at the line of a step that was put off. Such
steps come from nodes, so that their targets keep lines of the source as well. Between two phrases the table
is complete, no register is held, and the steps that are still to be done are sound (`State.AtRest`).
`Codegen.Anchored` says that an action keeps both and is refused at a line of the source only, and for no
defect. Phrases are compiled at the lines of their tokens, sentences at the lines that the parser kept. The
contents that a phrase fixes are the only change to the table besides new constants, and they keep it
complete (`SlotTable.freeze_within`).
-/

namespace ContractCompiler

set_option autoImplicit false

variable {inside : Nat → Prop} {named : String → Prop} {strict : Prop}

/-! ## Fixed contents -/

namespace SlotTable

variable {t : SlotTable} {line : Nat} (atLine : inside line) (complete : strict → t.Complete)
include atLine

section

include complete

theorem constantLoad_within (i : Instr) : Outcome.Within inside strict (t.constantLoad line i) fun _ => True := by
  unfold constantLoad
  split
  · exact .ok trivial
  · exact .ok trivial
  · split
    · rename_i source found
      split
      · rename_i constant
        split
        · exact .ok trivial
        · rename_i unset
          refine .defect atLine fun h => ?_
          have filled := (complete h).constants source (List.mem_of_find?_eq_some found) constant
          simp [unset] at filled
      · exact .error atLine rfl
    · exact .error atLine rfl
  · exact .error atLine rfl

theorem freezeOne_within {i : Instr} (named : strict → ∀ name ∈ i.operands, (t.find? name).isSome = true) :
    Outcome.Within inside strict (t.freezeOne line i) fun frozen => strict → frozen.1.Complete := by
  have ofLine : Outcome.Ensures (t.constantLoad line i) fun load => load.1 ∈ i.operands :=
    fun _ loaded => constantLoad_dest loaded
  refine .bind (((constantLoad_within atLine complete i).and ofLine).mono ?_)
  rintro ⟨dest, hex⟩ ⟨-, isOperand⟩
  dsimp only
  split
  · rename_i missing
    refine .defect atLine fun h => ?_
    have found := named h dest isOperand
    simp [missing] at found
  · rename_i found
    refine .guard atLine rfl fun notRegister => .guard atLine rfl fun notFrozen => .ok fun h => ?_
    exact (complete h).setContents found notRegister (by simpa [Slot.isFrozen] using notFrozen) _

end

/-- Contents are fixed without a defect, and the table stays complete. -/
theorem freeze_within {code : List Instr} (complete : strict → t.Complete)
    (named : strict → ∀ i ∈ code, ∀ name ∈ i.operands, (t.find? name).isSome = true) :
    (strict → (t.freeze line code).1.Complete) ∧
      Outcome.Within inside strict (t.freeze line code).2 fun _ => True := by
  induction code generalizing t with
  | nil => exact ⟨complete, .ok trivial⟩
  | cons i code ih =>
    have named := fun h => List.forall_mem_cons.1 (named h)
    have one := freezeOne_within atLine complete fun h => (named h).1
    rw [freeze]
    split
    · rename_i refused
      rw [refused] at one
      exact ⟨complete, one⟩
    · rename_i t' directive frozen
      rw [frozen] at one
      obtain ⟨complete', within⟩ := ih one fun h j mem name isOperand =>
        (freezeOne_grows frozen (complete h).valid).2.1.find?_isSome ((named h).2 j mem name isOperand)
      refine ⟨complete', ?_⟩
      dsimp only
      cases result : (t'.freeze line code).2 with
      | ok directives => exact .ok trivial
      | error e => rwa [result] at within

end SlotTable

theorem Command.Sound.node {t : SlotTable} {c : Command} {n : Node} (sound : c.Sound t)
    (isNode : c.node? = some n) : n.Sound t := by
  cases c with
  | control word operand line => exact sound.1 n isNode
  | value node => exact Option.some.inj isNode ▸ sound

namespace Codegen

variable {α β : Type} {ctx : Context} {s s' : State} {line : Nat}

/-! ## Actions -/

/-- What holds between two phrases. -/
structure State.AtRest (s : State) : Prop extends State.Ready True s where
  complete : s.table.Complete
  free : ∀ a, ¬ s.pool.Holds a

variable (inside strict) in
/-- The targets of the steps that are put off keep lines of the source. If that counts, the compiler is at
rest. -/
structure State.Anchored (s : State) : Prop where
  within : ∀ p ∈ s.deferred, p.2.Within inside
  rest : strict → s.AtRest

namespace State.Anchored

theorem complete (anchored : s.Anchored inside strict) (isStrict : strict) : s.table.Complete :=
  (anchored.rest isStrict).complete

/-- Labels and comments are not looked at. -/
theorem congr (anchored : s.Anchored inside strict) (table : s'.table = s.table) (pool : s'.pool = s.pool)
    (deferred : s'.deferred = s.deferred) : s'.Anchored inside strict := by
  refine ⟨deferred ▸ anchored.within, fun h => ?_⟩
  have rest := anchored.rest h
  refine ⟨⟨⟨table ▸ rest.valid.table, ?_⟩, ?_⟩, table ▸ rest.complete, pool ▸ rest.free⟩
  · rw [table, pool]
    exact rest.valid.pool
  · rw [table, deferred]
    exact rest.deferred

/-- The code of nodes at lines of the source that are sound. -/
theorem leaves {m : Codegen Unit} (anchored : s.Anchored inside strict)
    (made : Works (.ofLines inside) True 0 0 m)
    (runs : strict → s.Ready True → (m.Ends ctx s fun _ code s' => s.Runs True code s') ∧
      (m ctx s).Leaves (fun _ _ => True) fun e _ => True → e.isInternal = false) :
    (m ctx s).Leaves (fun _ s' => s'.Anchored inside strict) fun e _ => e.Fair inside strict := by
  have lines := made.orderly ctx s
    ⟨Nat.zero_le _, fun p mem => ⟨World.fits_ofLines _ (anchored.within p mem), False.elim⟩⟩
  cases result : m ctx s with
  | done a code s' =>
    rw [result] at lines
    refine ⟨fun p mem => (lines.1.owed.later p mem).1.within, fun h => ?_⟩
    have rest := anchored.rest h
    have ran := (runs h rest.toReady).1 a code s' result
    exact ⟨ran.ready, rest.complete.derives ran.derives ran.ready.valid.table, ran.pool ▸ rest.free⟩
  | failed e s' =>
    rw [result] at lines
    refine ⟨lines.1.atLine, fun h => ?_⟩
    have refused := (runs h (anchored.rest h).toReady).2
    rw [result] at refused
    exact refused trivial

end State.Anchored

/-- A check, and what follows from it. -/
theorem leaves_ofOutcome {x : Outcome α} {ended : α → State → Prop}
    (within : Outcome.Within inside strict x fun a => ended a s) :
    (ofOutcome x ctx s).Leaves ended fun e _ => e.Fair inside strict := by
  cases x with
  | ok a => exact within
  | error e => exact within

variable (inside strict) in
/-- The action is refused at a line of the source only, and for no defect if that counts. If it ends, the
steps that are put off keep lines of the source and the compiler is at rest, as before. -/
def Anchored (m : Codegen α) : Prop :=
  ∀ (ctx : Context) (s : State), s.Anchored inside strict →
    (m ctx s).Leaves (fun _ s' => s'.Anchored inside strict) fun e _ => e.Fair inside strict

namespace Anchored

variable {m : Codegen α} {f : α → Codegen β}

theorem bind (first : Anchored inside strict m) (rest : ∀ a, Anchored inside strict (f a)) :
    Anchored inside strict (m >>= f) :=
  fun ctx s anchored => .bind ((first ctx s anchored).mono (fun a s' anchored' => rest a ctx s' anchored')
    fun _ _ fair => fair)

theorem of_same (same : ∀ ctx s, (m ctx s).Leaves
    (fun _ s' => s'.table = s.table ∧ s'.pool = s.pool ∧ s'.deferred = s.deferred) fun _ _ => False) :
    Anchored inside strict m :=
  fun ctx s anchored => (same ctx s).mono
    (fun _ _ same => anchored.congr same.1 same.2.1 same.2.2) fun _ _ never => never.elim

theorem pure (a : α) : Anchored inside strict (Codegen.pure a) := of_same fun _ _ => ⟨rfl, rfl, rfl⟩

theorem emit (i : Instr) : Anchored inside strict (Codegen.emit i) := of_same fun _ _ => ⟨rfl, rfl, rfl⟩

theorem labelId (line : Nat) : Anchored inside strict (Codegen.labelId line) := of_same fun _ _ => ⟨rfl, rfl, rfl⟩

theorem within {change : Context → Context} (anchored : Anchored inside strict m) :
    Anchored inside strict (Codegen.within change m) :=
  fun ctx s inState => anchored (change ctx) s inState

theorem capture (anchored : Anchored inside strict m) : Anchored inside strict (Codegen.capture m) :=
  fun ctx s inState => .capture ((anchored ctx s inState).mono (fun _ _ inState' _ _ => inState')
    fun _ _ fair => fair)

end Anchored

/-! ## Phrases and conditions -/

variable (inside) in
/-- Tokens at lines of the source, and the line that is reported where there are none. -/
def Stands (tokens : List Token) (line : Nat) : Prop := (∀ t ∈ tokens, inside t.line) ∧ inside line

theorem comment_leaves (line : Nat) : (comment line ctx s).Leaves
    (fun _ s' => s'.table = s.table ∧ s'.pool = s.pool ∧ s'.deferred = s.deferred) fun _ _ => False := by
  refine .bind (.of rfl (.bind (.of rfl ?_)))
  split <;> exact ⟨rfl, rfl, rfl⟩

theorem checkRegisters_anchored (atLine : inside line) : Anchored inside strict (checkRegisters line) := by
  intro ctx s anchored
  refine .bind (.of rfl ?_)
  split
  · exact anchored
  · rename_i held
    refine ⟨atLine, fun h => absurd ?_ held⟩
    refine List.isEmpty_iff.2 (List.map_eq_nil_iff.2 (List.filter_eq_nil_iff.2 fun r listed isHeld => ?_))
    exact (anchored.rest h).free r.slot.address ⟨r, listed, rfl, isHeld⟩

theorem freeze_anchored (atLine : inside line) {code : List Instr} (anchored : s.Anchored inside strict)
    (named : strict → ∀ i ∈ code, ∀ name ∈ i.operands, s.table.HasName name) :
    (freeze code line ctx s).Leaves (fun _ s' => s'.Anchored inside strict) fun e _ => e.Fair inside strict := by
  have found : strict → ∀ i ∈ code, ∀ name ∈ i.operands, (s.table.find? name).isSome = true := by
    intro h i mem name isOperand
    obtain ⟨e, stored, -, same⟩ := named h i mem name isOperand
    exact SlotTable.find?_isSome.2 ⟨e, stored, same⟩
  obtain ⟨complete, within⟩ := SlotTable.freeze_within atLine anchored.complete found
  refine .bind (.of rfl (.bind (.of rfl (.bind (leaves_ofOutcome (within.mono fun _ _ => ?_))))))
  refine ⟨anchored.within, fun h => ?_⟩
  have rest := anchored.rest h
  obtain ⟨valid, grows, -⟩ := SlotTable.freeze_grows line code rest.valid.table
  refine ⟨⟨⟨valid, rest.valid.pool.trans grows.registers.symm⟩, fun p mem => ?_⟩, complete h, rest.free⟩
  have sound := ((rest.deferred p mem).sound trivial).mono grows
  exact ⟨sound.isNamed, fun _ => sound⟩

section Phrases

variable {tokens : List Token}

/-- The code of a phrase, with the steps that are put off in it and those left from before. -/
theorem phraseCode_anchored {c : Command} (anchored : s.Anchored inside strict) (within : c.Within inside)
    (sound : strict → c.Sound s.table) :
    ((do command c; applyDeferred Node.eval 0 c.line; checkRegisters c.line : Codegen Unit) ctx s).Leaves
      (fun _ s' => s'.Anchored inside strict) fun e _ => e.Fair inside strict := by
  refine .bind ((anchored.leaves (command_made (World.admits_ofLines within)) fun h ready => ?_).mono
    (fun _ s₁ anchored => ?_) fun _ _ fair => fair)
  · exact command_runs ready (fun n isNode => ((sound h).node isNode).isNamed) fun _ => sound h
  · refine .bind ((anchored.leaves (applyDeferred_made Node.eval_made within.line) fun _ ready => ?_).mono
      (fun _ s₂ anchored => ?_) fun _ _ fair => fair)
    · exact applyDeferred_runs ready c.line
    · exact checkRegisters_anchored within.line ctx s₂ anchored

theorem phrase_anchored (stands : Stands inside tokens line) (isConst : Bool) :
    Anchored inside strict (phrase tokens isConst line) := by
  intro ctx s anchored
  refine .bind (.of rfl (.bind (leaves_ofOutcome ((Names.phrase_within anchored.complete stands.1
    stands.2).mono fun found firm => ?_))))
  cases found with
  | none => exact anchored
  | some bound =>
    refine .bind ((comment_leaves _).mono ?_ fun _ _ never => never.elim)
    rintro _ s₁ ⟨table, pool, deferred⟩
    have anchored₁ := anchored.congr table pool deferred
    obtain ⟨within, sound⟩ := firm bound rfl
    have sound : strict → bound.Sound s₁.table := fun h => table ▸ sound h
    refine .bind (.capture ((phraseCode_anchored anchored₁ within sound).mono ?_ fun _ _ fair => fair))
    intro _ s₂ anchored₂ code done
    dsimp only
    split
    · refine freeze_anchored within.line anchored₂ fun h i mem => ?_
      have named := fun n isNode => ((sound h).node (n := n) isNode).isNamed
      exact ((phraseCode_ends (anchored₁.rest h).toReady named (fun _ => sound h) bound.line _ _ _ done).lines
        i mem).2
    · exact anchored₂

theorem condition_anchored (stands : Stands inside tokens line) (target : String) (when : Bool) :
    Anchored inside strict (condition tokens target when line) := by
  intro ctx s anchored
  refine .bind (.of rfl (.bind (leaves_ofOutcome ((Names.condition_within anchored.complete stands.1
    stands.2).mono fun node firm => ?_))))
  have made := Node.code_made (World.fits_ofLines 0 firm.within)
  refine .bind (.within ((anchored.leaves (made.jump target when) fun h ready => ?_).mono
    (fun _ s₁ anchored => ?_) fun _ _ fair => fair))
  · exact jump_runs ready ⟨(firm.sound h).isNamed, fun _ => firm.sound h⟩ target when
  · exact checkRegisters_anchored stands.2 ctx s₁ anchored

end Phrases

/-! ## Sentences -/

theorem Woven.anchored {exits labels : List String} {m m' : Codegen Unit}
    (woven : Woven Eq (Stands inside) (Stands inside) exits labels m m') : Anchored inside strict m := by
  induction woven with
  | phrase stands isConst => exact phrase_anchored stands isConst
  | condition stands _ _ when _ => exact condition_anchored stands _ when
  | nothing => exact .pure _
  | andThen _ _ ih ih' => exact .bind ih fun _ => ih'
  | labelId _ _ _ ih => exact .bind (.labelId _) fun id => ih id id rfl
  | label _ _ _ ih => exact .bind (.emit _) fun _ => ih
  | lastLabel _ _ | jump _ _ _ => exact .emit _
  | comment line => exact .of_same fun _ _ => comment_leaves line
  | loop _ _ _ ih => exact .within ih

end Codegen

open Codegen (Stands)

/-- An initial value is assigned at the line of the name. -/
theorem Declaration.Within.phrases {d : Declaration} (within : d.Within inside named) :
    ∀ p ∈ d.declarators.filterMap Declarator.assignment?, Stands inside p.1 p.2 := by
  intro p mem
  obtain ⟨v, listed, assigned⟩ := List.mem_filterMap.1 mem
  obtain ⟨init, isInit, rfl⟩ := Option.map_eq_some_iff.1 assigned
  have inside := within v listed
  refine ⟨?_, inside.line⟩
  simp only [List.forall_mem_cons]
  exact ⟨inside.line, inside.line, inside.init init isInit⟩

namespace Sentence

mutual

theorem Within.stands : {s : Sentence} → s.Within inside named →
    (∀ p ∈ s.phrases, Stands inside p.1 p.2) ∧ ∀ p ∈ s.conditions, Stands inside p.1 p.2
  | .phrase _ _ _, within => ⟨List.forall_mem_singleton.2 within.symm, by simp [conditions]⟩
  | .ifElse _ _ _ _, within =>
    have inYes := AllWithin.stands within.2.1
    have inNo := AllWithin.stands within.2.2
    ⟨List.forall_mem_append.2 ⟨inYes.1, inNo.1⟩,
      List.forall_mem_cons.2 ⟨within.1.symm, List.forall_mem_append.2 ⟨inYes.2, inNo.2⟩⟩⟩
  | .ifThen _ _ _, within | .whileLoop _ _ _, within | .doLoop _ _ _, within =>
    have inBody := AllWithin.stands within.2
    ⟨inBody.1, List.forall_mem_cons.2 ⟨within.1.symm, inBody.2⟩⟩
  | .forLoop _ _ _ _ _, within =>
    have inBody := AllWithin.stands within.2
    have atLine := within.1.1
    ⟨List.forall_mem_cons.2 ⟨⟨within.1.2.1, atLine⟩, List.forall_mem_cons.2 ⟨⟨within.1.2.2.2, atLine⟩, inBody.1⟩⟩,
      List.forall_mem_cons.2 ⟨⟨within.1.2.2.1, atLine⟩, inBody.2⟩⟩
  | .block _, within => AllWithin.stands within
  | .declaration _, within => ⟨Declaration.Within.phrases within, by simp [conditions]⟩

theorem AllWithin.stands : {ss : List Sentence} → AllWithin inside named ss →
    (∀ p ∈ allPhrases ss, Stands inside p.1 p.2) ∧ ∀ p ∈ allConditions ss, Stands inside p.1 p.2
  | [], _ => by simp [allPhrases, allConditions]
  | _ :: _, within =>
    have first := within.1.stands
    have rest := AllWithin.stands within.2
    ⟨List.forall_mem_append.2 ⟨first.1, rest.1⟩, List.forall_mem_append.2 ⟨first.2, rest.2⟩⟩

end

end Sentence

namespace Codegen

theorem sentences_anchored {ss : List Sentence} (within : Sentence.AllWithin inside named ss) :
    Anchored inside strict (sentences ss) :=
  (sentences_woven ss within.stands.1 within.stands.2 : Woven Eq _ _ [] _ _ _).anchored

/-! ## Functions -/

theorem firstBlock_anchored {p : Program} (within : p.Within inside named) : Anchored inside strict (firstBlock p) := by
  refine .bind (sentences_anchored within.globals) fun _ => ?_
  split
  · rename_i f found
    have inMain := within.functions f (List.mem_of_find?_eq_some found)
    refine .bind ?_ fun _ => .emit _
    unfold mainFunction
    split
    · exact .bind (.emit _) fun _ => .bind (.emit _) fun _ => .within (sentences_anchored inMain.body)
    · exact fun _ _ _ => ⟨inMain.line, fun _ => rfl⟩
  · exact .bind (.pure _) fun _ => .emit _

theorem functionBlock_anchored {f : FunctionDef} (within : f.Within inside named) :
    Anchored inside strict (functionBlock f) :=
  .bind (.of_same fun _ _ => ⟨rfl, rfl, rfl⟩) fun _ => .bind (.of_same fun _ _ => ⟨rfl, rfl, rfl⟩) fun _ =>
    .bind (.capture (.within (sentences_anchored within.body))) fun _ => .pure _

theorem functionBlocks_anchored {fs : List FunctionDef} (within : ∀ f ∈ fs, f.Within inside named) :
    Anchored inside strict (functionBlocks fs) := by
  induction fs with
  | nil => exact .pure _
  | cons f rest ih =>
    obtain ⟨inFirst, inRest⟩ := List.forall_mem_cons.1 within
    exact .bind (functionBlock_anchored inFirst) fun _ => .bind (ih inRest) fun _ => .pure _

theorem blocks_anchored {p : Program} (within : p.Within inside named) : Anchored inside strict (blocks p) :=
  .bind (.capture (firstBlock_anchored within)) fun _ =>
    .bind (functionBlocks_anchored fun f mem => within.functions f (List.mem_of_mem_filter mem)) fun _ => .pure _

end Codegen

end ContractCompiler
