import ContractCompiler.Proofs.Variation.Bind

/-!
# Proofs.Variation.Codegen — actions that agree in both compilations

Two actions agree if, begun in states that belong together, they end in states that belong together, with
code that differs in labels, and in comments if the second has none (`Pairing.Agree`). An action of the
second compilation may succeed where that of the first lacks a register, but never the other way round.
There is one law for each way to make an action, so that a proof about an action follows its steps.
-/

namespace ContractCompiler

set_option autoImplicit false

namespace Pairing

open Codegen (Context State Result)
open Variation

variable {v : Pairing} {α β γ δ : Type}

/-! ## States and contexts -/

/-- The label of a loop, without its ending. -/
inductive Loops (v : Variation) : String → String → Prop where
  | stem {id id' : String} : v.id id id' → Loops v ("__loop" ++ id) ("__loop" ++ id')

/-- A context of the first compilation and that of the second. -/
structure Contexts (v : Pairing) (ctx ctx' : Context) : Prop where
  constants : ctx'.settings.maxConstVars = ctx.settings.maxConstVars
  reuse : ctx'.settings.reuseAssignedVar = ctx.settings.reuseAssignedVar
  comments : ctx'.settings.outputSourceLineNumber = (ctx.settings.outputSourceLineNumber && !v.bare)
  functions : ctx'.functions = ctx.functions
  function : ctx'.function = ctx.function
  loop : Option.Rel (Loops v.toVariation) ctx.loop ctx'.loop
  inCondition : ctx'.inCondition = ctx.inCondition
  ids : ∀ line ordinal, v.id (LabelId.ofSettings ctx.settings ctx.randomId line ordinal)
    (LabelId.ofSettings ctx'.settings ctx'.randomId line ordinal)

/-- The cells of elements keep addresses that a word can hold. -/
def Small (v : Pairing) (t : SlotTable) : Prop :=
  v.extra = 0 ∨ ∀ s ∈ t.slots, s.kind = .long → s.address + v.extra < 9223372036854775808

def step (v : Pairing) (d : Step × Node) : Step × Node := (d.1, v.node d.2)

/-- A state of the first compilation and that of the second. -/
structure States (v : Pairing) (s s' : State) : Prop where
  tables : v.Tables s.table s'.table
  small : v.Small s.table
  pools : v.Pools s.pool s'.pool
  labels : s'.labels = s.labels
  deferred : s'.deferred = s.deferred.map v.step
  lastComment : s'.lastComment = if v.bare then none else s.lastComment

/-- Where the first action ends, so does the second, with values that belong together and the same code up
to labels. Without added registers both fail alike. -/
def Results (v : Pairing) (R : α → β → Prop) : Result α → Result β → Prop
  | .done a code s, r' => ∃ a' code' s', r' = .done a' code' s' ∧ R a a' ∧ v.Code code code' ∧ v.States s s'
  | .failed e _, r' => v.extra = 0 → ∃ s', r' = .failed e s'

/-- The actions agree in contexts and states that belong together. -/
def Agree (v : Pairing) (R : α → β → Prop) (m : Codegen α) (m' : Codegen β) : Prop :=
  ∀ ctx ctx' s s', v.Contexts ctx ctx' → v.States s s' → v.Results R (m ctx s) (m' ctx' s')

/-! ## Laws -/

namespace Agree

variable {R : α → β → Prop} {S : γ → δ → Prop} {m : Codegen α} {m' : Codegen β}

theorem bind {f : α → Codegen γ} {f' : β → Codegen δ} (first : v.Agree R m m')
    (rest : ∀ a a', R a a' → v.Agree S (f a) (f' a')) : v.Agree S (m >>= f) (m' >>= f') := by
  intro ctx ctx' s s' contexts states
  have related := first ctx ctx' s s' contexts states
  show v.Results S (Codegen.bind m f ctx s) (Codegen.bind m' f' ctx' s')
  unfold Codegen.bind
  cases ends : m ctx s with
  | failed e s₁ =>
    rw [ends] at related
    intro none
    obtain ⟨s₁', ends'⟩ := related none
    exact ⟨s₁', by rw [ends']⟩
  | done a code s₁ =>
    rw [ends] at related
    obtain ⟨a', code', s₁', ends', values, lines, states₁⟩ := related
    have related₁ := rest a a' values ctx ctx' s₁ s₁' contexts states₁
    rw [ends']
    dsimp only
    cases ends₁ : f a ctx s₁ with
    | failed e s₂ =>
      rw [ends₁] at related₁
      intro none
      obtain ⟨s₂', ends₁'⟩ := related₁ none
      exact ⟨s₂', by rw [ends₁']⟩
    | done b code₁ s₂ =>
      rw [ends₁] at related₁
      obtain ⟨b', code₁', s₂', ends₁', values₁, lines₁, states₂⟩ := related₁
      exact ⟨b', code' ++ code₁', s₂', by rw [ends₁'], values₁, lines.append lines₁, states₂⟩

theorem mono {R' : α → β → Prop} (agree : v.Agree R m m') (weaken : ∀ a a', R a a' → R' a a') :
    v.Agree R' m m' := by
  intro ctx ctx' s s' contexts states
  have related := agree ctx ctx' s s' contexts states
  cases ends : m ctx s with
  | failed e s₁ => rwa [ends] at related
  | done a code s₁ =>
    rw [ends] at related
    obtain ⟨a', code', s₁', ends', values, others⟩ := related
    exact ⟨a', code', s₁', ends', weaken a a' values, others⟩

/-- What agrees without comments agrees. -/
theorem ofQuiet (agree : ({ v with quiet := True } : Pairing).Agree R m m') : v.Agree R m m' := by
  intro ctx ctx' s s' contexts states
  have related := agree ctx ctx' s s' { contexts with } { states with }
  cases ends : m ctx s with
  | failed e s₁ => rwa [ends] at related
  | done a code s₁ =>
    rw [ends] at related
    obtain ⟨a', code', s₁', ends', values, lines, states₁⟩ := related
    exact ⟨a', code', s₁', ends', values, lines.ofQuiet, { states₁ with }⟩

theorem pure {a : α} {a' : β} (related : R a a') : v.Agree R (Codegen.pure a) (Codegen.pure a') :=
  fun _ _ _ s' _ states => ⟨a', [], s', rfl, related, .nil, states⟩

/-- Actions that are refused for the same reason, unless there are added registers. -/
theorem failAs {e e' : CompileError} (same : v.extra = 0 → e' = e) :
    v.Agree R (Codegen.fail e) (Codegen.fail e') := by
  intro _ _ _ s' _ _ none
  rw [same none]
  exact ⟨s', rfl⟩

theorem fail (e : CompileError) : v.Agree R (Codegen.fail e) (Codegen.fail e) := failAs fun _ => rfl

/-- With added registers an action may take the place of a refusal. -/
theorem failOnce (some : v.extra ≠ 0) (e : CompileError) (m' : Codegen β) :
    v.Agree R (Codegen.fail e) m' := fun _ _ _ _ _ _ none => absurd none some

theorem ofOutcome {x : Outcome α} {x' : Outcome β} (related : v.Outcomes R x x') :
    v.Agree R (Codegen.ofOutcome x) (Codegen.ofOutcome x') := by
  cases x with
  | ok a =>
    obtain ⟨a', rfl, related⟩ := related
    exact pure related
  | error e =>
    intro _ _ _ s' _ _ none
    rw [related none]
    exact ⟨s', rfl⟩

theorem context : v.Agree v.Contexts Codegen.context Codegen.context :=
  fun _ ctx' _ s' contexts states => ⟨ctx', [], s', rfl, contexts, .nil, states⟩

theorem state : v.Agree v.States Codegen.state Codegen.state :=
  fun _ _ _ s' _ states => ⟨s', [], s', rfl, states, .nil, states⟩

theorem within {change change' : Context → Context}
    (changes : ∀ ctx ctx', v.Contexts ctx ctx' → v.Contexts (change ctx) (change' ctx'))
    (inner : v.Agree R m m') : v.Agree R (Codegen.within change m) (Codegen.within change' m') :=
  fun ctx ctx' s s' contexts states => inner _ _ s s' (changes ctx ctx' contexts) states

theorem modifyState {f f' : State → State} (changes : ∀ s s', v.States s s' → v.States (f s) (f' s')) :
    v.Agree Eq (Codegen.modifyState f) (Codegen.modifyState f') :=
  fun _ _ s s' _ states => ⟨(), [], f' s', rfl, rfl, .nil, changes s s' states⟩

theorem emitAll {code code' : List Instr} (lines : v.Code code code') :
    v.Agree Eq (Codegen.emitAll code) (Codegen.emitAll code') :=
  fun _ _ _ s' _ states => ⟨(), code', s', rfl, rfl, lines, states⟩

theorem emit {i i' : Instr} (lines : v.Lines i i') (noComment : i.isComment = false) :
    v.Agree Eq (Codegen.emit i) (Codegen.emit i') :=
  fun _ _ _ s' _ states => ⟨(), [i'], s', rfl, rfl, .line lines noComment, states⟩

/-- A line without labels. -/
theorem same {i : Instr} (noLabel : Instr.labels [i] = []) (noTarget : i.target? = none)
    (noComment : i.isComment = false) : v.Agree Eq (Codegen.emit i) (Codegen.emit i) :=
  emit (.same noLabel noTarget) noComment

theorem capture (inner : v.Agree R m m') :
    v.Agree (fun r r' => R r.1 r'.1 ∧ v.Code r.2 r'.2) (Codegen.capture m) (Codegen.capture m') := by
  intro ctx ctx' s s' contexts states
  have related := inner ctx ctx' s s' contexts states
  unfold Codegen.capture
  cases ends : m ctx s with
  | failed e s₁ =>
    rw [ends] at related
    intro none
    obtain ⟨s₁', ends'⟩ := related none
    exact ⟨s₁', by rw [ends']⟩
  | done a code s₁ =>
    rw [ends] at related
    obtain ⟨a', code', s₁', ends', values, lines, states₁⟩ := related
    exact ⟨(a', code'), [], s₁', by rw [ends'], ⟨values, lines⟩, .nil, states₁⟩

theorem holding (rs : List Slot) (inner : v.Agree R m m') :
    v.Agree R (Codegen.holding rs m) (Codegen.holding (rs.map v.slot) m') := by
  intro ctx ctx' s s' contexts states
  have related := inner ctx ctx' s s' contexts states
  unfold Codegen.holding
  cases ends : m ctx s with
  | failed e s₁ =>
    rw [ends] at related
    intro none
    obtain ⟨s₁', ends'⟩ := related none
    exact ⟨_, by rw [ends']⟩
  | done a code s₁ =>
    rw [ends] at related
    obtain ⟨a', code', s₁', ends', values, lines, states₁⟩ := related
    exact ⟨a', code', s₁', by rw [ends'], values, lines, states₁⟩

theorem table : v.Agree (fun t t' => v.Tables t t' ∧ v.Small t) Codegen.table Codegen.table :=
  .bind state fun _ _ states => .pure ⟨states.tables, states.small⟩

/-! ## Registers -/

theorem allocate (line : Nat) :
    v.Agree (fun r r' => r' = v.slot r) (Codegen.allocate line) (Codegen.allocate line) := by
  refine .bind state fun s s' states => .bind (ofOutcome (states.pools.allocate line)) ?_
  rintro ⟨r, pool⟩ ⟨_, pool'⟩ ⟨rfl, pools⟩
  refine .bind (modifyState fun s s' states => ?_) fun _ _ _ => .pure rfl
  exact { states with pools := pools }

theorem release (rs : List Slot) :
    v.Agree Eq (Codegen.release rs) (Codegen.release (rs.map v.slot)) := by
  refine modifyState fun s s' states => { states with pools := ?_ }
  have freed : ∀ (rs : List Slot) (p p' : Pool), v.Pools p p' →
      v.Pools (rs.foldl (fun pool r => pool.free r.address) p)
        ((rs.map v.slot).foldl (fun pool r => pool.free r.address) p') := by
    intro rs
    induction rs with
    | nil => exact fun p p' pools => pools
    | cons r rs ih => exact fun p p' pools => ih _ _ (pools.free r.address)
  exact freed rs _ _ states.pools

theorem giveBack (rs : List Slot) (line : Nat) :
    v.Agree Eq (Codegen.giveBack rs line) (Codegen.giveBack (rs.map v.slot) line) := by
  have given : ∀ (rs : List Slot) (p p' : Pool), v.Pools p p' →
      v.Outcomes v.Pools (rs.foldlM (fun pool r => pool.release r.address line) p)
        ((rs.map v.slot).foldlM (fun pool r => pool.release r.address line) p') := by
    intro rs
    induction rs with
    | nil => exact fun p p' pools => .ok pools
    | cons r rs ih =>
      intro p p' pools
      rw [List.map_cons, List.foldlM_cons, List.foldlM_cons]
      exact .bind (pools.release r.address line) ih
  refine .bind state fun s s' states => .bind (ofOutcome (given rs _ _ states.pools)) fun pool pool' pools => ?_
  exact modifyState fun s s' states => { states with pools := pools }

theorem checkRegisters (line : Nat) :
    v.Agree Eq (Codegen.checkRegisters line) (Codegen.checkRegisters line) := by
  refine .bind state fun s s' states => ?_
  rw [states.pools.live]
  dsimp only
  split
  · exact .pure rfl
  · exact .fail _

/-! ## The other actions -/

theorem intern (value : Word) :
    v.Agree (fun kept kept' => kept' = kept.map v.slot) (Codegen.intern value) (Codegen.intern value) := by
  refine .bind table fun t t' related => .bind context fun ctx ctx' contexts => ?_
  obtain ⟨tables, small⟩ := related
  rw [contexts.constants]
  obtain ⟨interned, same⟩ := tables.intern value ctx.settings.maxConstVars
  have stillSmall : v.Small (t.intern value ctx.settings.maxConstVars).1 := by
    obtain ⟨kept, slots, constants⟩ := (t.interns_intern value ctx.settings.maxConstVars).slots
    refine small.imp_right fun small s stored isLong => ?_
    rcases List.mem_append.1 (slots ▸ stored) with old | new
    · exact small s old isLong
    · simp [(constants s new).1] at isLong
  refine .bind (modifyState fun s s' states => ?_) fun _ _ _ => .pure same
  exact { states with tables := interned, small := stillSmall }

theorem labelId (line : Nat) : v.Agree v.id (Codegen.labelId line) (Codegen.labelId line) := by
  refine .bind context fun ctx ctx' contexts => .bind state fun s s' states => ?_
  refine .bind (modifyState fun _ _ states₁ => ?_) fun _ _ _ => .pure ?_
  · exact { states₁ with labels := congrArg (· + 1) states.labels }
  · rw [states.labels]
    exact contexts.ids line (s.labels + 1)

/-- A comment stands in both compilations, or in the first alone. -/
theorem comment (loud : ¬ v.quiet) (line : Nat) : v.Agree Eq (Codegen.comment line) (Codegen.comment line) := by
  refine .bind context fun ctx ctx' contexts => .bind state fun s s' states => ?_
  have comments := contexts.comments
  have last := states.lastComment
  cases isBare : v.bare with
  | true =>
    rw [comments, isBare, Bool.not_true, Bool.and_false, Bool.false_and, if_neg Bool.false_ne_true]
    split
    · intro _ _ _ s' _ states
      exact ⟨(), [], s', rfl, rfl, ⟨by simp [visible, isBare, Instr.uncommented, Instr.isComment],
        fun isQuiet => absurd isQuiet loud⟩, { states with lastComment := by simpa [isBare] using states.lastComment }⟩
    · exact .pure rfl
  | false =>
    rw [comments, last, isBare, Bool.not_false, Bool.and_true, if_neg Bool.false_ne_true]
    split
    · intro _ _ _ s' _ states
      refine ⟨(), _, { s' with lastComment := some line }, rfl, rfl, ⟨?_, fun isQuiet => absurd isQuiet loud⟩, ?_⟩
      · rw [visible, isBare]
        exact .cons (.same rfl rfl) .nil
      · exact { states with lastComment := by simp [isBare] }
    · exact .pure rfl

theorem defer (step : Step) (target : Node) :
    v.Agree Eq (Codegen.defer step target) (Codegen.defer step (v.node target)) := by
  refine modifyState fun s s' states => { states with deferred := ?_ }
  rw [states.deferred, List.map_append]
  rfl

theorem deferredCount : v.Agree Eq Codegen.deferredCount Codegen.deferredCount := by
  refine .bind state fun s s' states => .pure ?_
  rw [states.deferred, List.length_map]

theorem takeDeferred (mark : Nat) : v.Agree (fun steps steps' => steps' = steps.map v.step)
    (Codegen.takeDeferred mark) (Codegen.takeDeferred mark) := by
  refine .bind state fun s s' states => ?_
  refine .bind (modifyState fun _ _ states₁ => { states₁ with deferred := ?_ }) fun _ _ _ => .pure ?_
  · rw [states.deferred, List.map_take]
  · rw [states.deferred, List.map_drop]

theorem names : v.Agree v.Namings Codegen.names Codegen.names := by
  refine .bind context fun ctx ctx' contexts => .bind table fun t t' related => .pure ?_
  exact ⟨related.1, contexts.functions, contexts.function⟩

theorem calledFunction : v.Agree Eq Codegen.calledFunction Codegen.calledFunction := by
  refine .bind context fun ctx ctx' contexts => .pure ?_
  rw [contexts.function]

end Agree

end Pairing

end ContractCompiler
