import ContractCompiler.Proofs.Codegen.Growth
import ContractCompiler.Proofs.Codegen.World
import ContractCompiler.Proofs.Lending

/-!
# Proofs.Codegen.Made — what actions are made of

`Codegen.Made W` is a judgement on actions in the world `W`, with one rule for each way to make an action.
It keeps the books of the registers that are held before an action and after it, lists the labels that the
action defines under a number of its own, and says what is known of its value. What has to be known for
its lines to be allowed is a condition `C` of the judgement, to which each action adds what it gives; how
the action is made does not depend on that.

The actions of the code generator are gone through once, to derive this judgement for each of them. What
holds of all of them is then shown by induction on derivations: an action that is made so is tame
(`Made.tame`), its books are right, the table derives from the one before it, and it is refused at lines of
the world only (`Made.orderly`). If the condition holds, the
lines of the action are allowed and it is refused for no defect, where the world forbids it
(`Made.proper`).
-/

namespace ContractCompiler

set_option autoImplicit false

/-! ## Lines -/

namespace Instr

/-- The line is run, and is neither a label nor a comment. What it says in digits is a word. -/
def isStep : Instr → Bool
  | program _ _ | declare _ | constSet _ _ | comment _ | label _ => false
  | setLiteral _ hex => Word.isText hex
  | _ => true

variable {i : Instr} (isStep : i.isStep = true)
include isStep

theorem isCode_of_isStep : i.isCode = true := by
  cases i <;> first | rfl | exact isStep | cases isStep

theorem labels_of_isStep : labels [i] = [] := by
  cases i <;> first | rfl | cases isStep

omit isStep in
theorem labels_of_all {code : List Instr} (steps : ∀ i ∈ code, i.isStep = true) : labels code = [] := by
  induction code with
  | nil => rfl
  | cons i rest ih =>
    obtain ⟨first, others⟩ := List.forall_mem_cons.1 steps
    rw [← List.singleton_append, labels_append, labels_of_isStep first, ih others, List.append_nil]

end Instr

/-- The line is run, and its operands may be named. -/
def World.Line (W : World) (i : Instr) : Prop := i.isCode = true ∧ ∀ name ∈ i.operands, W.names name

namespace Codegen

/-! ## The judgement -/

/-- The action is made from a few actions and is refused at lines of the world only. Where the registers
`before` are held, those that `after` says are held when the action has ended, and those of `left`, if any,
when it is refused. The labels `labels` are its own. The steps that were put off since there were `k` of
them may be done, where steps after a use are nested less deep than `d`. If `C` holds, `post` holds of the
value. -/
inductive Made (W : World) : {α : Type} → (C : Prop) → (d k : Nat) → (before : List Slot) →
    (labels : List String) → (left : Option (List Slot)) → (after : α → List Slot) → (post : α → Prop) →
    Codegen α → Prop
  | pure {α : Type} {C d k before left after post} {a : α} (same : List.Perm before (after a))
      (holds : C → post a) : Made W C d k before [] left after post (Codegen.pure a)
  | fail {α : Type} {C d k before after post} {e : CompileError} (atLine : W.inside e.line)
      (fault : C → W.strict → e.isInternal = false) :
      Made W C d k before [] (some before) after post (Codegen.fail e : Codegen α)
  /-- What is known of the value of the first action counts for the rest. -/
  | bindOf {α β : Type} {C d k before labels left mid after post} {m : Codegen α} {f : α → Codegen β}
      {sure given : α → Prop} (first : Made W C d k before [] left mid given m)
      (ends : ∀ ctx s, m.Ends ctx s fun a _ _ => sure a)
      (rest : ∀ a, sure a → Made W (C ∧ given a) d k (mid a) labels left after post (f a)) :
      Made W C d k before labels left after post (m >>= f)
  | context {β : Type} {C d k before labels left after post} {f : Context → Codegen β}
      (rest : ∀ ctx, Made W C d k before labels left after post (f ctx)) :
      Made W C d k before labels left after post (Codegen.context >>= f)
  /-- The registers that are held may be named. -/
  | state {β : Type} {C d k before labels left after post} {f : State → Codegen β}
      (rest : ∀ s, Made W (C ∧ ∀ name ∈ s.pool.live, W.names name) d k before labels left after post (f s)) :
      Made W C d k before labels left after post (Codegen.state >>= f)
  | table {C d k before left} : Made W C d k before [] left (fun _ => before) W.Known Codegen.table
  /-- A look at the table that may be refused. -/
  | look {α : Type} {C d k before post} {m : Codegen α} (g : SlotTable → Outcome α)
      (same : ∀ ctx s, m ctx s = ofOutcome (g s.table) ctx s)
      (atLine : ∀ u e, g u = .error e → W.inside e.line)
      (gives : ∀ u a, g u = .ok a → C → W.Known u → post a)
      (fault : ∀ e, g W.table = .error e → C → W.strict → e.isInternal = false) :
      Made W C d k before [] (some before) (fun _ => before) post m
  | emitAll {C d k before left} {code : List Instr} (steps : ∀ i ∈ code, i.isStep = true)
      (named : C → ∀ i ∈ code, ∀ name ∈ i.operands, W.names name) :
      Made W C d k before [] left (fun _ => before) (fun _ => True) (Codegen.emitAll code)
  /-- Labels that carry a new number. -/
  | labelId {β : Type} {C d k before left after post} {f : String → Codegen β} {line : Nat} (marks : List Mark)
      (different : marks.Nodup)
      (rest : ∀ id, Made W C d k before (marks.map (·.text id)) left after post (f id)) :
      Made W C d k before [] left after post (Codegen.labelId line >>= f)
  /-- A label of its own. -/
  | label {β : Type} {C d k before labels left after post} {f : Unit → Codegen β} {text : String}
      (rest : Made W C d k before labels left after post (f ())) :
      Made W C d k before (text :: labels) left after post (Codegen.emit (.label text) >>= f)
  | lastLabel {C d k before left} {text : String} :
      Made W C d k before [text] left (fun _ => before) (fun _ => True) (Codegen.emit (.label text))
  | intern {C d k before left} (value : Word) :
      Made W C d k before [] left (fun _ => before) (fun kept => ∀ s, kept = some s → W.Cell s)
        (Codegen.intern value)
  | defer {C d k before left} (step : Step) {target : Node} (later : W.Later d target) :
      Made W C d k before [] left (fun _ => before) (fun _ => True) (Codegen.defer step target)
  | takeDeferred {β : Type} {C d k before labels left after post} {f : List (Step × Node) → Codegen β}
      (rest : ∀ steps, (∀ p ∈ steps, W.Later d p.2) → Made W C d k before labels left after post (f steps)) :
      Made W C d k before labels left after post (Codegen.takeDeferred k >>= f)
  /-- The steps that are put off from here on. -/
  | mark {β : Type} {C d k before labels left after post} {f : Nat → Codegen β}
      (rest : ∀ n, Made W C d n before labels left after post (f n)) :
      Made W C d k before labels left after post (Codegen.deferredCount >>= f)
  /-- Steps that are put off in the action are nested less deep. -/
  | inner {α : Type} {C d d' k before labels left after post} {m : Codegen α} (le : W.strict → d' ≤ d)
      (made : ∀ n, Made W C d' n before labels left after post m) :
      Made W C d k before labels left after post m
  | allocate {C d k before} {line : Nat} (atLine : W.inside line) :
      Made W C d k before [] (some before) (fun r => before ++ [r]) W.Register (Codegen.allocate line)
  | release {C d k before keep drop left} (split : List.Perm before (keep ++ drop)) :
      Made W C d k before [] left (fun _ => keep) (fun _ => True) (Codegen.release drop)
  | giveBack {C d k before keep drop left} {line : Nat} (atLine : W.inside line)
      (split : List.Perm before (keep ++ drop)) :
      Made W C d k before [] left (fun _ => keep) (fun _ => True) (Codegen.giveBack drop line)
  /-- Registers that are given back if the action is refused. -/
  | holding {α : Type} {C d k before inner keep drop after post} {m : Codegen α}
      (split : List.Perm inner (keep ++ drop)) (made : Made W C d k before [] (some inner) after post m) :
      Made W C d k before [] (some keep) after post (Codegen.holding drop m)
  | regroup {α : Type} {C d k before before' labels left after post} {m : Codegen α}
      (same : List.Perm before before') (made : Made W C d k before' labels left after post m) :
      Made W C d k before labels left after post m
  /-- Other registers may be held around an action. -/
  | around {α : Type} {C d k before left after after' post} {m : Codegen α}
      (same : ∀ a, List.Perm (before ++ after a) (after' a)) (none : ∀ rs ∈ left, rs = [])
      (made : Made W C d k [] [] left after post m) :
      Made W C d k before [] (left.map fun _ => before) after' post m
  /-- Where it does not count what a refused action holds. -/
  | owed {α : Type} {C d k before rs labels after post} {m : Codegen α}
      (made : Made W C d k before labels (some rs) after post m) : Made W C d k before labels none after post m
  /-- What is held are registers. -/
  | held {α : Type} {C d k before labels left after post} {m : Codegen α}
      (made : Made W (C ∧ ∀ r ∈ before, W.Register r) d k before labels left after post m) :
      Made W C d k before labels left after post m
  | weaken {α : Type} {C C' d k before labels left after post post'} {m : Codegen α} (stronger : C' → C)
      (weaker : ∀ a, C' → post a → post' a) (made : Made W C d k before labels left after post m) :
      Made W C' d k before labels left after post' m

variable {α β : Type} {W : World} {C : Prop} {d k : Nat} {before : List Slot} {labels : List String}
  {left : Option (List Slot)} {after : α → List Slot} {post : α → Prop} {m : Codegen α}

theorem context_bind (f : Context → Codegen β) (ctx : Context) (s : State) :
    (context >>= f) ctx s = f ctx ctx s := by
  show Codegen.bind context f ctx s = _
  unfold Codegen.bind context
  dsimp only
  cases f ctx ctx s <;> rfl

theorem state_bind (f : State → Codegen β) (ctx : Context) (s : State) : (state >>= f) ctx s = f s ctx s := by
  show Codegen.bind state f ctx s = _
  unfold Codegen.bind state
  dsimp only
  cases f s ctx s <;> rfl

theorem deferredCount_bind (f : Nat → Codegen β) (ctx : Context) (s : State) :
    (deferredCount >>= f) ctx s = f s.deferred.length ctx s := by
  show Codegen.bind deferredCount f ctx s = _
  simp only [Codegen.bind, deferredCount, Bind.bind, Codegen.state, Pure.pure, Codegen.pure]
  cases f s.deferred.length ctx s <;> rfl

/-! ## Labels -/

namespace Made

/-- The labels of the action are those that it has under its own number, each of them once, and others
that carry new numbers. -/
theorem labelled (made : Made .free C d k before labels left after post m) :
    ∀ (id : String) (marks : List Mark), labels = marks.map (·.text id) → Labelled id marks m := by
  have count : Tame Codegen.deferredCount := .of_unchanged fun _ _ => .of rfl ⟨rfl, rfl, rfl, rfl⟩
  induction made with
  | pure _ _ => exact fun _ _ => .of_tame (.pure _)
  | fail _ _ => exact fun _ _ => .of_tame (.fail _)
  | bindOf _ ends _ ih ih' =>
    exact fun id marks same => .bindOf (ih id [] rfl).tame ends fun a isSure => ih' a isSure id marks same
  | context _ ih => exact fun id marks same => .bind .context fun ctx => ih ctx id marks same
  | state _ ih => exact fun id marks same => .bind .state fun s => ih s id marks same
  | table => exact fun _ _ => .of_tame .table
  | look g same _ _ _ =>
    refine fun _ _ => .of_tame (.of_unchanged fun ctx s => ?_)
    rw [Ends, same]
    exact Ends.ofOutcome fun _ _ => ⟨rfl, rfl, rfl, rfl⟩
  | emitAll steps _ => exact fun _ _ => .of_tame (.emitAll (Instr.labels_of_all steps))
  | labelId marks different _ ih =>
    exact fun _ _ => .of_tame (.labelId marks different fun id => ih id id marks rfl)
  | label _ ih => exact fun id marks same => .label same (ih id)
  | lastLabel => exact fun _ _ same => .lastLabel same
  | intern value => exact fun _ _ => .of_tame (.intern value)
  | defer step _ => exact fun _ _ => .of_tame (.defer step _)
  | takeDeferred _ ih =>
    exact fun id marks same => .bind (.takeDeferred _) fun steps =>
      ih steps (fun p _ => World.free_later _ p.2) id marks same
  | mark _ ih => exact fun id marks same => .bind count fun n => ih n id marks same
  | inner _ _ ih => exact ih 0
  | allocate _ => exact fun _ _ => .of_tame (.allocate _)
  | release _ => exact fun _ _ => .of_tame (.release _)
  | giveBack _ _ => exact fun _ _ => .of_tame (.giveBack _ _)
  | holding _ _ ih => exact fun _ _ => .of_tame (.holding (ih "" [] rfl).tame)
  | regroup _ _ ih | around _ _ _ ih | owed _ ih | held _ ih | weaken _ _ _ ih => exact ih

theorem tame (made : Made .free C d k before [] left after post m) : Tame m :=
  (made.labelled "" [] rfl).tame

end Made

/-! ## Books, tables and lines -/

section Pools

variable {line : Nat} {s : State} {r : Slot} {rs : List Slot} {pool : Pool} {e : CompileError} (ctx : Context)

theorem allocate_of_ok (taken : s.pool.allocate line = .ok (r, pool)) :
    allocate line ctx s = .done r [] { s with pool := pool } := by
  simp [allocate, Bind.bind, Codegen.bind, Codegen.state, taken, ofOutcome, modifyState, Codegen.pure, Pure.pure]

theorem allocate_of_error (refused : s.pool.allocate line = .error e) : allocate line ctx s = .failed e s := by
  simp [allocate, Bind.bind, Codegen.bind, Codegen.state, refused, ofOutcome, fail]

theorem giveBack_of_ok (given : rs.foldlM (fun pool r => pool.release r.address line) s.pool = .ok pool) :
    giveBack rs line ctx s = .done () [] (s.release rs) := by
  simp [giveBack, Bind.bind, Codegen.bind, Codegen.state, given, ofOutcome, modifyState, Codegen.pure,
    Pool.releaseAll_eq_ok given, State.release]

theorem giveBack_of_error (refused : rs.foldlM (fun pool r => pool.release r.address line) s.pool = .error e) :
    giveBack rs line ctx s = .failed e s := by
  simp [giveBack, Bind.bind, Codegen.bind, Codegen.state, refused, ofOutcome, fail]

end Pools

end Codegen

namespace World

open Codegen (State)

variable {W : World} {d d' k : Nat} {s s' s'' : State} {e : CompileError}

/-- The steps that were put off since there were `k` of them may be done. -/
structure Owed (W : World) (d k : Nat) (s : State) : Prop where
  length : k ≤ s.deferred.length
  later : ∀ p ∈ s.deferred.drop k, W.Later d p.2

/-- What an action that has ended leaves. -/
structure Turns (W : World) (d k : Nat) (s s' : State) : Prop where
  owed : W.Owed d k s'
  earlier : s'.deferred.take k = s.deferred.take k
  derives : s.table.Derives s'.table
  valid : s.Valid → s'.Valid

/-- What an action that is refused leaves. -/
structure Stops (W : World) (e : CompileError) (s s' : State) : Prop where
  atLine : W.inside e.line
  derives : s.table.Derives s'.table
  valid : s.Valid → s'.Valid

theorem Owed.here (s : State) : W.Owed d s.deferred.length s := ⟨Nat.le_refl _, by simp⟩

namespace Turns

theorem trans (first : W.Turns d k s s') (second : W.Turns d k s' s'') : W.Turns d k s s'' :=
  ⟨second.owed, second.earlier.trans first.earlier, first.derives.trans second.derives,
    fun valid => second.valid (first.valid valid)⟩

theorem of_same (owed : W.Owed d k s) (table : s'.table = s.table) (slots : s'.pool.slots = s.pool.slots)
    (deferred : s'.deferred = s.deferred) : W.Turns d k s s' where
  owed := ⟨deferred ▸ owed.length, deferred ▸ owed.later⟩
  earlier := by rw [deferred]
  derives := table ▸ .refl _
  valid valid := ⟨table ▸ valid.table, by rw [slots, table, valid.pool]⟩

/-- Steps that were put off earlier are still to be done. -/
theorem widen (owed : W.Owed d k s) (turns : W.Turns d' s.deferred.length s s') (le : W.strict → d' ≤ d) :
    W.Turns d k s s' := by
  have split : s'.deferred = s.deferred ++ s'.deferred.drop s.deferred.length := by
    have earlier := turns.earlier
    rw [List.take_length] at earlier
    conv_lhs => rw [← List.take_append_drop s.deferred.length s'.deferred, earlier]
  refine ⟨⟨Nat.le_trans owed.length turns.owed.length, ?_⟩, ?_, turns.derives, turns.valid⟩
  · rw [split, List.drop_append_of_le_length owed.length]
    exact List.forall_mem_append.2 ⟨owed.later, fun p mem => (turns.owed.later p mem).mono le⟩
  · rw [split, List.take_append_of_le_length owed.length]

end Turns

theorem Stops.after (stops : W.Stops e s' s'') (turns : W.Turns d k s s') : W.Stops e s s'' :=
  ⟨stops.atLine, turns.derives.trans stops.derives, fun valid => stops.valid (turns.valid valid)⟩

end World

namespace Codegen

variable {α β : Type} {W : World} {C : Prop} {d k : Nat} {before : List Slot} {labels : List String}
  {left : Option (List Slot)} {after : α → List Slot} {post : α → Prop} {m : Codegen α}

/-- Where a pool has lent out the registers `before`, it has lent out the registers `rs` later. -/
def Lent (before : List Slot) (s : State) (rs : List Slot) (s' : State) : Prop :=
  ∀ p : Pool, p.Distinct → p.Lends before s.pool → p.Lends rs s'.pool

/-- The books of the action are right, the table derives from the one before it, and the action is refused
at lines of the world only. -/
def Orderly (W : World) (d k : Nat) (before : List Slot) (left : Option (List Slot))
    (after : α → List Slot) (m : Codegen α) : Prop :=
  ∀ (ctx : Context) (s : State), W.Owed d k s →
    (m ctx s).Leaves (fun a s' => W.Turns d k s s' ∧ Lent before s (after a) s')
      fun e s' => W.Stops e s s' ∧ ∀ rs ∈ left, Lent before s rs s'

namespace Orderly

theorem bindOf {mid : α → List Slot} {after : β → List Slot} {f : α → Codegen β} {sure : α → Prop}
    (first : Orderly W d k before left mid m) (ends : ∀ ctx s, m.Ends ctx s fun a _ _ => sure a)
    (rest : ∀ a, sure a → Orderly W d k (mid a) left after (f a)) :
    Orderly W d k before left after (m >>= f) := by
  intro ctx s owed
  refine .bind (((first ctx s owed).and_ends (ends ctx s)).mono ?_ fun _ _ stops => stops)
  rintro a s' ⟨⟨turns, lent⟩, isSure⟩
  refine (rest a isSure ctx s' turns.owed).mono ?_ ?_
  · rintro b s'' ⟨turns', lent'⟩
    exact ⟨turns.trans turns', fun p distinct lends => lent' p distinct (lent p distinct lends)⟩
  · rintro e s'' ⟨stops, lent'⟩
    exact ⟨stops.after turns, fun rs mem p distinct lends => lent' rs mem p distinct (lent p distinct lends)⟩

/-- An action that changes nothing that counts here. -/
theorem of_same (same : ∀ ctx s, (m ctx s).Leaves
    (fun _ s' => s'.table = s.table ∧ s'.pool = s.pool ∧ s'.deferred = s.deferred) fun _ _ => False) :
    Orderly W d k before left (fun _ => before) m := by
  intro ctx s owed
  refine (same ctx s).mono ?_ fun _ _ never => never.elim
  rintro a s' ⟨table, pool, deferred⟩
  refine ⟨.of_same owed table (by rw [pool]) deferred, fun p _ lends => ?_⟩
  rwa [pool]

theorem next {after : β → List Slot} {f : α → Codegen β} (same : ∀ ctx s, (m ctx s).Leaves
    (fun _ s' => s'.table = s.table ∧ s'.pool = s.pool ∧ s'.deferred = s.deferred) fun _ _ => False)
    (rest : ∀ a, Orderly W d k before left after (f a)) : Orderly W d k before left after (m >>= f) :=
  bindOf (of_same same) (fun _ _ _ _ _ _ => trivial) fun a _ => rest a

end Orderly

theorem Made.orderly (made : Made W C d k before labels left after post m) :
    Orderly W d k before left after m := by
  induction made with
  | pure same _ => exact fun _ _ owed => ⟨.of_same owed rfl rfl rfl, fun _ _ lends => lends.perm same⟩
  | fail atLine _ =>
    refine fun _ _ _ => ⟨⟨atLine, .refl _, id⟩, ?_⟩
    rintro _ ⟨⟩ p _ lends
    exact lends
  | bindOf _ ends _ ih ih' => exact ih.bindOf ends ih'
  | context _ ih =>
    intro ctx s owed
    rw [context_bind]
    exact ih ctx ctx s owed
  | state _ ih =>
    intro ctx s owed
    rw [state_bind]
    exact ih s ctx s owed
  | table | emitAll _ _ | lastLabel => exact .of_same fun _ _ => ⟨rfl, rfl, rfl⟩
  | look g same atLine _ _ =>
    intro ctx s owed
    rw [same]
    cases result : g s.table with
    | ok a => exact ⟨.of_same owed rfl rfl rfl, fun _ _ lends => lends⟩
    | error e =>
      refine ⟨⟨atLine _ e result, .refl _, id⟩, ?_⟩
      rintro _ ⟨⟩ p _ lends
      exact lends
  | labelId _ _ _ ih => exact .next (fun _ _ => ⟨rfl, rfl, rfl⟩) ih
  | label _ ih => exact .next (fun _ _ => ⟨rfl, rfl, rfl⟩) fun _ => ih
  | intern value =>
    intro ctx s owed
    have derives : s.table.Derives (s.table.intern value ctx.settings.maxConstVars).1 := .intern _ _ _
    refine ⟨⟨⟨owed.length, owed.later⟩, rfl, derives, fun valid => ⟨valid.table.intern _ _, ?_⟩⟩,
      fun _ _ lends => lends⟩
    exact valid.pool.trans derives.grows.registers.symm
  | defer step later =>
    intro ctx s owed
    refine ⟨⟨⟨?_, ?_⟩, ?_, .refl _, fun valid => ⟨valid.table, valid.pool⟩⟩, fun _ _ lends => lends⟩
    · simpa using Nat.le_succ_of_le owed.length
    · rw [List.drop_append_of_le_length owed.length]
      exact List.forall_mem_append.2 ⟨owed.later, List.forall_mem_singleton.2 later⟩
    · exact List.take_append_of_le_length owed.length
  | takeDeferred _ ih =>
    intro ctx s owed
    refine .bind ((ih (s.deferred.drop _) owed.later ctx { s with deferred := s.deferred.take _ } ?_).mono
      ?_ ?_)
    · exact ⟨by simp [owed.length], by simp⟩
    · rintro b s' ⟨turns, lent⟩
      refine ⟨⟨turns.owed, ?_, turns.derives, fun valid => turns.valid ⟨valid.table, valid.pool⟩⟩, lent⟩
      exact turns.earlier.trans (List.take_take.trans (by rw [Nat.min_self]))
    · rintro e s' ⟨stops, lent⟩
      exact ⟨⟨stops.atLine, stops.derives, fun valid => stops.valid ⟨valid.table, valid.pool⟩⟩, lent⟩
  | mark _ ih =>
    intro ctx s owed
    rw [deferredCount_bind]
    exact (ih _ ctx s (.here s)).mono (fun _ _ left => ⟨.widen owed left.1 fun _ => Nat.le_refl _, left.2⟩)
      fun _ _ left => left
  | inner le _ ih =>
    intro ctx s owed
    exact (ih _ ctx s (.here s)).mono (fun _ _ left => ⟨.widen owed left.1 le, left.2⟩) fun _ _ left => left
  | allocate atLine =>
    intro ctx s owed
    cases taken : s.pool.allocate _ with
    | ok made =>
      rw [allocate_of_ok ctx taken]
      exact ⟨.of_same owed rfl (Pool.allocate_slots taken) rfl,
        fun p distinct lends => lends.trans (.of_allocate (lends.distinct distinct) taken)⟩
    | error e =>
      rw [allocate_of_error ctx taken]
      refine ⟨⟨Pool.allocate_line taken ▸ atLine, .refl _, id⟩, ?_⟩
      rintro _ ⟨⟩ p _ lends
      exact lends
  | release split =>
    exact fun _ s owed => ⟨.of_same owed rfl (State.release_slots s _) rfl,
      fun _ distinct lends => lends.freeAll distinct split⟩
  | @giveBack _ _ _ _ _ drop _ line atLine split =>
    intro ctx s owed
    cases given : drop.foldlM (fun pool r => pool.release r.address line) s.pool with
    | ok pool =>
      rw [giveBack_of_ok ctx given]
      exact ⟨.of_same owed rfl (State.release_slots s _) rfl,
        fun p distinct lends => lends.freeAll distinct split⟩
    | error e =>
      rw [giveBack_of_error ctx given]
      refine ⟨⟨Pool.releaseAll_line given ▸ atLine, .refl _, id⟩, fun _ _ p distinct lends => ?_⟩
      rw [lends.releaseAll distinct split] at given
      cases given
  | holding split _ ih =>
    intro ctx s owed
    refine .holding ((ih ctx s owed).mono (fun _ _ turns => turns) ?_)
    rintro e s' ⟨stops, lent⟩
    refine ⟨⟨stops.atLine, stops.derives, fun valid => ?_⟩, ?_⟩
    · have valid := stops.valid valid
      exact ⟨valid.table, (State.release_slots s' _).trans valid.pool⟩
    · rintro _ ⟨⟩ p distinct lends
      exact (lent _ rfl p distinct lends).freeAll distinct split
  | regroup same _ ih =>
    intro ctx s owed
    exact (ih ctx s owed).mono
      (fun _ _ left => ⟨left.1, fun p distinct lends => left.2 p distinct (lends.perm same)⟩)
      fun _ _ left => ⟨left.1, fun rs mem p distinct lends => left.2 rs mem p distinct (lends.perm same)⟩
  | around same none _ ih =>
    intro ctx s owed
    refine (ih ctx s owed).mono ?_ ?_
    · rintro a s' ⟨turns, lent⟩
      exact ⟨turns, fun p distinct lends =>
        (lends.trans (lent s.pool (lends.distinct distinct) (.refl _))).perm (same a)⟩
    · rintro e s' ⟨stops, lent⟩
      refine ⟨stops, fun rs mem p distinct lends => ?_⟩
      obtain ⟨rs', mem', rfl⟩ := Option.map_eq_some_iff.1 mem
      have nothing := lent rs' mem' s.pool (lends.distinct distinct) (.refl _)
      rw [none rs' mem'] at nothing
      rwa [nothing.eq]
  | owed _ ih =>
    exact fun ctx s owed => (ih ctx s owed).mono (fun _ _ left => left) fun _ _ left => ⟨left.1, by simp⟩
  | held _ ih | weaken _ _ _ ih => exact ih

/-- The books of the action are right. -/
theorem Made.books (made : Made .free C d 0 before labels left after post m) (p : Pool) :
    Books p before m after fun q => ∀ rs ∈ left, p.Lends rs q := by
  intro distinct ctx s lends
  exact (made.orderly ctx s ⟨Nat.zero_le _, fun p _ => World.free_later d p.2⟩).mono
    (fun _ _ ended => ended.2 p distinct lends) fun _ _ refused rs mem => refused.2 rs mem p distinct lends

/-! ## What the lines name -/

/-- The value and the lines of an action that has ended are as they should be, if the table that it leaves
becomes that of the world, and an action that is refused has a fault. -/
def Proper (W : World) (post : α → Prop) : Result α → Prop
  | .done a code s' => s'.table.Derives W.table → post a ∧ ∀ i ∈ code, W.Line i
  | .failed e s' => s'.table = W.table → W.strict → e.isInternal = false

theorem Proper.mono {post' : α → Prop} {r : Result α} (proper : Proper W post r)
    (weaker : ∀ a, post a → post' a) : Proper W post' r := by
  cases r with
  | done a _ _ => exact fun derives => ⟨weaker a (proper derives).1, (proper derives).2⟩
  | failed _ _ => exact proper

/-- An action after another one that is known to end. -/
theorem Proper.next {f : α → Codegen β} {post : β → Prop} {ctx : Context} {s s' : State} {a : α}
    {code : List Instr} (done : m ctx s = .done a code s') (lines : ∀ i ∈ code, W.Line i)
    (rest : Proper W post (f a ctx s')) : Proper W post ((m >>= f) ctx s) := by
  show Proper W post (Codegen.bind m f ctx s)
  simp only [Codegen.bind, done]
  cases result : f a ctx s' with
  | done b code' s'' =>
    rw [result] at rest
    exact fun derives => ⟨(rest derives).1, List.forall_mem_append.2 ⟨lines, (rest derives).2⟩⟩
  | failed e s'' =>
    rw [result] at rest
    exact rest

/-- If the condition holds and the table is one on the way to that of the world, the lines of the action are
allowed, and so are its refusals. -/
theorem Made.proper (made : Made W C d k before labels left after post m) :
    C → ∀ (ctx : Context) (s : State) (p : Pool), W.Known s.table → s.Valid → W.Owed d k s → p.Distinct →
      p.Lends before s.pool → Proper W post (m ctx s) := by
  have named : ∀ {s : State} {r : Slot}, W.Known s.table → s.Valid → r ∈ s.pool.slots → W.Register r := by
    intro s r here valid listed
    rw [valid.pool] at listed
    obtain ⟨stored, isRegister⟩ := SlotTable.mem_registers.1 listed
    exact ⟨here.own stored (.inl isRegister), isRegister⟩
  induction made with
  | pure _ holds => exact fun known _ _ _ _ _ _ _ _ _ => ⟨holds known, by simp⟩
  | fail _ fault => exact fun known _ _ _ _ _ _ _ _ _ => fault known
  | @bindOf _ _ _ _ _ _ _ _ _ _ _ m f _ _ first ends rest ih ih' =>
    intro known ctx s p here valid owed distinct lends
    have leaves := first.orderly ctx s owed
    have ahead := ih known ctx s p here valid owed distinct lends
    show Proper W _ (Codegen.bind m f ctx s)
    unfold Codegen.bind
    cases result : m ctx s with
    | failed e s' =>
      rw [result] at ahead
      exact ahead
    | done a code s' =>
      rw [result] at leaves ahead
      obtain ⟨turns, lent⟩ := leaves
      have isSure := ends ctx s a code s' result
      have valid' := turns.valid valid
      -- what the rest leaves tells that the table in between is known
      have leaves' := (rest a isSure).orderly ctx s' turns.owed
      have next := fun given here' => ih' a isSure ⟨known, given⟩ ctx s' p here' valid' turns.owed distinct
        (lent p distinct lends)
      dsimp only
      cases result' : f a ctx s' with
      | failed e s'' =>
        rw [result'] at leaves' next
        intro same isStrict
        have derives : s'.table.Derives W.table := same ▸ leaves'.1.derives
        exact next (ahead derives).1 ⟨valid'.table, derives⟩ same isStrict
      | done b code' s'' =>
        rw [result'] at leaves' next
        intro derives
        have derives' := leaves'.1.derives.trans derives
        obtain ⟨given, lines⟩ := ahead derives'
        obtain ⟨holds, lines'⟩ := next given ⟨valid'.table, derives'⟩ derives
        exact ⟨holds, List.forall_mem_append.2 ⟨lines, lines'⟩⟩
  | context _ ih =>
    intro known ctx s
    rw [context_bind]
    exact ih ctx known ctx s
  | state _ ih =>
    intro known ctx s p here valid
    rw [state_bind]
    refine ih s ⟨known, fun name mem => ?_⟩ ctx s p here valid
    obtain ⟨r, held, rfl⟩ := List.mem_map.1 mem
    exact (named here valid (List.mem_map_of_mem (List.mem_filter.1 held).1)).1.named
  | table => exact fun _ _ _ _ here _ _ _ _ _ => ⟨here, by simp⟩
  | look g same _ gives fault =>
    intro known ctx s _ here _ _ _ _
    rw [same]
    cases result : g s.table with
    | ok a => exact fun _ => ⟨gives _ a result known here, by simp⟩
    | error e => exact fun same => fault e (same ▸ result) known
  | emitAll steps allowed =>
    exact fun known _ _ _ _ _ _ _ _ _ =>
      ⟨trivial, fun i mem => ⟨Instr.isCode_of_isStep (steps i mem), allowed known i mem⟩⟩
  | labelId _ _ _ ih =>
    intro known ctx s p here valid owed distinct lends
    exact .next rfl (by simp)
      (ih _ known ctx _ p here ⟨valid.table, valid.pool⟩ ⟨owed.length, owed.later⟩ distinct lends)
  | label _ ih =>
    intro known ctx s p here valid owed distinct lends
    exact .next rfl (by simp [World.Line, Instr.isCode, Instr.isLegible, Instr.hasTexts, Instr.operands])
      (ih known ctx s p here valid owed distinct lends)
  | lastLabel =>
    exact fun _ _ _ _ _ _ _ _ _ _ =>
      ⟨trivial, by simp [World.Line, Instr.isCode, Instr.isLegible, Instr.hasTexts, Instr.operands]⟩
  | intern value =>
    intro _ ctx s _ _ valid _ _ _ derives
    refine ⟨fun x kept => ?_, by simp⟩
    obtain ⟨stored, constant, -⟩ := SlotTable.intern_some (Prod.ext rfl kept)
    exact World.Known.own ⟨valid.table.intern _ _, derives⟩ stored (.inr constant)
  | defer _ _ => exact fun _ _ _ _ _ _ _ _ _ _ => ⟨trivial, by simp⟩
  | takeDeferred _ ih =>
    intro known ctx s p here valid owed distinct lends
    exact .next rfl (by simp) (ih _ owed.later known ctx _ p here ⟨valid.table, valid.pool⟩
      ⟨by simp [owed.length], by simp⟩ distinct lends)
  | mark _ ih =>
    intro known ctx s p here valid _
    rw [deferredCount_bind]
    exact ih _ known ctx s p here valid (.here s)
  | inner _ _ ih => exact fun known ctx s p here valid _ => ih _ known ctx s p here valid (.here s)
  | allocate _ =>
    intro _ ctx s _ here valid _ _ _
    cases taken : s.pool.allocate _ with
    | ok made =>
      rw [allocate_of_ok ctx taken]
      exact fun _ => ⟨named here valid (Pool.allocate_mem taken), by simp⟩
    | error e =>
      rw [allocate_of_error ctx taken]
      intro _ _
      unfold Pool.allocate at taken
      split at taken
      · cases taken
      · cases taken
        rfl
  | release _ => exact fun _ _ _ _ _ _ _ _ _ _ => ⟨trivial, by simp⟩
  | giveBack _ split =>
    intro _ ctx s p _ _ _ distinct lends
    rw [giveBack_of_ok ctx (lends.releaseAll distinct split _)]
    exact fun _ => ⟨trivial, by simp⟩
  | @holding _ _ _ _ _ _ _ drop _ _ m _ _ ih =>
    intro known ctx s p here valid owed distinct lends
    have proper := ih known ctx s p here valid owed distinct lends
    unfold Codegen.holding
    cases result : m ctx s <;> rw [result] at proper <;> exact proper
  | regroup same _ ih =>
    exact fun known ctx s p here valid owed distinct lends =>
      ih known ctx s p here valid owed distinct (lends.perm same)
  | around _ _ _ ih =>
    exact fun known ctx s p here valid owed distinct lends =>
      ih known ctx s s.pool here valid owed (lends.distinct distinct) (.refl _)
  | owed _ ih => exact ih
  | held _ ih =>
    intro known ctx s p here valid owed distinct lends
    refine ih ⟨known, fun r mem => named here valid ?_⟩ ctx s p here valid owed distinct lends
    rw [lends.slots]
    exact List.mem_map_of_mem (lends.free r mem)
  | weaken stronger weaker _ ih =>
    intro known ctx s p here valid owed distinct lends
    exact (ih (stronger known) ctx s p here valid owed distinct lends).mono fun a => weaker a known

/-! ## Further rules -/

variable (W C d k) in
/-- A single operation: it takes the registers that `after` says, and none if it is refused. -/
abbrev Single (after : α → List Slot) (post : α → Prop) (m : Codegen α) : Prop :=
  Made W C d k [] [] (some []) after post m

variable (W C d k) in
/-- A part of the code of an expression: it takes the registers that `after` says. -/
abbrev Part (after : α → List Slot) (post : α → Prop) (m : Codegen α) : Prop :=
  Made W C d k [] [] none after post m

variable (W C d k) in
abbrev Acts (m : Codegen Unit) : Prop := Single W C d k (fun _ => []) (fun _ => True) m

variable (W C d k) in
abbrev Works (m : Codegen Unit) : Prop := Part W C d k (fun _ => []) (fun _ => True) m

variable (W C d k) in
/-- A part with the value of a node. -/
abbrev Gives (n : Node) (m : Codegen Operand) : Prop := Part W C d k Operand.holds (W.Value n) m

theorem Single.borrows (single : Single .free C d 0 after post m) : Borrows after m :=
  fun p => (Made.books single p).weaken fun _ lends => lends [] rfl

theorem Part.owes (part : Part .free C d 0 after post m) : Owes after m :=
  fun p => (Made.books part p).weaken fun _ _ => trivial

namespace Made

theorem bind {mid : α → List Slot} {given : α → Prop} {after : β → List Slot} {post : β → Prop} {f : α → Codegen β}
    (first : Made W C d k before [] left mid given m)
    (rest : ∀ a, Made W (C ∧ given a) d k (mid a) labels left after post (f a)) :
    Made W C d k before labels left after post (m >>= f) :=
  .bindOf first (fun _ _ _ _ _ _ => trivial) fun a _ => rest a

/-- The value of the first action does not count. -/
theorem next {mid : α → List Slot} {given : α → Prop} {after : β → List Slot} {post : β → Prop} {f : α → Codegen β}
    (first : Made W C d k before [] left mid given m)
    (rest : ∀ a, Made W C d k (mid a) labels left after post (f a)) :
    Made W C d k before labels left after post (m >>= f) :=
  .bind first fun a => .weaken And.left (fun _ _ holds => holds) (rest a)

theorem emit {i : Instr} (isStep : i.isStep = true) (named : C → ∀ name ∈ i.operands, W.names name) :
    Made W C d k before [] left (fun _ => before) (fun _ => True) (Codegen.emit i) := by
  refine .emitAll ?_ fun known => ?_
  · exact List.forall_mem_singleton.2 isStep
  · exact List.forall_mem_singleton.2 (named known)

/-- A line without operands. -/
theorem line {i : Instr} (isStep : i.isStep = true) (none : i.operands = []) :
    Made W C d k before [] left (fun _ => before) (fun _ => True) (Codegen.emit i) :=
  .emit isStep (by simp [none])

theorem done {a : α} : Made W C d k before [] left (fun _ => before) (fun _ => True) (Codegen.pure a) :=
  .pure (.refl _) fun _ => trivial

theorem deferredCount :
    Made W C d k before [] left (fun _ => before) (fun _ => True) Codegen.deferredCount :=
  .state fun _ => .done

theorem calledFunction :
    Made W C d k before [] left (fun _ => before) (fun _ => True) Codegen.calledFunction :=
  .context fun _ => .done

theorem frame {after' : α → List Slot} (same : ∀ a, (before ++ after a).Perm (after' a))
    (made : Single W C d k after post m) : Made W C d k before [] (some before) after' post m :=
  .around same (by simp) made

/-- An operation that keeps no register, as a part of an expression. -/
theorem step (single : Single W C d k (fun _ => []) post m) :
    Made W C d k before [] none (fun _ => before) post m :=
  .owed (.frame (by simp) single)

theorem take (single : Single W C d k after post m) :
    Made W C d k before [] none (fun a => before ++ after a) post m :=
  .owed (.frame (fun _ => .refl _) single)

/-- A part of an expression while registers of another one are held. -/
theorem stepPart (part : Part W C d k (fun _ => []) post m) :
    Made W C d k before [] none (fun _ => before) post m :=
  .around (by simp) (by simp) part

theorem takePart (part : Part W C d k after post m) :
    Made W C d k before [] none (fun a => before ++ after a) post m :=
  .around (fun _ => .refl _) (by simp) part

end Made

/-! ## Runs -/

/-- The steps that were put off may be done. -/
structure State.Ready (strict : Prop) (s : State) : Prop where
  valid : s.Valid
  deferred : ∀ p ∈ s.deferred, p.2.Ready strict s.table

/-- What an action without a value leaves that has ended. -/
structure State.Runs (strict : Prop) (s : State) (code : List Instr) (s' : State) : Prop where
  ready : s'.Ready strict
  derives : s.table.Derives s'.table
  pool : s'.pool = s.pool
  lines : ∀ i ∈ code, i.isCode = true ∧ ∀ name ∈ i.operands, s'.table.HasName name

namespace State.Runs

variable {strict : Prop} {s s' s'' : State} {code code' : List Instr}

theorem trans (first : s.Runs strict code s') (second : s'.Runs strict code' s'') :
    s.Runs strict (code ++ code') s'' where
  ready := second.ready
  derives := first.derives.trans second.derives
  pool := second.pool.trans first.pool
  lines := by
    refine List.forall_mem_append.2 ⟨fun i mem => ?_, second.lines⟩
    obtain ⟨isCode, named⟩ := first.lines i mem
    exact ⟨isCode, fun name isOperand => (named name isOperand).mono second.derives⟩

end State.Runs

/-- An action that is made of the code of nodes names cells of the table that it leaves, and is refused for
no defect if its nodes are sound. -/
theorem Made.runs {strict : Prop} {m : Codegen Unit} {ctx : Context} {s : State} (nodes : List Node)
    (made : ∀ (W : World) (d : Nat), (∀ line, W.inside line) → (W.strict → strict) →
      (∀ n ∈ nodes, W.Fits d n) → Works W True d 0 m)
    (ready : s.Ready strict) (readyNodes : ∀ n ∈ nodes, n.Ready strict s.table) :
    (m.Ends ctx s fun _ code s' => s.Runs strict code s') ∧
      (m ctx s).Leaves (fun _ _ => True) fun e _ => strict → e.isInternal = false := by
  -- a bound on the depth of all nodes
  let all := nodes ++ s.deferred.map Prod.snd
  let d := Node.maxPostDepth all + 1
  have depth : ∀ n ∈ all, n.postDepth < d := fun n mem => Nat.lt_succ_of_le (Node.le_maxPostDepth mem)
  have fits : ∀ {t : SlotTable} (valid : t.Valid), s.table.Derives t →
      Works (.ofTable t valid strict) True d 0 m ∧ (World.ofTable t valid strict).Owed d 0 s := by
    refine fun valid derives => ⟨made _ d (fun _ => trivial) id fun n mem => ?_, Nat.zero_le _, fun p mem => ?_⟩
    · exact World.fits_ofTable.2 ⟨(readyNodes n mem).mono derives,
        fun _ => Nat.le_of_lt (depth n (List.mem_append_left _ mem))⟩
    · exact ⟨World.fits_ofTable.2 ⟨(ready.deferred p mem).mono derives, fun _ => Nat.le_refl _⟩,
        fun _ => depth p.2 (List.mem_append_right _ (List.mem_map_of_mem mem))⟩
  have distinct : s.pool.Distinct := ready.valid.addresses_nodup
  -- how the table grows is known without it
  have loose := (made .free d (fun _ => trivial) False.elim fun n _ => World.free_fits d n).orderly ctx s
    ⟨Nat.zero_le _, fun p _ => World.free_later d p.2⟩
  cases result : m ctx s with
  | done a code s' =>
    rw [result] at loose
    have valid' := loose.1.valid ready.valid
    obtain ⟨made, owed⟩ := fits valid'.table loose.1.derives
    have leaves := made.orderly ctx s owed
    have proper := made.proper trivial ctx s s.pool ⟨ready.valid.table, loose.1.derives⟩ ready.valid owed
      distinct (.refl _)
    rw [result] at leaves proper
    refine ⟨.of result ⟨⟨valid', fun p mem => ?_⟩, loose.1.derives, ?_, (proper (.refl _)).2⟩, trivial⟩
    · exact (World.fits_ofTable.1 (leaves.1.owed.later p mem).1).1
    · exact (loose.2 s.pool distinct (.refl _)).eq
  | failed e s' =>
    rw [result] at loose
    obtain ⟨made, owed⟩ := fits (loose.1.valid ready.valid).table loose.1.derives
    have proper := made.proper trivial ctx s s.pool ⟨ready.valid.table, loose.1.derives⟩ ready.valid owed
      distinct (.refl _)
    rw [result] at proper
    refine ⟨fun _ _ _ done => ?_, proper rfl⟩
    cases result.symm.trans done

end Codegen

end ContractCompiler
