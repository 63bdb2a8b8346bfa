import ContractCompiler.Codegen.Node
import ContractCompiler.Proofs.Codegen.Straight
import ContractCompiler.Proofs.Label

/-!
# Proofs.Codegen.Growth — what every action keeps

Whatever an action is, the table stays valid and only grows, the registers stay the same, and the
labels of its code carry numbers that no label had before (`Tame`). There is one law for each way to
make an action.

An action that takes a number for labels of its own is tame if it defines each of them once
(`Labelled`, `Tame.labelId`).
-/

namespace ContractCompiler

set_option autoImplicit false

namespace Codegen

variable {α β : Type}

/-- What follows a state while code is made. -/
structure Extends (ctx : Context) (s : State) (code : List Instr) (s' : State) : Prop where
  valid : s'.Valid
  grows : s.table.Grows s'.table
  numbered : Numbered ctx.settings ctx.randomId s.labels code s'.labels

theorem Extends.trans {ctx : Context} {s s' s'' : State} {code rest : List Instr}
    (first : Extends ctx s code s') (second : Extends ctx s' rest s'') :
    Extends ctx s (code ++ rest) s'' :=
  ⟨second.valid, first.grows.trans second.grows, first.numbered.append second.numbered⟩

/-- The table only grows, and the labels of the code are new. -/
def Tame (m : Codegen α) : Prop :=
  ∀ (ctx : Context) (s : State), s.Valid → m.Ends ctx s fun _ code s' => Extends ctx s code s'

/-- An action that defines the labels of the number `id` that `marks` lists, each of them once, and is
tame otherwise. -/
def Labelled (id : String) (marks : List Mark) (m : Codegen α) : Prop :=
  ∀ (ctx : Context) (s : State), s.Valid → m.Ends ctx s fun _ code s' => ∃ inner : List Instr,
    Extends ctx s inner s' ∧
      (Instr.labels code).Perm (marks.map (·.text id) ++ Instr.labels inner)

/-! ## Laws -/

namespace Tame

variable {m : Codegen α} {f : α → Codegen β}

/-- An action that changes nothing that counts here. -/
theorem of_unchanged
    (unchanged : ∀ ctx s, m.Ends ctx s fun _ code s' => Instr.labels code = [] ∧
      s'.table = s.table ∧ s'.pool.slots = s.pool.slots ∧ s'.labels = s.labels) : Tame m := by
  intro ctx s valid
  refine (unchanged ctx s).mono ?_
  rintro _ code s' ⟨none, table, slots, labels⟩
  refine ⟨⟨table ▸ valid.table, by rw [slots, table, valid.pool]⟩, table ▸ .refl _, ?_⟩
  rw [labels]
  exact .of_labels_nil none _

theorem pure (a : α) : Tame (Codegen.pure a) :=
  of_unchanged fun _ _ => .pure ⟨rfl, rfl, rfl, rfl⟩

theorem fail (e : CompileError) : Tame (Codegen.fail e : Codegen α) := fun _ _ _ => .fail e

theorem bindOf {post : α → Prop} (first : Tame m) (ends : ∀ ctx s, m.Ends ctx s fun a _ _ => post a)
    (rest : ∀ a, post a → Tame (f a)) : Tame (m >>= f) := by
  intro ctx s valid
  refine .bind (((first ctx s valid).and (ends ctx s)).mono ?_)
  rintro a code s' ⟨holds, known⟩
  exact (rest a known ctx s' holds.valid).mono fun _ _ _ holds' => holds.trans holds'

theorem bind (first : Tame m) (rest : ∀ a, Tame (f a)) : Tame (m >>= f) :=
  bindOf first (fun _ _ _ _ _ _ => trivial) fun a _ => rest a

theorem context : Tame Codegen.context :=
  of_unchanged fun _ _ => .of rfl ⟨rfl, rfl, rfl, rfl⟩

theorem state : Tame Codegen.state :=
  of_unchanged fun _ _ => .of rfl ⟨rfl, rfl, rfl, rfl⟩

theorem table : Tame Codegen.table :=
  of_unchanged fun _ _ => .of rfl ⟨rfl, rfl, rfl, rfl⟩

theorem emitAll {code : List Instr} (none : Instr.labels code = []) : Tame (Codegen.emitAll code) :=
  of_unchanged fun _ _ => .emitAll ⟨none, rfl, rfl, rfl⟩

theorem emit {i : Instr} (none : Instr.labels [i] = []) : Tame (Codegen.emit i) :=
  of_unchanged fun _ _ => .emit ⟨none, rfl, rfl, rfl⟩

theorem ofOutcome (outcome : Outcome α) : Tame (Codegen.ofOutcome outcome) :=
  of_unchanged fun _ _ => .ofOutcome fun _ _ => ⟨rfl, rfl, rfl, rfl⟩

theorem holding {rs : List Slot} (inner : Tame m) : Tame (Codegen.holding rs m) :=
  fun ctx s valid => .holding (inner ctx s valid)

theorem release (rs : List Slot) : Tame (Codegen.release rs) :=
  of_unchanged fun _ s => .release ⟨rfl, rfl, State.release_slots s rs, rfl⟩

theorem giveBack (rs : List Slot) (line : Nat) : Tame (Codegen.giveBack rs line) :=
  of_unchanged fun _ s => .giveBack ⟨rfl, rfl, State.release_slots s rs, rfl⟩

theorem allocate (line : Nat) : Tame (Codegen.allocate line) := by
  refine of_unchanged fun ctx s => .bind (.of rfl (.bind (.ofOutcome fun (r, pool) taken => ?_)))
  exact .bind (.modifyState (.pure ⟨rfl, rfl, Pool.allocate_slots taken, rfl⟩))

theorem intern (value : Word) : Tame (Codegen.intern value) := by
  intro ctx s valid
  have interns := s.table.interns_intern value ctx.settings.maxConstVars
  refine .bind (.of rfl (.bind (.of rfl (.bind (.modifyState (.pure ⟨⟨?_, ?_⟩, ?_, ?_⟩))))))
  · exact valid.table.intern _ _
  · exact valid.pool.trans interns.grows.registers.symm
  · exact interns.grows
  · exact .of_labels_nil rfl _

theorem takeDeferred (mark : Nat) : Tame (Codegen.takeDeferred mark) :=
  of_unchanged fun _ _ => .of rfl ⟨rfl, rfl, rfl, rfl⟩

theorem defer (step : Step) (target : Node) : Tame (Codegen.defer step target) :=
  of_unchanged fun _ _ => .of rfl ⟨rfl, rfl, rfl, rfl⟩

/-- An action in a context with the same numbers for labels. -/
theorem within {change : Context → Context} (inner : Tame m)
    (settings : ∀ ctx, (change ctx).settings = ctx.settings := by intro; rfl)
    (randomId : ∀ ctx, (change ctx).randomId = ctx.randomId := by intro; rfl) :
    Tame (Codegen.within change m) := by
  intro ctx s valid
  refine .within ((inner (change ctx) s valid).mono ?_)
  rintro _ code s' ⟨valid', grows, numbered⟩
  exact ⟨valid', grows, settings ctx ▸ randomId ctx ▸ numbered⟩

end Tame

namespace Labelled

variable {m : Codegen α} {f : α → Codegen β} {id : String} {marks : List Mark}

theorem of_tame (tame : Tame m) (none : [] = marks.map (·.text id)) : Labelled id marks m := by
  obtain rfl := List.map_eq_nil_iff.1 none.symm
  exact fun ctx s valid => (tame ctx s valid).mono fun _ code _ holds => ⟨code, holds, .refl _⟩

theorem bindOf {post : α → Prop} (first : Tame m) (ends : ∀ ctx s, m.Ends ctx s fun a _ _ => post a)
    (rest : ∀ a, post a → Labelled id marks (f a)) : Labelled id marks (m >>= f) := by
  intro ctx s valid
  refine .bind (((first ctx s valid).and (ends ctx s)).mono ?_)
  rintro a code s' ⟨holds, known⟩
  refine (rest a known ctx s' holds.valid).mono ?_
  rintro _ code' s'' ⟨inner, holds', labels⟩
  refine ⟨code ++ inner, holds.trans holds', ?_⟩
  rw [Instr.labels_append, Instr.labels_append]
  refine (labels.append_left _).trans ?_
  rw [← List.append_assoc, ← List.append_assoc]
  exact List.perm_append_comm.append_right _

theorem bind (first : Tame m) (rest : ∀ a, Labelled id marks (f a)) : Labelled id marks (m >>= f) :=
  bindOf first (fun _ _ _ _ _ _ => trivial) fun a _ => rest a

/-- A label of its own. -/
theorem label {f : Unit → Codegen β} {text : String} {labels : List String}
    (same : text :: labels = marks.map (·.text id))
    (rest : ∀ marks, labels = marks.map (·.text id) → Labelled id marks (f ())) :
    Labelled id marks (Codegen.emit (.label text) >>= f) := by
  cases marks with
  | nil => cases same
  | cons mark marks =>
    obtain ⟨rfl, others⟩ := List.cons.inj same
    intro ctx s valid
    refine .bind (.emit ((rest marks others ctx s valid).mono ?_))
    rintro _ code s' ⟨inner, holds, labels⟩
    exact ⟨inner, holds, labels.cons (mark.text id)⟩

theorem lastLabel {text : String} (same : [text] = marks.map (·.text id)) :
    Labelled id marks (Codegen.emit (.label text)) := by
  intro ctx s valid
  refine .emit ⟨[], ⟨valid, .refl _, .of_labels_nil rfl _⟩, ?_⟩
  rw [← same]
  exact .refl _

/-- An action that defines no label of a number is tame. -/
theorem tame (labelled : Labelled id [] m) : Tame m := by
  intro ctx s valid
  refine (labelled ctx s valid).mono ?_
  rintro _ code s' ⟨inner, ⟨valid', grows, numbered⟩, same⟩
  refine ⟨valid', grows, numbered.le, fun l mem => numbered.numbers l (same.mem_iff.1 mem), fun distinct => ?_⟩
  exact same.nodup_iff.2 (numbered.nodup distinct)

end Labelled

/-- An action with labels of its own. -/
theorem Tame.labelId {f : String → Codegen α} {line : Nat} (marks : List Mark)
    (different : marks.Nodup) (rest : ∀ id, Labelled id marks (f id)) :
    Tame (Codegen.labelId line >>= f) := by
  intro ctx s valid
  have valid' : State.Valid { s with labels := s.labels + 1 } := ⟨valid.table, valid.pool⟩
  refine .bind (.of rfl ((rest _ ctx _ valid').mono ?_))
  rintro _ code s' ⟨inner, holds, labels⟩
  exact ⟨holds.valid, holds.grows, holds.numbered.own different labels⟩

end Codegen

end ContractCompiler
