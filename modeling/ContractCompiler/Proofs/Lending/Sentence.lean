import ContractCompiler.Proofs.Codegen.Made.Node
import ContractCompiler.Proofs.Operation
import ContractCompiler.Proofs.Ownership
import ContractCompiler.Proofs.Sentence.Woven

/-!
# Proofs.Lending.Sentence — the registers of sentences

Every sentence gives back all that it took. With what is known of single operations and of expressions,
`Codegen.registers_returned` says on which paths registers come back.
-/

namespace ContractCompiler

set_option autoImplicit false

namespace Codegen

variable (line : Nat)

/-! ## Phrases -/

theorem freeze_owes (code : List Instr) : Owes (fun _ => []) (freeze code line) :=
  fun _ => .bind .table fun _ => .bind (.modifyState fun _ => rfl) fun _ =>
    .bind (.ofOutcome _ fun _ _ => trivial) fun _ => .emitAll _

theorem phrase_owes (tokens : List Token) (isConst : Bool) :
    Owes (fun _ => []) (phrase tokens isConst line) := by
  refine fun p => .bind .names fun names => .bind (.ofOutcome _ fun _ _ => trivial) fun bound => ?_
  split
  · exact .pure (.refl _)
  · rename_i bound
    have body := (phraseBody_made (C := True) (World.free_admits 0 bound) id).owes
    refine .bind (.comment _) fun _ => .bind (.capture (body p)) fun code => ?_
    dsimp only
    split
    · exact freeze_owes _ _ p
    · exact .emitAll _

theorem condition_owes (tokens : List Token) (target : String) (when : Bool) :
    Owes (fun _ => []) (condition tokens target when line) :=
  fun p => .bind .names fun _ => .bind (.ofOutcome _ fun _ _ => trivial) fun node =>
    .bind (.within ((node.code_free.jump (C := True) (k := 0) target when).owes p)) fun _ =>
      .checkRegisters _ fun _ _ => trivial

theorem Woven.owes {ofPhrase ofTest : List Token → Nat → Prop} {exits labels : List String}
    {m m' : Codegen Unit} (woven : Woven Eq ofPhrase ofTest exits labels m m') : Owes (fun _ => []) m := by
  intro p
  induction woven with
  | phrase _ isConst => exact phrase_owes _ _ isConst p
  | condition _ _ _ when _ => exact condition_owes _ _ _ when p
  | nothing => exact .pure (.refl _)
  | andThen _ _ ih ih' => exact .bind ih fun _ => ih'
  | labelId _ _ _ ih => exact .bind (.labelId _) fun id => ih id id rfl
  | label _ _ _ ih => exact .bind (.emit _) fun _ => ih
  | lastLabel _ _ | jump _ _ _ => exact .emit _
  | comment line => exact .comment line
  | loop _ _ _ ih => exact .within ih

theorem sentence_owes (x : Sentence) : Owes (fun _ => []) (sentence x) := by
  have woven : Woven Eq (fun _ _ => True) (fun _ _ => True) [] [] (sentence x) (sentence x) :=
    sentence_woven x (fun _ _ => trivial) fun _ _ => trivial
  exact woven.owes

/-! ## How many registers an operand takes -/

section Counts

variable (line : Nat) (ctx : Context) (s : State)

theorem literal_ends_one (value : Word) :
    (literal value line).Ends ctx s fun o _ _ => o.holds = [] ∨ o.holds = [o.slot] := by
  refine .bind fun kept _ s' _ => ?_
  dsimp only
  split
  · exact .pure (.inl rfl)
  · refine .bind fun r _ s' _ => ?_
    dsimp only
    split <;> exact .bind (.emit (.pure (.inr rfl)))

theorem place_ends_one (slot : Slot) :
    (place slot line).Ends ctx s fun found _ _ => found.holds.length ≤ 1 := by
  unfold place
  split
  · exact .pure (Nat.zero_le 1)
  · exact .bind fun _ _ _ _ => .pure (Nat.zero_le 1)
  · exact .fail _
  · exact .fail _
  · unfold placeThrough
    split
    · exact .bind fun _ _ _ _ => .pure (Nat.zero_le 1)
    · split
      · exact .pure (Nat.zero_le 1)
      · refine .bind ((literal_ends_one line ctx s _).mono fun o _ s' one => .pure ?_)
        rcases one with none | one
        · simp [Place.holds, none]
        · simp [Place.holds, one]

theorem resolve_ends_one (slot : Slot) :
    (resolve slot line).Ends ctx s fun o _ _ => o.holds = [] ∨ o.holds = [o.slot] := by
  unfold resolve
  split
  · split
    · exact literal_ends_one line ctx s _
    · exact .fail _
  · refine .bind fun found _ s' _ => ?_
    dsimp only
    split
    · exact .pure (.inl rfl)
    · exact .bind fun _ _ _ _ => .bind fun _ _ _ _ => .bind fun _ _ _ _ => .pure (.inr rfl)

end Counts

/-! ## All paths -/

section Paths

variable {α : Type} {m : Codegen α} {holds : α → List Slot} {ctx : Context} {s : State}

/-- An action that takes nothing leaves the pool as it was, whether it ends or is refused. -/
theorem Borrows.pool_eq (borrows : Borrows (fun _ => []) m) (distinct : s.pool.Distinct) :
    (m ctx s).state.pool = s.pool := by
  have left := borrows s.pool distinct ctx s (.refl _)
  cases result : m ctx s <;> rw [result] at left <;> exact left.eq

theorem Borrows.leaves {good : α → Prop} (borrows : Borrows holds m) (distinct : s.pool.Distinct)
    (ends : m.Ends ctx s fun a _ _ => good a) :
    (m ctx s).Leaves (fun a s' => s.pool.Lends (holds a) s'.pool ∧ good a) fun _ s' => s'.pool = s.pool := by
  exact ((borrows s.pool distinct ctx s (.refl _)).and_ends ends).mono (fun _ _ facts => facts)
    fun _ _ lends => lends.eq

theorem Owes.ends (owes : Owes holds m) (distinct : s.pool.Distinct) :
    m.Ends ctx s fun a _ s' => s.pool.Lends (holds a) s'.pool := by
  intro a code s' done
  have left := owes s.pool distinct ctx s (.refl _)
  rw [done] at left
  exact left

theorem select_borrows (op : Operation) (line : Nat) : Borrows (fun _ => []) (op.select line) := by
  cases op with
  | assign target source => exact (assign_made (C := False) (d := 0) trivial False.elim False.elim).borrows
  | operate op left right => exact (operate_made (C := False) (d := 0) trivial op False.elim False.elim).borrows
  | update u target => exact (update_made (C := False) (d := 0) trivial u False.elim).borrows
  | compare relation left right label =>
    exact (compare_made (C := False) (d := 0) trivial relation label False.elim False.elim False.elim).borrows
  | push s => exact (push_made (C := False) (d := 0) trivial False.elim).borrows

/-- An operation and a keyword of control leave the registers as they were, whether they end or are
refused. A slot that is brought into a cell, and a place that is looked for, take the one register that is
named at most, and none if they are refused. An expression takes the registers that its value names, which
were free and are different. A jump and a sentence take none, and neither does what a phrase does before it is
checked that no register is held. -/
theorem registers_returned (ctx : Context) (s : State) (line : Nat) (distinct : s.pool.Distinct) :
    (∀ op : Operation, (op.select line ctx s).state.pool = s.pool) ∧
    (∀ word value, (control word value line ctx s).state.pool = s.pool) ∧
    (∀ slot, (resolve slot line ctx s).Leaves
      (fun o s' => s.pool.Lends o.holds s'.pool ∧ (o.holds = [] ∨ o.holds = [o.slot]))
      fun _ s' => s'.pool = s.pool) ∧
    (∀ slot, (place slot line ctx s).Leaves
      (fun found s' => s.pool.Lends found.holds s'.pool ∧ found.holds.length ≤ 1)
      fun _ s' => s'.pool = s.pool) ∧
    (∀ n : Node, n.eval.Ends ctx s fun o _ s' => s.pool.Lends o.holds s'.pool) ∧
    (∀ (n : Node) (label : String) (when : Bool),
      (n.code.jump label when).Ends ctx s fun _ _ s' => s'.pool = s.pool) ∧
    (∀ c : Command, (command c).Ends ctx s fun _ _ s' => s'.pool = s.pool) ∧
    ∀ x : Sentence, (sentence x).Ends ctx s fun _ _ s' => s'.pool = s.pool := by
  refine ⟨fun op => ?_, fun word value => ?_, fun slot => ?_, fun slot => ?_, fun n => ?_,
    fun n label when => ?_, fun c => ?_, fun x => ?_⟩
  · exact (select_borrows op line).pool_eq distinct
  · exact (control_made (C := False) (d := 0) trivial word False.elim False.elim).borrows.pool_eq distinct
  · refine Borrows.leaves ?_ distinct (resolve_ends_one line ctx s slot)
    exact (resolve_made (C := False) (d := 0) trivial False.elim).borrows
  · refine Borrows.leaves ?_ distinct (place_ends_one line ctx s slot)
    exact (place_made (C := False) (d := 0) trivial False.elim False.elim).borrows
  · exact (n.code_free.gives (C := True) (k := 0)).owes.ends distinct
  · have made := n.code_free.jump (C := True) (k := 0) label when
    exact (made.owes.ends distinct).mono fun _ _ _ lends => lends.eq
  · have made := command_made (C := True) (k := 0) (World.free_admits 0 c)
    exact (made.owes.ends distinct).mono fun _ _ _ lends => lends.eq
  · exact ((sentence_owes x).ends distinct).mono fun _ _ _ lends => lends.eq

/-- Two registers are in use and one is free. `a[x] *= a[x]` takes it for the left operand and is refused
for the right one: then it is free again. -/
theorem registers_returned_shortage :
    let element := Sample.a.withOffset (.dynamic 3) .long
    let s := Sample.state 0 [Sample.r0, Sample.r1]
    ∃ s', (Operation.operate .mul element element).select 1 { settings := {}, functions := [] } s =
        .failed (.shortage 1 (.registers 3)) s' ∧ s'.pool = s.pool := by
  intro element s
  exact ⟨_, rfl, (registers_returned { settings := {}, functions := [] } s 1 (by decide)).1
    (.operate .mul element element)⟩

end Paths

end Codegen

end ContractCompiler
