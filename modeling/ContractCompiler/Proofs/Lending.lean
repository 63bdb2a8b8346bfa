import ContractCompiler.Codegen.Operand
import ContractCompiler.Proofs.Codegen

/-!
# Proofs.Lending — which registers an action takes and which it gives back

A pool lends registers out. `Pool.Lends p rs p'` says that `p'` is the pool `p` with the registers `rs`
lent out: each of them was free, each is named once, and every other register is as it was.

`Codegen.Books p before m after refused` keeps the books of an action: where the pool `p` has lent out
the registers `before`, it has lent out those that `after` says once the action has ended, and what is
left in the pool satisfies `refused` if the action is refused. There is one law for each way to make an
action, so that a proof about an action follows its steps.
-/

namespace ContractCompiler

set_option autoImplicit false

namespace Pool

variable {p p' p'' : Pool} {rs rs' keep drop : List Slot} {r : Slot}

/-- No two registers share an address. -/
def Distinct (p : Pool) : Prop := (p.slots.map (·.address)).Nodup

instance (p : Pool) : Decidable p.Distinct := inferInstanceAs (Decidable (List.Nodup _))

/-- The registers `rs`, all of them free before, are lent out, and nothing else has changed. -/
structure Lends (p : Pool) (rs : List Slot) (p' : Pool) : Prop where
  free : ∀ r ∈ rs, ⟨r, false⟩ ∈ p.registers
  nodup : rs.Nodup
  marked : p'.registers = p.registers.map fun r => if r.slot ∈ rs then ⟨r.slot, true⟩ else r

/-- An address tells which register is meant. -/
theorem Distinct.eq_of_address (distinct : p.Distinct) {r r' : Register} (listed : r ∈ p.registers)
    (listed' : r' ∈ p.registers) (same : r.slot.address = r'.slot.address) : r = r' := by
  rw [Distinct, slots, List.map_map] at distinct
  exact List.inj_on_of_nodup_map distinct listed listed' same

namespace Lends

theorem refl (p : Pool) : p.Lends [] p := ⟨by simp, List.nodup_nil, by simp⟩

/-- Nothing has changed if nothing is lent out. -/
theorem eq (lends : p.Lends [] p') : p' = p := by
  have marked := lends.marked
  simp only [List.not_mem_nil, if_false, List.map_id'] at marked
  cases p
  cases p'
  exact congrArg Pool.mk marked

theorem slots (lends : p.Lends rs p') : p'.slots = p.slots := by
  rw [Pool.slots, Pool.slots, lends.marked, List.map_map]
  refine List.map_congr_left fun r _ => ?_
  simp only [Function.comp_apply]
  split <;> rfl

theorem distinct (lends : p.Lends rs p') (distinct : p.Distinct) : p'.Distinct := by
  rwa [Distinct, lends.slots]

/-- A register that is still free is none of those that are lent out. -/
theorem still_free (lends : p.Lends rs p') (free : ⟨r, false⟩ ∈ p'.registers) :
    ⟨r, false⟩ ∈ p.registers ∧ r ∉ rs := by
  rw [lends.marked] at free
  obtain ⟨x, listed, same⟩ := List.mem_map.1 free
  split at same
  · cases same
  · rename_i other
    subst same
    exact ⟨listed, other⟩

theorem holds (lends : p.Lends rs p') (mem : r ∈ rs) : p'.Holds r.address := by
  refine ⟨⟨r, true⟩, ?_, rfl, rfl⟩
  rw [lends.marked]
  exact List.mem_map.2 ⟨_, lends.free r mem, by simp [mem]⟩

theorem perm (lends : p.Lends rs p') (same : rs.Perm rs') : p.Lends rs' p' where
  free r mem := lends.free r (same.mem_iff.2 mem)
  nodup := same.nodup_iff.1 lends.nodup
  marked := by simp only [lends.marked, same.mem_iff]

/-- What is lent out one after the other adds up. -/
theorem trans (first : p.Lends rs p') (second : p'.Lends rs' p'') : p.Lends (rs ++ rs') p'' where
  free r mem := by
    rcases List.mem_append.1 mem with old | new
    · exact first.free r old
    · exact (first.still_free (second.free r new)).1
  nodup := by
    refine List.nodup_append.2 ⟨first.nodup, second.nodup, ?_⟩
    rintro r old _ new rfl
    exact (first.still_free (second.free r new)).2 old
  marked := by
    rw [second.marked, first.marked, List.map_map]
    refine List.map_congr_left fun r _ => ?_
    simp only [Function.comp_apply, List.mem_append]
    by_cases old : r.slot ∈ rs <;> simp [old]

theorem of_allocate {line : Nat} (distinct : p.Distinct) (taken : p.allocate line = .ok (r, p')) :
    p.Lends [r] p' := by
  obtain ⟨before, after, old, new⟩ := allocate_takes taken
  have mem : ⟨r, false⟩ ∈ p.registers := by simp [old]
  refine ⟨List.forall_mem_singleton.2 mem, List.nodup_singleton r, ?_⟩
  -- no other register has the slot that is taken
  have nodup : (before ++ ⟨r, false⟩ :: after).Nodup := by
    rw [← old]
    refine .of_map (fun x : Register => x.slot.address) ?_
    rwa [Distinct, Pool.slots, List.map_map] at distinct
  have other : ∀ x ∈ before ++ after, x.slot ≠ r := by
    intro x listed same
    have listed' : x ∈ p.registers := by
      rw [old]
      simp only [List.mem_append, List.mem_cons] at listed ⊢
      tauto
    have isRegister := distinct.eq_of_address listed' mem (congrArg Slot.address same)
    rw [isRegister] at listed
    exact (List.nodup_middle.1 nodup).notMem listed
  rw [new, old, List.map_append, List.map_cons]
  have unchanged : ∀ l : List Register, (∀ x ∈ l, x ∈ before ++ after) →
      l.map (fun x => if x.slot ∈ [r] then ⟨x.slot, true⟩ else x) = l := by
    intro l inside
    refine (List.map_congr_left fun x mem => ?_).trans (List.map_id l)
    simp [other x (inside x mem)]
  rw [unchanged before fun x mem => List.mem_append_left _ mem,
    unchanged after fun x mem => List.mem_append_right _ mem]
  simp

/-- A register comes back. -/
theorem free_one (lends : p.Lends (r :: rs) p') (distinct : p.Distinct) :
    p.Lends rs (p'.free r.address) where
  free x mem := lends.free x (List.mem_cons_of_mem _ mem)
  nodup := (List.nodup_cons.1 lends.nodup).2
  marked := by
    obtain ⟨notMem, -⟩ := List.nodup_cons.1 lends.nodup
    have mem := lends.free r List.mem_cons_self
    show p'.registers.map _ = _
    rw [lends.marked, List.map_map]
    refine List.map_congr_left fun x listed => ?_
    by_cases same : x.slot.address = r.address
    · obtain rfl : x = ⟨r, false⟩ := distinct.eq_of_address listed mem same
      simp [notMem]
    · have other : x.slot ≠ r := fun isRegister => same (congrArg Slot.address isRegister)
      by_cases lent : x.slot ∈ rs <;> simp [other, lent, same]

/-- The registers `drop` come back, and the registers `keep` stay lent out. -/
theorem freeAll (lends : p.Lends rs p') (distinct : p.Distinct) (split : rs.Perm (keep ++ drop)) :
    p.Lends keep (drop.foldl (fun pool r => pool.free r.address) p') := by
  induction drop generalizing p' rs with
  | nil => exact lends.perm (by simpa using split)
  | cons r drop ih =>
    have lends' := (lends.perm (split.trans List.perm_middle)).free_one distinct
    exact ih lends' (.refl _)

/-- Registers that are lent out can be given back. -/
theorem releaseAll (lends : p.Lends rs p') (distinct : p.Distinct) (split : rs.Perm (keep ++ drop)) (line : Nat) :
    drop.foldlM (fun pool r => pool.release r.address line) p' =
      .ok (drop.foldl (fun pool r => pool.free r.address) p') := by
  have lent : ∀ r ∈ drop, r ∈ rs := fun r mem => split.mem_iff.2 (List.mem_append_right _ mem)
  have nodup : (drop.map (·.address)).Nodup := by
    refine List.Nodup.map_on (fun r mem r' mem' same => ?_)
      (List.nodup_append.1 (split.nodup_iff.1 lends.nodup)).2.1
    have listed := lends.free r (lent r mem)
    have listed' := lends.free r' (lent r' mem')
    exact congrArg Register.slot (distinct.eq_of_address listed listed' same)
  exact releaseAll_of_holds (lends.distinct distinct) (fun r mem => lends.holds (lent r mem)) nodup line

end Lends

end Pool

/-- The registers that a place is read and written through. -/
def Place.holds : Place → List Slot
  | .direct _ => []
  | .indirect _ _ holds => holds

namespace Codegen

variable {α β : Type}

/-- Where the pool `p` has lent out the registers `before`, it has lent out those that `after` says when
the action has ended. If the action is refused, `refused` holds of the pool. -/
def Books (p : Pool) (before : List Slot) (m : Codegen α) (after : α → List Slot)
    (refused : Pool → Prop) : Prop :=
  p.Distinct → ∀ (ctx : Context) (s : State), p.Lends before s.pool →
    (m ctx s).Leaves (fun a s' => p.Lends (after a) s'.pool) fun _ s' => refused s'.pool

namespace Books

variable {p : Pool} {before keep drop : List Slot} {m : Codegen α} {after : α → List Slot}
  {refused : Pool → Prop}

theorem bindOf {f : α → Codegen β} {after' : β → List Slot} {post : α → Prop}
    (first : Books p before m after refused) (ends : ∀ ctx s, m.Ends ctx s fun a _ _ => post a)
    (rest : ∀ a, post a → Books p (after a) (f a) after' refused) : Books p before (m >>= f) after' refused := by
  intro distinct ctx s lends
  exact .bind (((first distinct ctx s lends).and_ends (ends ctx s)).mono
    (fun a s' facts => rest a facts.2 distinct ctx s' facts.1) fun _ _ left => left)

theorem bind {f : α → Codegen β} {after' : β → List Slot} (first : Books p before m after refused)
    (rest : ∀ a, Books p (after a) (f a) after' refused) : Books p before (m >>= f) after' refused :=
  bindOf first (fun _ _ _ _ _ _ => trivial) fun a _ => rest a

theorem weaken {refused' : Pool → Prop} (books : Books p before m after refused)
    (weaker : ∀ q, refused q → refused' q) : Books p before m after refused' := by
  intro distinct ctx s lends
  exact (books distinct ctx s lends).mono (fun _ _ lends' => lends') fun _ s' left => weaker s'.pool left

theorem pure {a : α} (same : before.Perm (after a)) : Books p before (Codegen.pure a) after refused :=
  fun _ _ _ lends => lends.perm same

theorem fail {e : CompileError} (left : ∀ q, p.Lends before q → refused q) :
    Books p before (Codegen.fail e : Codegen α) after refused :=
  fun _ _ _ lends => left _ lends

theorem emit (i : Instr) : Books p before (Codegen.emit i) (fun _ => before) refused :=
  fun _ _ _ lends => lends

theorem emitAll (code : List Instr) : Books p before (Codegen.emitAll code) (fun _ => before) refused :=
  fun _ _ _ lends => lends

theorem context : Books p before Codegen.context (fun _ => before) refused := fun _ _ _ lends => lends

theorem state : Books p before Codegen.state (fun _ => before) refused := fun _ _ _ lends => lends

theorem table : Books p before Codegen.table (fun _ => before) refused := fun _ _ _ lends => lends

theorem labelId (line : Nat) : Books p before (Codegen.labelId line) (fun _ => before) refused :=
  fun _ _ _ lends => lends

theorem modifyState {change : State → State} (same : ∀ s, (change s).pool = s.pool) :
    Books p before (Codegen.modifyState change) (fun _ => before) refused := by
  intro _ _ s lends
  rw [← same s] at lends
  exact lends

theorem names : Books p before Codegen.names (fun _ => before) refused := fun _ _ _ lends => lends

theorem comment (line : Nat) : Books p before (Codegen.comment line) (fun _ => before) refused := by
  refine bind context fun ctx => bind state fun s => ?_
  split
  · exact bind (emit _) fun _ => modifyState fun _ => rfl
  · exact pure (.refl _)

theorem checkRegisters (line : Nat) (left : ∀ q, p.Lends before q → refused q) :
    Books p before (Codegen.checkRegisters line) (fun _ => before) refused := by
  refine bind state fun s => ?_
  dsimp only
  split
  · exact pure (.refl _)
  · exact fail left

theorem ofOutcome (outcome : Outcome α) (left : ∀ q, p.Lends before q → refused q) :
    Books p before (Codegen.ofOutcome outcome) (fun _ => before) refused := by
  cases outcome with
  | ok a => exact pure (.refl _)
  | error e => exact fail left

theorem within {change : Context → Context} (books : Books p before m after refused) :
    Books p before (Codegen.within change m) after refused :=
  fun distinct ctx s lends => books distinct (change ctx) s lends

theorem capture {after : α → List Slot} (books : Books p before m after refused) :
    Books p before (Codegen.capture m) (fun a => after a.1) refused := by
  intro distinct ctx s lends
  exact .capture ((books distinct ctx s lends).mono (fun _ _ lends' _ _ => lends') fun _ _ left => left)

end Books

/-- The action takes the registers that `holds` says and no other, and takes none if it is refused. -/
def Borrows (holds : α → List Slot) (m : Codegen α) : Prop := ∀ p, Books p [] m holds (p.Lends [])

/-- The action takes the registers that `holds` says and no other, unless it is refused. -/
def Owes (holds : α → List Slot) (m : Codegen α) : Prop := ∀ p, Books p [] m holds fun _ => True

end Codegen

end ContractCompiler
