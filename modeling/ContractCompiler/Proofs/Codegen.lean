import ContractCompiler.Codegen
import ContractCompiler.Proofs.Pool

/-!
# Proofs.Codegen — what actions leave behind

The first part is how to reason about actions: `Ends` says what holds unless an action is refused, and
has one law for each way to make an action. So a proof about an action follows its steps. Where it counts
what a refused action leaves, `Result.Leaves` says that as well.

The second part says what an action does to the state. `State.Takes s holds pending s'` is the
bookkeeping of every action that makes code for expressions: it stores constants, holds the registers
`holds`, all of which were free before, and puts the steps `pending` off. What one action holds after
the other adds up (`Takes.trans`), and what is given back goes (`Takes.release`).
-/

namespace ContractCompiler.Codegen

set_option autoImplicit false

variable {α β : Type}

/-! ## Actions that end -/

/-- What holds of the value, the code and the state of an action, unless it is refused. -/
def Ends (m : Codegen α) (ctx : Context) (s : State) (post : α → List Instr → State → Prop) : Prop :=
  ∀ a code s', m ctx s = .done a code s' → post a code s'

/-- The action is not refused, and `post` holds of its value, code and state. -/
def Succeeds (m : Codegen α) (ctx : Context) (s : State) (post : α → List Instr → State → Prop) : Prop :=
  ∃ a code s', m ctx s = .done a code s' ∧ post a code s'

instance (m : Codegen α) (ctx : Context) (s : State) (post : α → List Instr → State → Prop)
    [∀ a code s', Decidable (post a code s')] : Decidable (m.Succeeds ctx s post) :=
  match done : m ctx s with
  | .done a code s' => decidable_of_iff (post a code s') (by simp [Succeeds, done])
  | .failed e s' => .isFalse (by simp [Succeeds, done])

namespace Ends

variable {ctx : Context} {s : State} {m : Codegen α} {post : β → List Instr → State → Prop}

theorem mono {pre post : α → List Instr → State → Prop} (ends : m.Ends ctx s pre)
    (weaker : ∀ a code s', pre a code s' → post a code s') : m.Ends ctx s post :=
  fun a code s' done => weaker a code s' (ends a code s' done)

theorem and {post post' : α → List Instr → State → Prop} (ends : m.Ends ctx s post)
    (ends' : m.Ends ctx s post') : m.Ends ctx s fun a code s' => post a code s' ∧ post' a code s' :=
  fun a code s' done => ⟨ends a code s' done, ends' a code s' done⟩

/-- One action after the other. -/
theorem bind {f : α → Codegen β}
    (ends : m.Ends ctx s fun a code s' =>
      (f a).Ends ctx s' fun b code' s'' => post b (code ++ code') s'') :
    (m >>= f).Ends ctx s post := by
  intro b code s' done
  replace done : Codegen.bind m f ctx s = .done b code s' := done
  unfold Codegen.bind at done
  split at done
  · cases done
  · rename_i first
    split at done
    · cases done
    · rename_i second
      cases done
      exact ends _ _ _ first _ _ _ second

/-- An action that is known to end. -/
theorem of {post : α → List Instr → State → Prop} {a : α} {code : List Instr} {s' : State}
    (done : m ctx s = .done a code s') (holds : post a code s') : m.Ends ctx s post := by
  intro _ _ _ done'
  rw [done] at done'
  cases done'
  exact holds

theorem pure {post : α → List Instr → State → Prop} {a : α} (holds : post a [] s) :
    (Codegen.pure a).Ends ctx s post := by
  rintro _ _ _ ⟨⟩
  exact holds

theorem fail {post : α → List Instr → State → Prop} (e : CompileError) :
    (Codegen.fail e : Codegen α).Ends ctx s post := by
  rintro _ _ _ ⟨⟩

theorem emit {post : Unit → List Instr → State → Prop} {i : Instr} (holds : post () [i] s) :
    (Codegen.emit i).Ends ctx s post := by
  rintro _ _ _ ⟨⟩
  exact holds

theorem emitAll {post : Unit → List Instr → State → Prop} {code : List Instr}
    (holds : post () code s) : (Codegen.emitAll code).Ends ctx s post := by
  rintro _ _ _ ⟨⟩
  exact holds

theorem modifyState {post : Unit → List Instr → State → Prop} {change : State → State}
    (holds : post () [] (change s)) : (Codegen.modifyState change).Ends ctx s post := by
  rintro _ _ _ ⟨⟩
  exact holds

theorem release {post : Unit → List Instr → State → Prop} {rs : List Slot}
    (holds : post () [] (s.release rs)) : (Codegen.release rs).Ends ctx s post :=
  modifyState holds

theorem ofOutcome {post : α → List Instr → State → Prop} {outcome : Outcome α}
    (holds : ∀ a, outcome = .ok a → post a [] s) : (Codegen.ofOutcome outcome).Ends ctx s post := by
  cases outcome with
  | ok a => exact pure (holds a rfl)
  | error e => exact fail e

theorem giveBack {post : Unit → List Instr → State → Prop} {rs : List Slot} {line : Nat}
    (holds : post () [] (s.release rs)) : (Codegen.giveBack rs line).Ends ctx s post := by
  refine bind (of rfl (bind (ofOutcome fun pool given => modifyState ?_)))
  rw [Pool.releaseAll_eq_ok given]
  exact holds

theorem holding {post : α → List Instr → State → Prop} {rs : List Slot} (ends : m.Ends ctx s post) :
    (Codegen.holding rs m).Ends ctx s post := by
  intro a code s' done
  unfold Codegen.holding at done
  split at done
  · rename_i inner
    cases done
    exact ends _ _ _ inner
  · cases done

theorem capture {post : α × List Instr → List Instr → State → Prop}
    (ends : m.Ends ctx s fun a code s' => post (a, code) [] s') :
    (Codegen.capture m).Ends ctx s post := by
  intro a code s' done
  unfold Codegen.capture at done
  split at done
  · rename_i inner
    cases done
    exact ends _ _ _ inner
  · cases done

theorem within {post : α → List Instr → State → Prop} {change : Context → Context}
    (ends : m.Ends (change ctx) s post) : (Codegen.within change m).Ends ctx s post := ends

end Ends

theorem checkRegisters_ends {ctx : Context} {s : State} (line : Nat) :
    (checkRegisters line).Ends ctx s fun _ code s' => s' = s ∧ code = [] := by
  refine .bind (.of rfl ?_)
  dsimp only
  split
  · exact .pure ⟨rfl, rfl⟩
  · exact .fail _

/-! ## Actions that end or are refused -/

/-- One thing holds of the value and the state of an action that has ended, and another one of the error
and the state of an action that is refused. -/
def Result.Leaves (ended : α → State → Prop) (refused : CompileError → State → Prop) : Result α → Prop
  | .done a _ s => ended a s
  | .failed e s => refused e s

namespace Result.Leaves

variable {ctx : Context} {s : State} {m : Codegen α} {ended : α → State → Prop}
  {refused : CompileError → State → Prop}

theorem mono {r : Result α} {ended' : α → State → Prop} {refused' : CompileError → State → Prop}
    (leaves : r.Leaves ended refused) (weakenEnded : ∀ a s, ended a s → ended' a s)
    (weakenRefused : ∀ e s, refused e s → refused' e s) : r.Leaves ended' refused' := by
  cases r with
  | done a _ s => exact weakenEnded a s leaves
  | failed e s => exact weakenRefused e s leaves

theorem of {a : α} {code : List Instr} {s' : State} (done : m ctx s = .done a code s') (holds : ended a s') :
    (m ctx s).Leaves ended refused := by
  rw [done]
  exact holds

theorem and_ends {post : α → State → Prop} (leaves : (m ctx s).Leaves ended refused)
    (ends : m.Ends ctx s fun a _ s' => post a s') :
    (m ctx s).Leaves (fun a s' => ended a s' ∧ post a s') refused := by
  cases result : m ctx s <;> rw [result] at leaves
  · exact ⟨leaves, ends _ _ _ result⟩
  · exact leaves

theorem bind {f : α → Codegen β} {ended : β → State → Prop}
    (leaves : (m ctx s).Leaves (fun a s' => (f a ctx s').Leaves ended refused) refused) :
    ((m >>= f) ctx s).Leaves ended refused := by
  show (Codegen.bind m f ctx s).Leaves ended refused
  unfold Codegen.bind
  cases result : m ctx s <;> rw [result] at leaves
  · rename_i a _ s'
    dsimp only
    change (f a ctx s').Leaves ended refused at leaves
    cases result' : f a ctx s' <;> rw [result'] at leaves <;> exact leaves
  · exact leaves

theorem holding {rs : List Slot}
    (leaves : (m ctx s).Leaves ended fun e s' => refused e (s'.release rs)) :
    (Codegen.holding rs m ctx s).Leaves ended refused := by
  unfold Codegen.holding
  cases result : m ctx s <;> rw [result] at leaves <;> exact leaves

theorem within {change : Context → Context} (leaves : (m (change ctx) s).Leaves ended refused) :
    (Codegen.within change m ctx s).Leaves ended refused := leaves

theorem capture {ended : α × List Instr → State → Prop}
    (leaves : (m ctx s).Leaves (fun a s' => ∀ code, m ctx s = .done a code s' → ended (a, code) s') refused) :
    (Codegen.capture m ctx s).Leaves ended refused := by
  unfold Codegen.capture
  cases result : m ctx s <;> rw [result] at leaves
  · exact leaves _ rfl
  · exact leaves

end Result.Leaves

/-! ## States -/

namespace State

variable {s s' s'' : State} {holds holds' keep drop : List Slot} {pending pending' : List (Step × Node)}

/-- The table is valid, and the pool has its registers. -/
structure Valid (s : State) : Prop where
  table : s.table.Valid
  pool : s.pool.slots = s.table.registers

instance (s : State) : Decidable s.Valid :=
  decidable_of_iff (s.table.Valid ∧ s.pool.slots = s.table.registers)
    ⟨fun ⟨table, pool⟩ => ⟨table, pool⟩, fun valid => ⟨valid.table, valid.pool⟩⟩

theorem Valid.addresses_nodup (valid : s.Valid) : (s.pool.slots.map (·.address)).Nodup := by
  have cells : s.pool.slots.Sublist (s.table.slots.filter (·.kind != .struct)) := by
    rw [valid.pool, SlotTable.registers]
    exact List.monotone_filter_right _ fun s isRegister => by
      simp only [beq_iff_eq] at isRegister
      simp [isRegister]
  refine (cells.map _).nodup ?_
  rw [valid.table.addresses]
  exact List.nodup_range.map fun _ _ => Int.ofNat.inj

/-- A stored slot has the address of a register only if it is one. -/
theorem Valid.isRegister_iff (valid : s.Valid) {slot : Slot} (stored : slot ∈ s.table.slots)
    (hasCell : slot.kind ≠ .struct) :
    s.pool.isRegister slot.address = true ↔ slot.kind = .register := by
  rw [Pool.isRegister_iff, valid.pool]
  constructor
  · rintro ⟨r, listed, same⟩
    obtain ⟨stored', isRegister⟩ := SlotTable.mem_registers.1 listed
    rw [valid.table.eq_of_address stored hasCell stored' (by simp [isRegister]) same.symm]
    exact isRegister
  · intro isRegister
    exact ⟨slot, SlotTable.mem_registers.2 ⟨stored, isRegister⟩, rfl⟩

theorem release_slots (s : State) (rs : List Slot) : (s.release rs).pool.slots = s.pool.slots := by
  show (rs.foldl (fun pool r => pool.free r.address) s.pool).slots = _
  induction rs generalizing s with
  | nil => rfl
  | cons r rs ih => exact (ih { s with pool := s.pool.free r.address }).trans (Pool.free_slots _ _)

theorem release_append (s : State) (rs rs' : List Slot) :
    s.release (rs ++ rs') = (s.release rs).release rs' := by
  simp [release]

theorem release_holds (s : State) (rs : List Slot) (a : Int) :
    (s.release rs).pool.Holds a ↔ s.pool.Holds a ∧ a ∉ rs.map (·.address) := by
  show (rs.foldl (fun pool r => pool.free r.address) s.pool).Holds a ↔ _
  induction rs generalizing s with
  | nil => simp
  | cons r rs ih =>
    refine (ih { s with pool := s.pool.free r.address }).trans ?_
    simp only [Pool.free_holds, List.map_cons, List.mem_cons, not_or, and_assoc]

/-! ## What an action takes -/

/-- Constants were stored, the registers `holds` are held that were free before, and the steps
`pending` were put off. -/
structure Takes (s : State) (holds : List Slot) (pending : List (Step × Node)) (s' : State) :
    Prop where
  valid : s'.Valid
  interns : s.table.Interns s'.table
  held : ∀ a, s'.pool.Holds a ↔ s.pool.Holds a ∨ a ∈ holds.map (·.address)
  listed : ∀ r ∈ holds, r ∈ s'.pool.slots
  fresh : ∀ r ∈ holds, ¬ s.pool.Holds r.address
  nodup : (holds.map (·.address)).Nodup
  deferred : s'.deferred = s.deferred ++ pending

namespace Takes

theorem refl (valid : s.Valid) : s.Takes [] [] s := by
  constructor <;> simp [valid, SlotTable.Interns.refl]

theorem slots (takes : s.Takes holds pending s') (valid : s.Valid) : s'.pool.slots = s.pool.slots := by
  rw [takes.valid.pool, takes.interns.grows.registers, valid.pool]

theorem trans (first : s.Takes holds pending s') (second : s'.Takes holds' pending' s'') :
    s.Takes (holds ++ holds') (pending ++ pending') s'' where
  valid := second.valid
  interns := first.interns.trans second.interns
  held a := by
    rw [second.held, first.held, List.map_append, List.mem_append, or_assoc]
  listed r mem := by
    rcases List.mem_append.1 mem with old | new
    · rw [second.slots first.valid]
      exact first.listed r old
    · exact second.listed r new
  fresh r mem held := by
    rcases List.mem_append.1 mem with old | new
    · exact first.fresh r old held
    · exact second.fresh r new ((first.held _).2 (.inl held))
  nodup := by
    rw [List.map_append, List.nodup_append]
    refine ⟨first.nodup, second.nodup, ?_⟩
    rintro a old b new rfl
    obtain ⟨r, listed, rfl⟩ := List.mem_map.1 new
    exact second.fresh r listed ((first.held _).2 (.inr old))
  deferred := by rw [second.deferred, first.deferred, List.append_assoc]

/-- The registers `drop` are given back, and the registers `keep` stay. -/
theorem release (takes : s.Takes holds pending s') (split : holds.Perm (keep ++ drop)) :
    s.Takes keep pending (s'.release drop) where
  valid := ⟨takes.valid.table, (release_slots _ _).trans takes.valid.pool⟩
  interns := takes.interns
  held a := by
    have nodup : ((keep ++ drop).map (·.address)).Nodup :=
      ((split.map _).nodup_iff).1 takes.nodup
    rw [List.map_append, List.nodup_append] at nodup
    have mem : a ∈ holds.map (·.address) ↔ a ∈ keep.map (·.address) ∨ a ∈ drop.map (·.address) := by
      rw [(split.map (·.address)).mem_iff, List.map_append, List.mem_append]
    rw [release_holds, takes.held, mem]
    constructor
    · rintro ⟨old | kept | dropped, notDropped⟩
      · exact .inl old
      · exact .inr kept
      · exact absurd dropped notDropped
    · rintro (old | kept)
      · refine ⟨.inl old, fun dropped => ?_⟩
        obtain ⟨r, listed, rfl⟩ := List.mem_map.1 dropped
        exact takes.fresh r (split.mem_iff.2 (List.mem_append_right _ listed)) old
      · exact ⟨.inr (.inl kept), fun dropped => nodup.2.2 a kept a dropped rfl⟩
  listed r mem := by
    rw [release_slots]
    exact takes.listed r (split.mem_iff.2 (List.mem_append_left _ mem))
  fresh r mem := takes.fresh r (split.mem_iff.2 (List.mem_append_left _ mem))
  nodup := by
    have nodup : ((keep ++ drop).map (·.address)).Nodup :=
      ((split.map _).nodup_iff).1 takes.nodup
    rw [List.map_append] at nodup
    exact nodup.of_append_left
  deferred := takes.deferred

theorem perm (takes : s.Takes holds pending s') (same : holds.Perm holds') :
    s.Takes holds' pending s' :=
  takes.release (by simpa using same : holds.Perm (holds' ++ []))

theorem releaseAll (takes : s.Takes holds pending s') : s.Takes [] pending (s'.release holds) :=
  takes.release (.refl _ : holds.Perm ([] ++ holds))

/-- What was held stays held. -/
theorem mono (takes : s.Takes holds pending s') {a : Int} (held : s.pool.Holds a) :
    s'.pool.Holds a := (takes.held a).2 (.inl held)

theorem holds_mem (takes : s.Takes holds pending s') {r : Slot} (mem : r ∈ holds) :
    s'.pool.Holds r.address := (takes.held _).2 (.inr (List.mem_map_of_mem mem))

theorem isRegister (takes : s.Takes holds pending s') (valid : s.Valid) (a : Int) :
    s'.pool.isRegister a = s.pool.isRegister a :=
  Pool.isRegister_of_slots (takes.slots valid)

/-- What is free afterwards was free before. -/
theorem free (takes : s.Takes holds pending s') (valid : s.Valid) {a : Int}
    (free : s'.pool.Free a) : s.pool.Free a :=
  ⟨takes.isRegister valid a ▸ free.1, fun held => free.2 (takes.mono held)⟩

end Takes

end State

/-! ## The single actions -/

variable {ctx : Context} {s s' : State} {code : List Instr} {line : Nat}

theorem allocate_ends (valid : s.Valid) :
    (allocate line).Ends ctx s fun r code s' =>
      s.Takes [r] [] s' ∧ code = [] ∧ s'.table = s.table := by
  refine .bind (.of rfl (.bind (.ofOutcome fun (r, pool) taken => ?_)))
  refine .bind (.modifyState (.pure ⟨?_, rfl, rfl⟩))
  refine ⟨⟨valid.table, ?_⟩, .refl _, ?_, ?_, ?_, ?_, ?_⟩
  · exact (Pool.allocate_slots taken).trans valid.pool
  · intro a
    simpa using Pool.allocate_holds taken
  · intro r' mem
    obtain rfl := List.mem_singleton.1 mem
    rw [Pool.allocate_slots taken]
    exact Pool.allocate_mem taken
  · intro r' mem
    obtain rfl := List.mem_singleton.1 mem
    exact Pool.allocate_free valid.addresses_nodup taken
  · simp
  · simp

theorem intern_ends (valid : s.Valid) (value : Word) :
    (intern value).Ends ctx s fun kept code s' =>
      s.Takes [] [] s' ∧ code = [] ∧
        s.table.intern value ctx.settings.maxConstVars = (s'.table, kept) := by
  have interns := s.table.interns_intern value ctx.settings.maxConstVars
  refine .bind (.of rfl (.bind (.of rfl (.bind (.modifyState (.pure ?_))))))
  refine ⟨⟨⟨valid.table.intern _ _, ?_⟩, interns, ?_, ?_, ?_, ?_, ?_⟩, rfl, rfl⟩
  · exact valid.pool.trans interns.grows.registers.symm
  all_goals simp

end ContractCompiler.Codegen
