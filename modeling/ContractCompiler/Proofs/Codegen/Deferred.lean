import ContractCompiler.Proofs.Codegen.Reference

/-!
# Proofs.Codegen.Deferred — registers for values, and steps that are done later

`direct` brings an operand into a cell that stands for the same part of an address, and `toTemp` into a
register with the same word. `Evaluates` and `Tests` say that an action has the effect that an
expression means; they are what the code of every operator keeps. The steps that were put off have the
effect of `Meaning.steps`.
-/

namespace ContractCompiler

set_option autoImplicit false

open Codegen (State Context)

/-! ## Taking registers in exchange for others -/

namespace Codegen.State.Takes

variable {st₀ st st₁ : State} {keep old new : List Slot} {pending : List (Step × Node)}

theorem exchange (takes : st₀.Takes (keep ++ old) pending st) (more : st.Takes new [] st₁) :
    st₀.Takes (keep ++ new) pending (st₁.release old) := by
  have all := takes.trans more
  rw [List.append_nil] at all
  refine all.release ?_
  rw [List.append_assoc, List.append_assoc]
  exact List.perm_append_comm.append_left keep

theorem nil_append (takes : st₀.Takes keep pending st) : st₀.Takes ([] ++ keep) pending st := takes

theorem append_nil (takes : st₀.Takes keep pending st) (more : st.Takes [] [] st₁) :
    st₀.Takes keep pending st₁ := by
  simpa using takes.trans more

theorem held_right {o : Operand} (takes : st₀.Takes (keep ++ o.holds) pending st) : o.Held st :=
  fun _ mem => takes.holds_mem (List.mem_append_right _ mem)

theorem held_left {o : Operand} (takes : st₀.Takes (o.holds ++ keep) pending st) : o.Held st :=
  fun _ mem => takes.holds_mem (List.mem_append_left _ mem)

end Codegen.State.Takes

/-- The registers that are held, and some more, keep what they hold. -/
def Codegen.State.KeepsWith (st : State) (more : List Slot) (m m' : Memory) : Prop :=
  ∀ a, st.pool.Holds a ∨ a ∈ more.map (·.address) → m' a = m a

namespace Codegen.State.KeepsWith

variable {st₀ st : State} {keep old : List Slot} {pending : List (Step × Node)} {m m' m'' : Memory}

theorem trans (first : st.KeepsWith keep m m') (second : st.KeepsWith keep m' m'') :
    st.KeepsWith keep m m'' :=
  fun a listed => (second a listed).trans (first a listed)

theorem keeps (keepsWith : st.KeepsWith keep m m') : st.Keeps m m' :=
  fun a held => keepsWith a (.inl held)

theorem kept (keepsWith : st.KeepsWith keep m m') {r : Slot} (mem : r ∈ keep) :
    m' r.address = m r.address :=
  keepsWith _ (.inr (List.mem_map_of_mem mem))

/-- What a later state keeps. -/
theorem of_keeps (takes : st₀.Takes (keep ++ old) pending st) (keeps : st.Keeps m m') :
    st₀.KeepsWith keep m m' := by
  intro a listed
  refine keeps a ((takes.held a).2 (listed.imp_right fun mem => ?_))
  rw [List.map_append]
  exact List.mem_append_left _ mem

end Codegen.State.KeepsWith

namespace Operand

variable {st : State} {o : Operand} {M : Machine} {mm : Memory}

/-- Only what stands in a register of its own may be overwritten. -/
theorem isTemp_iff (fits : o.Fits st) (held : o.Held st) (valid : st.Valid) :
    o.isTemp = true ↔ o.slot.literal? = none ∧ o.slot.offset = none ∧ o.slot.kind = .register := by
  simp only [isTemp, Slot.isDirect, Bool.and_eq_true, Option.isNone_iff_eq_none, List.any_eq_true,
    beq_iff_eq]
  constructor
  · rintro ⟨direct, r, mem, same⟩
    have isRegister : st.pool.isRegister o.slot.address = true := same ▸ (held r mem).isRegister
    obtain ⟨s, listed, address⟩ := Pool.isRegister_iff.1 isRegister
    rw [valid.pool] at listed
    obtain ⟨mem', register⟩ := SlotTable.mem_registers.1 listed
    have somewhere := valid.table.address_ne_nowhere mem' (by simp [register])
    have notLiteral : o.slot.literal? = none := by
      by_contra isLiteral
      have nowhere := (Slot.kind_of_literal? (Option.isSome_iff_ne_none.2 isLiteral)).2
      exact somewhere (address.trans nowhere)
    obtain ⟨stored, -⟩ := fits.slot.resolve_left (by simp [notLiteral])
    exact ⟨notLiteral, direct, (Slot.isRegister_iff_kind valid stored).1 isRegister⟩
  · rintro ⟨notLiteral, direct, register⟩
    obtain ⟨stored, -⟩ := fits.slot.resolve_left (by simp [notLiteral])
    obtain ⟨r, mem, same⟩ := List.mem_map.1
      (fits.owned _ (.inl rfl) ((Slot.isRegister_iff_kind valid stored).2 register))
    exact ⟨direct, r, mem, same⟩

theorem ref_of_isTemp (fits : o.Fits st) (held : o.Held st) (valid : st.Valid)
    (isTemp : o.isTemp = true) : M.ref mm o.slot = .temp (mm o.slot.address) := by
  obtain ⟨notLiteral, direct, register⟩ := (isTemp_iff fits held valid).1 isTemp
  simp [Machine.ref, notLiteral, direct, register]

theorem isTemp_ref (fits : o.Fits st) (held : o.Held st) (valid : st.Valid) :
    (M.ref mm o.slot).isTemp = o.isTemp := by
  rw [Bool.eq_iff_iff]
  constructor
  · intro isTemp
    rw [isTemp_iff fits held valid]
    cases isLiteral : o.slot.literal? with
    | some w => simp [Machine.ref_literal isLiteral, Ref.isTemp] at isTemp
    | none =>
      simp only [Machine.ref, isLiteral] at isTemp
      cases offset : o.slot.offset with
      | none => cases kind : o.slot.kind <;> simp_all [Ref.isTemp]
      | some distance =>
        cases distance with
        | dynamic a => simp [offset, Ref.isTemp] at isTemp
        | fixed distance =>
          simp only [offset, Slot.source] at isTemp
          cases kind : o.slot.kind <;> simp [kind, Source.through, Ref.isTemp] at isTemp
  · intro isTemp
    rw [ref_of_isTemp fits held valid isTemp]
    rfl

/-- A settled operand fits, with whatever it holds besides. -/
theorem Settled.fits (settled : o.Settled st) (valid : st.Valid) (holds : List Slot)
    (owned : o.slot.kind = .register → o.slot.address ∈ holds.map (·.address)) :
    Fits st ⟨o.slot, holds⟩ where
  slot := .inr ⟨settled.stored, by simp [settled.direct]⟩
  owned a uses isRegister := by
    rcases uses with rfl | offset
    · exact owned ((Slot.isRegister_iff_kind valid settled.stored).1 isRegister)
    · simp [settled.direct] at offset

end Operand

namespace Slot.InHand

variable {st : State} {r : Slot} {M : Machine}

theorem fits (inHand : r.InHand st) (valid : st.Valid) : (Operand.ofRegister r).Fits st :=
  inHand.settled.fits valid [r] fun _ => by simp [Operand.ofRegister]

theorem isTemp (inHand : r.InHand st) : (Operand.ofRegister r).isTemp = true := by
  simp [Operand.isTemp, Operand.ofRegister, isDirect, inHand.direct]

theorem ref (inHand : r.InHand st) (valid : st.Valid) (mm : Memory) :
    M.ref mm (Operand.ofRegister r).slot = .temp (mm r.address) := by
  have notLiteral := inHand.stored.literal?_eq_none valid.table
  simp [Operand.ofRegister, Machine.ref, notLiteral, inHand.direct, inHand.kind]

end Slot.InHand

/-- A register that was taken is overwritten. -/
theorem Machine.Ready.overwrite {M : Machine} {st s₁ : State} {o : Operand} {holds : List Slot}
    {pending : List (Step × Node)} {m mm mm' : Memory} {w : Word} (ready : M.Ready m mm)
    (hosts : M.Hosts s₁) (takes : st.Takes holds pending s₁) (fits : o.Fits s₁)
    (listed : ∀ r ∈ o.holds, r ∈ holds) (isTemp : o.isTemp = true)
    (frame : s₁.Frame (mm.set o.slot.address w) mm') :
    M.Ready m mm' ∧ st.Keeps mm mm' ∧ M.ref mm' o.slot = .temp w := by
  have held : o.Held s₁ := fun r mem => takes.holds_mem (listed r mem)
  obtain ⟨r, mem, same⟩ : ∃ r ∈ o.holds, r.address = o.slot.address := by
    simpa using (Bool.and_eq_true_iff.1 isTemp).2
  rw [← same] at frame
  have inHand : r.InHand s₁ := .of_takes takes (listed r mem)
  have filled := ready.setRegister (inHand.isRegister takes.valid hosts) w
  refine ⟨filled.frame hosts takes.valid frame, fun a before => ?_, ?_⟩
  · have other : a ≠ r.address := fun same => takes.fresh r (listed r mem) (same ▸ before)
    rw [frame a fun free => free.2 (takes.mono before), Memory.set_of_ne other]
  · rw [Operand.ref_of_isTemp fits held takes.valid isTemp, ← same, frame _ inHand.not_free,
      Memory.set_self]

/-- A new register is filled. -/
theorem Machine.Ready.fill {M : Machine} {st s₁ : State} {r : Slot}
    {pending : List (Step × Node)} {m mm mm' : Memory} {w : Word} (ready : M.Ready m mm)
    (hosts : M.Hosts s₁) (takes : st.Takes [r] pending s₁)
    (frame : s₁.Frame (mm.set r.address w) mm') :
    M.Ready m mm' ∧ st.Keeps mm mm' ∧ M.ref mm' r = .temp w := by
  have inHand : r.InHand s₁ := .of_takes takes List.mem_cons_self
  exact ready.overwrite hosts takes (inHand.fits takes.valid) (fun _ mem => mem) inHand.isTemp frame

namespace Ref

/-- What can be read can be settled, and stands for the same word. -/
theorem settle_of_value? {rules : Rules} {r : Ref} {m : Memory} {w : Word}
    (read : r.value? rules m = some w) :
    ∃ source, r.settle rules m = some (source, m) ∧ source.read m = w := by
  cases r with
  | element a =>
    refine ⟨.cell a, rfl, ?_⟩
    simp only [value?] at read
    split at read
    · exact Option.some.inj read
    · cases read
  | view base distance =>
    refine ⟨.word w, ?_, rfl⟩
    exact Effect.bind_eq_some.2 ⟨w, m, read_eq_some.2 ⟨read, rfl⟩, rfl⟩
  | literal v => exact ⟨_, rfl, Option.some.inj read⟩
  | temp v => exact ⟨_, rfl, Option.some.inj read⟩
  | cell a => exact ⟨_, rfl, Option.some.inj read⟩
  | array a first => exact ⟨_, rfl, Option.some.inj read⟩

end Ref

namespace Codegen

variable {ctx : Context} {st₀ st st' : State} {line : Nat} {keep : List Slot} {o : Operand}
  {pending : List (Step × Node)}

/-- An operand is brought into a cell that stands for the same part of an address. -/
theorem direct_ends (takes : st₀.Takes (keep ++ o.holds) pending st) (fits : o.Fits st) :
    (direct o line).Ends ctx st fun o' code st' =>
      st₀.Takes (keep ++ o'.holds) pending st' ∧ st.Later st' ∧ o'.Fits st' ∧
        o'.slot.StoredIn st'.table ∧ o'.slot.offset = none ∧
        ∀ {M : Machine} {rules : Rules} {m m' mm : Memory} {source : Source}, M.Hosts st' →
          M.Obeys rules → M.Ready m mm → (M.ref mm o.slot).settle rules m = some (source, m') →
          m' = m ∧ ∃ mm', M.Leads code none mm mm' ∧ M.Ready m mm' ∧ st.Keeps mm mm' ∧
            o'.slot.source mm' = source := by
  have valid := takes.valid
  have usable := fits.usable takes.held_right
  refine .bind ?_
  cases isLiteral : o.slot.literal? with
  | some w =>
    refine (resolve_ends_literal valid isLiteral).mono ?_
    rintro found code s₁ ⟨takesFound, settled, kind, load⟩
    have settles : ∀ {M : Machine} {rules : Rules} {m m' mm : Memory} {source : Source},
        M.Hosts s₁ → M.Ready m mm → (M.ref mm o.slot).settle rules m = some (source, m') →
        m' = m ∧ ∃ mm', M.Leads code none mm mm' ∧ M.Ready m mm' ∧ st.Keeps mm mm' ∧
          found.slot.source mm' = source := by
      intro M rules m m' mm source hosts ready settles
      rw [Machine.ref_literal isLiteral] at settles
      obtain ⟨rfl, rfl⟩ := Effect.pure_eq_some.1 settles
      have hosts₀ := hosts.earlier takesFound
      obtain ⟨mm', leads, frame, value⟩ := load hosts (ready.machine hosts.valid)
      refine ⟨rfl, mm', leads, ready.frame hosts₀ valid frame, .of_frame frame, ?_⟩
      rcases kind with ⟨k, -⟩ | ⟨k, -⟩ <;> simp [Slot.source, k, value]
    rcases kind with ⟨constant, noHolds⟩ | ⟨register, holds⟩
    · rw [if_pos (by simp [noHolds])]
      rw [noHolds] at takesFound
      refine .pure ⟨takes.append_nil takesFound, takesFound.later valid,
        settled.fits takesFound.valid o.holds (by simp [constant]), settled.stored, settled.direct, ?_⟩
      intro M rules m m' mm source hosts _ ready found
      simpa using settles hosts ready found
    · rw [if_neg (by simp [holds])]
      have later : st.Later (s₁.release o.holds) :=
        (takesFound.later valid).trans (.release s₁ o.holds)
      have fitsFound := settled.fits takesFound.valid found.holds (by simp [holds])
      refine .bind (.release (.pure ⟨takes.exchange takesFound, later,
        fitsFound.later (.release s₁ o.holds), settled.stored, settled.direct, ?_⟩))
      intro M rules m m' mm source hosts _ ready found
      have hosts₁ : M.Hosts s₁ := hosts.of_release
      simpa using settles hosts₁ ready found
  | none =>
    obtain ⟨stored, -⟩ := fits.slot.resolve_left (by simp [isLiteral])
    cases isView : o.slot.isView with
    | true =>
      refine (resolve_ends_view valid usable isLiteral isView).mono ?_
      rintro found code s₁ ⟨holds, settled, takesFound, load⟩
      rw [if_neg (by simp [holds])]
      have all := takes.exchange takesFound
      have later : st.Later (s₁.release o.holds) :=
        (takesFound.later valid).trans (.release s₁ o.holds)
      have fitsFound := settled.fits takesFound.valid found.holds (by simp [holds])
      refine .bind (.release (.pure ⟨all, later, fitsFound.later (.release s₁ o.holds),
        settled.stored, settled.direct, ?_⟩))
      intro M rules m m' mm source hosts obeys ready settles
      have hosts₁ : M.Hosts s₁ := hosts.of_release
      have hosts₀ := hosts₁.earlier takesFound
      obtain ⟨base, distance, isRef, -⟩ := Machine.ref_view hosts₀ valid ready stored isView
      rw [isRef] at settles
      obtain ⟨w, m₁, read, settles⟩ := Effect.bind_eq_some.1 settles
      obtain ⟨rfl, rfl⟩ := Effect.pure_eq_some.1 settles
      obtain ⟨isValue, rfl⟩ := Ref.read_eq_some.1 read
      obtain ⟨value, clear⟩ :=
        Machine.value_of_ref hosts₀ valid ready obeys usable (isRef ▸ isValue)
      rw [Slot.value_of_not_literal isLiteral] at value
      obtain ⟨mm', leads, frame, loaded⟩ := load hosts₁ (ready.machine hosts.valid) clear
      refine ⟨rfl, mm', by simpa using leads, ready.frame hosts₀ valid frame, .of_frame frame, ?_⟩
      have register := (settled.holds.resolve_left (by simp [holds])).2
      simp [Slot.source, register, loaded, value]
    | false =>
      refine (resolve_ends_direct valid usable isLiteral isView).mono ?_
      rintro found _ st ⟨rfl, rfl, noHolds, settled, cell, same⟩
      rw [if_pos (by simp [noHolds])]
      refine .pure ⟨takes, .refl st, settled.fits valid o.holds ?_, settled.stored, settled.direct,
        ?_⟩
      · intro register
        rcases same with same | ⟨-, long⟩
        · rw [same] at register ⊢
          exact fits.owned _ (.inl rfl) ((Slot.isRegister_iff_kind valid stored).2 register)
        · simp [long] at register
      · intro M rules m m' mm source hosts _ ready settles
        rcases same with same | ⟨notDirect, long⟩
        · rw [Machine.settle_ref_direct isLiteral (same ▸ settled.direct)] at settles
          obtain ⟨rfl, rfl⟩ : o.slot.source mm = source ∧ m = m' := by simpa using settles
          exact ⟨rfl, mm, .nil mm, ready, .refl st mm, by rw [same]⟩
        · obtain ⟨index, offset, array⟩ :=
            (o.slot.shape.resolve_left notDirect).resolve_right (by simp [isView])
          rw [Machine.ref_element isLiteral offset array] at settles
          obtain ⟨rfl, rfl⟩ := Effect.pure_eq_some.1 settles
          exact ⟨rfl, mm, .nil mm, ready, .refl st mm, by simp [Slot.source, long, cell]⟩

/-- An operand is brought into a cell that holds the word it stands for. -/
theorem direct_value_ends (takes : st₀.Takes (keep ++ o.holds) pending st) (fits : o.Fits st) :
    (direct o line).Ends ctx st fun o' code st' =>
      st₀.Takes (keep ++ o'.holds) pending st' ∧ st.Later st' ∧ o'.Fits st' ∧
        o'.slot.StoredIn st'.table ∧ o'.slot.offset = none ∧
        ∀ {M : Machine} {rules : Rules} {m mm : Memory} {w : Word}, M.Hosts st' →
          M.Obeys rules → M.Ready m mm → (M.ref mm o.slot).value? rules m = some w →
          ∃ mm', M.Leads code none mm mm' ∧ M.Ready m mm' ∧ st.Keeps mm mm' ∧
            mm' o'.slot.address = w ∧ (M.ref mm' o'.slot).value? rules m = some w := by
  refine (direct_ends takes fits).mono ?_
  rintro o' code st' ⟨takes', later, fits', stored, direct, load⟩
  refine ⟨takes', later, fits', stored, direct, ?_⟩
  intro M rules m mm w hosts obeys ready value
  obtain ⟨source, settles, same⟩ := Ref.settle_of_value? value
  obtain ⟨-, mm', leads, ready', keeps, found⟩ := load hosts obeys ready settles
  have isWord : mm' o'.slot.address = w := by
    rw [← Machine.read_source hosts takes'.valid ready' stored, found, same]
  refine ⟨mm', leads, ready', keeps, isWord, ?_⟩
  have notLiteral := stored.literal?_eq_none takes'.valid.table
  have agrees := Machine.agrees_of_kind hosts takes'.valid ready' stored
  simp only [Machine.ref, notLiteral, direct]
  cases kind : o'.slot.kind with
  | register => simp [Ref.value?, isWord]
  | constant => simp [Ref.value?, isWord]
  | _ => simp [Ref.value?, ← agrees (by simp [kind]), isWord]

/-- An operand is brought into a register of its own with the same word. -/
theorem toTemp_ends (takes : st₀.Takes (keep ++ o.holds) pending st) (fits : o.Fits st) :
    (toTemp o line).Ends ctx st fun o' code st' =>
      st₀.Takes (keep ++ o'.holds) pending st' ∧ st.Later st' ∧ o'.Fits st' ∧ o'.isTemp = true ∧
        ∀ {M : Machine} {rules : Rules} {m mm : Memory} {w : Word}, M.Hosts st' →
          M.Obeys rules → M.Ready m mm → (M.ref mm o.slot).value? rules m = some w →
          ∃ mm', M.Leads code none mm mm' ∧ M.Ready m mm' ∧ st₀.KeepsWith keep mm mm' ∧
            M.ref mm' o'.slot = .temp w := by
  refine .bind ((direct_value_ends takes fits).mono ?_)
  rintro o₁ c₁ s₁ ⟨takes₁, later₁, fits₁, stored₁, direct₁, loads⟩
  have held₁ := takes₁.held_right
  have valid₁ := takes₁.valid
  split
  · rename_i isTemp
    refine .pure ⟨takes₁, later₁, fits₁, isTemp, ?_⟩
    intro M rules m mm w hosts obeys ready value
    obtain ⟨mm', leads, ready', keeps, holds, -⟩ := loads hosts obeys ready value
    refine ⟨mm', by simpa using leads, ready', .of_keeps takes keeps, ?_⟩
    rw [Operand.ref_of_isTemp fits₁ held₁ valid₁ isTemp, holds]
  · refine .bind ((allocate_ends valid₁).mono ?_)
    rintro r _ s₂ ⟨takesR, rfl, -⟩
    have inHand : r.InHand s₂ := .of_takes takesR List.mem_cons_self
    have usable₁ := (fits₁.usable held₁).mono valid₁ takesR
    refine .bind ((assign_ends takesR.valid inHand.usable usable₁).mono ?_)
    rintro _ c₃ s₃ ⟨takesA, write⟩
    have takes₃ := takesR.append_nil takesA
    have later : st.Later (s₃.release o₁.holds) :=
      (later₁.trans (takes₃.later valid₁)).trans (.release s₃ o₁.holds)
    refine .bind (.release (.pure ⟨takes₁.exchange takes₃, later, (inHand.fits takesR.valid).later
      ((takesA.later takesR.valid).trans (.release s₃ o₁.holds)), inHand.isTemp, ?_⟩))
    intro M rules m mm w hosts obeys ready value
    have hosts₃ : M.Hosts s₃ := hosts.of_release
    have hosts₂ := hosts₃.earlier takesA
    have hosts₁ := hosts₂.earlier takesR
    obtain ⟨mm₁, leads₁, ready₁, keeps₁, holds, -⟩ := loads hosts₁ obeys ready value
    obtain ⟨mm₃, leads₃, frame⟩ := write hosts₃ (ready₁.machine hosts.valid) (inHand.clear mm₁)
      (fun notDirect => absurd direct₁ notDirect)
    rw [Slot.cell_direct inHand.direct, Slot.value_of_not_literal
      (stored₁.literal?_eq_none valid₁.table), Slot.cell_direct direct₁, holds] at frame
    obtain ⟨ready₃, keeps₃, filled⟩ := ready₁.fill hosts₂ takesR frame
    refine ⟨mm₃, by simpa using leads₁.append leads₃, ready₃, ?_, filled⟩
    exact (State.KeepsWith.of_keeps takes keeps₁).trans (.of_keeps takes₁ keeps₃)

/-- A value that a step could change is brought into a register. -/
theorem protect_ends (takes : st₀.Takes (keep ++ o.holds) pending st) (fits : o.Fits st) :
    (protect o line).Ends ctx st fun o' code st' =>
      st₀.Takes (keep ++ o'.holds) pending st' ∧ st.Later st' ∧ o'.Fits st' ∧
        ∀ {M : Machine} {rules : Rules} {m mm : Memory} {w : Word}, M.Hosts st' →
          M.Obeys rules → M.Ready m mm → (M.ref mm o.slot).value? rules m = some w →
          (o'.slot.kind = .constant → o'.slot.offset = none) →
          ∃ mm', M.Leads code none mm mm' ∧ M.Ready m mm' ∧ st₀.KeepsWith keep mm mm' ∧
            (M.ref mm' o'.slot = .temp w ∨ M.ref mm' o'.slot = .literal w) := by
  unfold protect
  split
  · rename_i unchanged
    refine .pure ⟨takes, .refl st, fits, ?_⟩
    intro M rules m mm w hosts obeys ready value noView
    refine ⟨mm, .nil mm, ready, fun _ _ => rfl, ?_⟩
    cases isTemp : o.isTemp with
    | true =>
      have isRef : M.ref mm o.slot = .temp (mm o.slot.address) :=
        Operand.ref_of_isTemp fits takes.held_right takes.valid isTemp
      rw [isRef] at value ⊢
      exact .inl (by simpa [Ref.value?] using value)
    | false =>
      have constant : o.slot.kind = .constant := by simpa [isTemp] using unchanged
      right
      cases isLiteral : o.slot.literal? with
      | some v =>
        rw [Machine.ref_literal isLiteral] at value ⊢
        simpa [Ref.value?] using value
      | none =>
        simp only [Machine.ref, isLiteral, noView constant, constant] at value ⊢
        simpa [Ref.value?] using value
  · refine (toTemp_ends takes fits).mono ?_
    rintro o' code st' ⟨takes', later, fits', -, load⟩
    refine ⟨takes', later, fits', ?_⟩
    intro M rules m mm w hosts obeys ready value _
    obtain ⟨mm', leads, ready', keeps, found⟩ := load hosts obeys ready value
    exact ⟨mm', leads, ready', keeps, .inl found⟩

end Codegen

/-! ## Writes through references -/

namespace Machine

variable {M : Machine} {st : State} {s : Slot} {m m' mm mm' : Memory} {rules : Rules} {w : Word}

/-- A change in place through a reference changes the cell of the slot. -/
theorem change_of_ref {f : Word → Word} {u : Unit} (hosts : M.Hosts st) (valid : st.Valid)
    (ready : M.Ready m mm) (obeys : M.Obeys rules) (usable : s.Usable st)
    (changed : Meaning.change rules f (M.ref mm s) m = some (u, m')) :
    M.Clear mm s ∧ M.Open (s.cell mm) ∧ m' = m.set (s.cell mm) (f (s.value mm)) := by
  obtain ⟨w, m₁, read, written⟩ := Effect.bind_eq_some.1 changed
  obtain ⟨isValue, rfl⟩ := Ref.read_eq_some.1 read
  obtain ⟨value, clear⟩ := value_of_ref hosts valid ready obeys usable isValue
  obtain ⟨-, isOpen, result⟩ :=
    write_of_ref hosts valid ready obeys usable (Ref.write_eq_some.1 written)
  exact ⟨clear, isOpen, value ▸ result⟩

/-- Code that writes one cell that is not the machine's own. -/
theorem Ready.write {a : Int} (ready : M.Ready m mm) (hosts : M.Hosts st) (valid : st.Valid)
    (isOpen : M.Open a) (frame : st.Frame (mm.set a w) mm') :
    M.Ready (m.set a w) mm' ∧ st.Keeps mm mm' := by
  refine ⟨(ready.set isOpen w).frame hosts valid frame, fun b held => ?_⟩
  have other : b ≠ a := by
    rintro rfl
    exact isOpen.not_isRegister ((hosts.isRegister_iff valid).2 held.isRegister)
  rw [frame b fun free => free.2 held, Memory.set_of_ne other]

end Machine

/-! ## Actions with the effect of an expression -/

/-- A variable of the table, or a view of one whose parts are variables. An array has the address of
its first element, and an element at a fixed index is a variable itself. -/
structure Slot.IsVariable (t : SlotTable) (s : Slot) : Prop where
  stored : s.StoredIn t
  notRegister : s.kind ≠ .register
  notConstant : s.kind ≠ .constant
  index : ∀ a, s.offset = some (.dynamic a) → ∃ s₁ ∈ t.slots, s₁.kind ≠ .struct ∧
    s₁.kind ≠ .register ∧ s₁.kind ≠ .constant ∧ s₁.address = a
  array : s.kind = .array → s.contents.isSome
  element : ∀ index, s.offset = some (.fixed index) → s.kind = .array →
    ∃ e ∈ t.slots, e.kind = .long ∧ e.address = Word.toSigned (s.initial + index)

/-- The address of the slot that holds the distance. -/
def Offset.index? : Offset → Option Int
  | .dynamic a => some a
  | .fixed _ => none

/-- The distance, if it is fixed. -/
def Offset.distance? : Offset → Option Word
  | .dynamic _ => none
  | .fixed distance => some distance

instance (t : SlotTable) (s : Slot) : Decidable (s.IsVariable t) :=
  -- words are finitely many, and trying them all is no way to look at the one distance
  have : Decidable (∀ index ∈ s.offset.bind Offset.distance?, s.kind = .array →
      ∃ e ∈ t.slots, e.kind = .long ∧ e.address = Word.toSigned (s.initial + index)) :=
    Option.decidableForallMem _
  decidable_of_iff
    (s.StoredIn t ∧ s.kind ≠ .register ∧ s.kind ≠ .constant ∧ (s.kind = .array → s.contents.isSome) ∧
      (∀ a ∈ s.offset.bind Offset.index?, ∃ s₁ ∈ t.slots, s₁.kind ≠ .struct ∧ s₁.kind ≠ .register ∧
        s₁.kind ≠ .constant ∧ s₁.address = a) ∧
      ∀ index ∈ s.offset.bind Offset.distance?, s.kind = .array →
        ∃ e ∈ t.slots, e.kind = .long ∧ e.address = Word.toSigned (s.initial + index)) <| by
    constructor
    · rintro ⟨stored, notRegister, notConstant, array, index, element⟩
      exact ⟨stored, notRegister, notConstant, fun a same => index a (by rw [same]; rfl), array,
        fun distance same => element distance (by rw [same]; rfl)⟩
    · intro h
      refine ⟨h.stored, h.notRegister, h.notConstant, h.array, fun a mem => h.index a ?_,
        fun distance mem => h.element distance ?_⟩ <;>
      · obtain ⟨o, offset, is⟩ := Option.bind_eq_some_iff.1 mem
        cases o <;> cases is
        exact offset

/-- All slots of the tree are literals or variables of the table, and nothing is called. -/
def Slot.Bound (t : SlotTable) (s : Slot) : Prop :=
  (s.literal?.isSome ∧ s.offset = none) ∨ s.IsVariable t

instance (t : SlotTable) (s : Slot) : Decidable (s.Bound t) :=
  inferInstanceAs (Decidable (_ ∨ _))

@[inherit_doc Slot.Bound]
def Node.Bound (t : SlotTable) : Node → Prop
  | slot s _ => s.Bound t
  | deref base _ _ => base.Bound t
  | lookup base index _ _ => base.Bound t ∧ index.Bound t
  | assign _ target value _ => target.Bound t ∧ value.Bound t
  | binary _ left right _ => left.Bound t ∧ right.Bound t
  | unary _ operand _ => operand.Bound t
  | compare _ left right _ => left.Bound t ∧ right.Bound t
  | logic _ left right _ => left.Bound t ∧ right.Bound t
  | ternary condition yes no _ => condition.Bound t ∧ yes.Bound t ∧ no.Bound t
  | call _ _ _ _ => False
  | host _ _ _ => False

instance Node.decidableBound (t : SlotTable) : (n : Node) → Decidable (n.Bound t)
  | slot s _ => inferInstanceAs (Decidable (s.Bound t))
  | deref base _ _ => decidableBound t base
  | unary _ operand _ => decidableBound t operand
  | lookup left right _ _ | assign _ left right _ | binary _ left right _ | compare _ left right _
  | logic _ left right _ => @instDecidableAnd _ _ (decidableBound t left) (decidableBound t right)
  | ternary condition yes no _ =>
    @instDecidableAnd _ _ (decidableBound t condition)
      (@instDecidableAnd _ _ (decidableBound t yes) (decidableBound t no))
  | call _ _ _ _ | host _ _ _ => .isFalse id

namespace Codegen

/-- From any state whose table has grown from `t`, the action computes the reference that the effect
gives, changes the memory as the effect does, and keeps all registers that were held. -/
def Evaluates (M : Machine) (t : SlotTable) (ctx : Context)
    (action : Codegen Operand) (effect : Effect Ref) (pending : List (Step × Node)) : Prop :=
  ∀ st : State, st.Valid → t.Interns st.table → action.Ends ctx st fun o code st' =>
    st.Takes o.holds pending st' ∧ o.Fits st' ∧
      (M.Hosts st' → ∀ {m m' mm : Memory} {ref : Ref}, M.Ready m mm →
        effect m = some (ref, m') → ∃ mm', M.Leads code none mm mm' ∧ M.Ready m' mm' ∧
          st.Keeps mm mm' ∧ M.ref mm' o.slot = ref)

/-- From any state whose table has grown from `t`, the jump is taken if the truth that the effect gives
is the one asked for. -/
def Tests (M : Machine) (t : SlotTable) (ctx : Context)
    (jump : String → Bool → Codegen Unit) (effect : Effect Bool) (pending : List (Step × Node)) :
    Prop :=
  ∀ (label : String) (when : Bool) (st : State), st.Valid → t.Interns st.table →
    (jump label when).Ends ctx st fun _ code st' =>
      st.Takes [] pending st' ∧
        (M.Hosts st' → ∀ {m m' mm : Memory} {truth : Bool}, M.Ready m mm →
          effect m = some (truth, m') →
          ∃ mm', M.Leads code (if truth == when then some label else none) mm mm' ∧
            M.Ready m' mm' ∧ st.Keeps mm mm')

/-- The targets of put-off steps are evaluated as they mean. -/
def Repeats (M : Machine) (t : SlotTable) (ctx : Context)
    (eval : Node → Codegen Operand) (again : Node → Meaning.Deed) : Prop :=
  ∀ n : Node, n.Bound t → Evaluates M t ctx (eval n) (again n).run (again n).pending

section Steps

variable {M : Machine} {rules : Rules} {t : SlotTable} {ctx : Context}
  {eval : Node → Codegen Operand} {again : Node → Meaning.Deed} {line : Nat}

/-- Steps that are done in turn. -/
theorem doSteps_ends (obeys : M.Obeys rules) (repeats : Repeats M t ctx eval again)
    (steps : List (Step × Node)) (bound : ∀ p ∈ steps, p.2.Bound t) (st : State) (valid : st.Valid)
    (interns : t.Interns st.table) :
    (doSteps eval line steps).Ends ctx st fun _ code st' =>
      st.Takes [] (Meaning.leak again steps) st' ∧
        (M.Hosts st' → ∀ {m m' mm : Memory} {u : Unit}, M.Ready m mm →
          Meaning.steps rules again steps m = some (u, m') →
          ∃ mm', M.Leads code none mm mm' ∧ M.Ready m' mm' ∧ st.Keeps mm mm') := by
  induction steps generalizing st with
  | nil =>
    refine .pure ⟨.refl valid, fun _ {m m' mm u} ready done => ?_⟩
    obtain ⟨-, rfl⟩ := Effect.pure_eq_some.1 done
    exact ⟨mm, .nil mm, ready, .refl st mm⟩
  | cons first rest ih =>
    obtain ⟨step, target⟩ := first
    refine .bind ((repeats target (bound _ List.mem_cons_self) st valid interns).mono ?_)
    rintro o c₁ s₁ ⟨takes, fits, evaluate⟩
    have held : o.Held s₁ := fun _ mem => takes.holds_mem mem
    have usable := fits.usable held
    refine .bind ((update_ends takes.valid usable).mono ?_)
    rintro _ c₂ s₂ ⟨takesU, write⟩
    have takes₂ := (takes.append_nil takesU).releaseAll
    refine .bind (.release ((ih (fun p mem => bound p (List.mem_cons_of_mem _ mem)) _ takes₂.valid
      (interns.trans takes₂.interns)).mono ?_))
    rintro _ c₃ st' ⟨takesRest, finish⟩
    refine ⟨takes₂.trans takesRest, fun hosts {m m' mm u} ready done => ?_⟩
    have hosts₂ : M.Hosts s₂ := hosts.of_interns takesRest.interns
    have hosts₁ := hosts₂.earlier takesU
    obtain ⟨ref, m₁, ran, done⟩ := Effect.bind_eq_some.1 done
    obtain ⟨_, m₂, changed, done⟩ := Effect.bind_eq_some.1 done
    obtain ⟨mm₁, leads₁, ready₁, keeps₁, rfl⟩ := evaluate hosts₁ ready ran
    obtain ⟨clear, isOpen, rfl⟩ :=
      Machine.change_of_ref hosts₁ takes.valid ready₁ obeys usable changed
    obtain ⟨mm₂, leads₂, frame⟩ := write hosts₂ (ready₁.machine hosts.valid) clear
    obtain ⟨ready₂, keeps₂⟩ := ready₁.write hosts₁ takes.valid isOpen frame
    obtain ⟨mm₃, leads₃, ready₃, keeps₃⟩ := finish hosts ready₂ done
    refine ⟨mm₃, by simpa using leads₁.append (leads₂.append leads₃), ready₃, ?_⟩
    exact (keeps₁.trans (keeps₂.weaken takes)).trans (keeps₃.weaken takes₂)

/-- The steps that were put off since a state are done. -/
theorem applyDeferred_ends {st₀ st : State} {holds : List Slot} {pending : List (Step × Node)}
    {mark : Nat} (obeys : M.Obeys rules) (repeats : Repeats M t ctx eval again)
    (bound : ∀ p ∈ pending, p.2.Bound t) (takes : st₀.Takes holds pending st)
    (interns : t.Interns st.table) (isMark : mark = st₀.deferred.length) :
    (applyDeferred eval mark line).Ends ctx st fun _ code st' =>
      st₀.Takes holds (Meaning.leak again pending) st' ∧ st.Later st' ∧
        (M.Hosts st' → ∀ {m m' mm : Memory} {u : Unit}, M.Ready m mm →
          Meaning.steps rules again pending m = some (u, m') →
          ∃ mm', M.Leads code none mm mm' ∧ M.Ready m' mm' ∧ st.Keeps mm mm') := by
  subst isMark
  refine .bind (.of rfl ?_)
  have drop : st.deferred.drop st₀.deferred.length = pending := by simp [takes.deferred]
  have take : st.deferred.take st₀.deferred.length = st₀.deferred := by simp [takes.deferred]
  rw [drop, take]
  have takes₁ : st₀.Takes holds [] { st with deferred := st₀.deferred } :=
    ⟨⟨takes.valid.table, takes.valid.pool⟩, takes.interns, takes.held, takes.listed, takes.fresh,
      takes.nodup, by simp⟩
  refine (doSteps_ends obeys repeats pending bound _ takes₁.valid interns).mono ?_
  rintro _ code st' ⟨takesSteps, run⟩
  refine ⟨by simpa using takes₁.trans takesSteps, ⟨takesSteps.interns,
    takesSteps.slots takes₁.valid⟩, fun hosts {m m' mm u} ready done => ?_⟩
  obtain ⟨mm', leads, ready', keeps⟩ := run hosts ready done
  exact ⟨mm', leads, ready', keeps⟩

end Steps

end Codegen

end ContractCompiler
