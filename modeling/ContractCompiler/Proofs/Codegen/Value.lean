import ContractCompiler.Codegen.Value
import ContractCompiler.Proofs.Codegen.Jump

/-!
# Proofs.Codegen.Value — the code of operators has the effect of operators

One lemma for each operator: if the code of the operands has the effect of the operands, the code of
the operator has that of the operator. The operands are only known through `Evaluates` and `Tests`.
-/

namespace ContractCompiler

set_option autoImplicit false

open Codegen (State Context)

/-- A variable that a value may be computed in. -/
structure Slot.Assignable (t : SlotTable) (s : Slot) : Prop where
  stored : s.StoredIn t
  direct : s.offset = none
  kind : s.kind = .long ∨ s.kind = .structRef

namespace Slot.Assignable

variable {t t' : SlotTable} {st : State} {s : Slot} {M : Machine}

theorem mono (assignable : s.Assignable t) (interns : t.Interns t') : s.Assignable t' :=
  ⟨assignable.stored.mono interns, assignable.direct, assignable.kind⟩

/-- Only constants are stored while code is made. -/
theorem of_interns (assignable : s.Assignable t') (interns : t.Interns t') : s.Assignable t := by
  refine ⟨?_, assignable.direct, assignable.kind⟩
  obtain ⟨s₀, mem, hasCell, same⟩ := assignable.stored
  obtain ⟨kept, slots, constants⟩ := interns.slots
  rw [slots] at mem
  refine ⟨s₀, (List.mem_append.1 mem).resolve_right fun new => ?_, hasCell, same⟩
  have constant : s.kind = .constant := (congrArg Slot.kind same).trans (constants s₀ new).1
  rcases assignable.kind with k | k <;> simp [k] at constant

theorem not_register (assignable : s.Assignable t) : s.kind ≠ .register := by
  rcases assignable.kind with k | k <;> simp [k]

theorem fits (assignable : s.Assignable st.table) (valid : st.Valid) :
    Operand.Fits st ⟨s, []⟩ where
  slot := .inr ⟨assignable.stored, by simp [assignable.direct]⟩
  owned a uses isRegister := by
    rcases uses with rfl | offset
    · exact absurd ((isRegister_iff_kind valid assignable.stored).1 isRegister)
        assignable.not_register
    · simp [assignable.direct] at offset

theorem usable (assignable : s.Assignable st.table) (valid : st.Valid) : s.Usable st :=
  (assignable.fits valid).usable fun _ mem => nomatch mem

theorem ref (assignable : s.Assignable t) (valid : t.Valid) (mm : Memory) :
    M.ref mm s = .cell s.address := by
  have notLiteral := assignable.stored.literal?_eq_none valid
  rcases assignable.kind with k | k <;> simp [Machine.ref, notLiteral, assignable.direct, k]

/-- Only variables stand for a cell. -/
theorem of_ref {o : Operand} {mm : Memory} {a : Int} (fits : o.Fits st) (valid : st.Valid)
    (isCell : M.ref mm o.slot = .cell a) : o.slot.Assignable st.table ∧ o.slot.address = a := by
  rcases fits.slot with ⟨isLiteral, -⟩ | ⟨stored, -⟩
  · obtain ⟨w, isLiteral⟩ := Option.isSome_iff_exists.1 isLiteral
    simp [Machine.ref_literal isLiteral] at isCell
  · have notLiteral := stored.literal?_eq_none valid.table
    have hasCell := stored.kind_ne_struct
    simp only [Machine.ref, notLiteral] at isCell
    cases offset : o.slot.offset with
    | none =>
      have kind : o.slot.kind = .long ∨ o.slot.kind = .structRef := by
        cases kind : o.slot.kind <;> simp_all
      refine ⟨⟨stored, offset, kind⟩, ?_⟩
      rcases kind with k | k <;> simpa [offset, k] using isCell
    | some distance =>
      cases distance with
      | dynamic b => simp [offset] at isCell
      | fixed distance =>
        simp only [offset] at isCell
        cases source : o.slot.source mm <;> simp [source, Source.through] at isCell

end Slot.Assignable

namespace Codegen

variable {M : Machine} {rules : Rules} {t : SlotTable} {ctx : Context}
  {eval : Node → Codegen Operand} {again : Node → Meaning.Deed} {line : Nat}

section Binary

variable {left right : Codegen Operand} {first second : Effect Ref}
  {pendingL pendingR : List (Step × Node)} {op : BinaryOp}

variable (M rules) in
/-- The operation in a register of its own. -/
theorem operate_temp_ends {st s₁ : State} {into other : Operand} {pending : List (Step × Node)}
    (takes : st.Takes (into.holds ++ other.holds) pending s₁) (fitsI : into.Fits s₁)
    (fitsO : other.Fits s₁) (isTemp : into.isTemp = true) :
    (operate op into.slot other.slot line >>= fun _ => release other.holds >>= fun _ =>
      Codegen.pure into).Ends ctx s₁ fun o code st' =>
      st.Takes o.holds pending st' ∧ o.Fits st' ∧ s₁.table.Interns st'.table ∧
        (M.Hosts st' → ∀ {m mm : Memory} {x y : Word}, M.Obeys rules → M.Ready m mm →
          (M.ref mm into.slot).value? rules m = some x →
          (M.ref mm other.slot).value? rules m = some y →
          ∃ mm', M.Leads code none mm mm' ∧ M.Ready m mm' ∧ st.Keeps mm mm' ∧
            M.ref mm' o.slot = .temp (op.apply rules.arithmetic x y)) := by
  have valid₁ := takes.valid
  have usableI := fitsI.usable takes.held_left
  have usableO := fitsO.usable takes.held_right
  refine .bind ((operate_ends valid₁ usableI usableO).mono ?_)
  rintro _ code s₂ ⟨takesO, write⟩
  have later : s₁.Later (s₂.release other.holds) :=
    (takesO.later valid₁).trans (.release s₂ other.holds)
  refine .bind (.release (.pure ⟨(takes.append_nil takesO).release (.refl _), fitsI.later later,
    takesO.interns, ?_⟩))
  intro hosts m mm x y obeys ready readX readY
  have hosts₂ : M.Hosts s₂ := hosts.of_release
  have hosts₁ := hosts₂.earlier takesO
  obtain ⟨valueI, clearI⟩ := Machine.value_of_ref hosts₁ valid₁ ready obeys usableI readX
  obtain ⟨valueO, clearO⟩ := Machine.value_of_ref hosts₁ valid₁ ready obeys usableO readY
  obtain ⟨mm', leads, frame⟩ := write hosts₂ (ready.machine hosts.valid) clearI clearO
  have direct := ((Operand.isTemp_iff fitsI takes.held_left valid₁).1 isTemp).2.1
  rw [Slot.cell_direct direct, valueI, valueO, ← obeys.arithmetic] at frame
  have listed : ∀ r ∈ into.holds, r ∈ into.holds ++ other.holds := fun _ => List.mem_append_left _
  obtain ⟨ready', keeps, filled⟩ := ready.overwrite hosts₁ takes fitsI listed isTemp frame
  exact ⟨mm', by simpa using leads, ready', keeps, filled⟩

variable (M rules) in
/-- The operation in a variable. -/
theorem operate_variable_ends {st s₁ : State} {dest : Slot} {l r : Operand}
    {pending : List (Step × Node)} (takes : st.Takes (l.holds ++ r.holds) pending s₁)
    (fitsL : l.Fits s₁) (fitsR : r.Fits s₁) (assignable : dest.Assignable s₁.table) :
    (assign dest l.slot line >>= fun _ => release l.holds >>= fun _ =>
      Codegen.pure (Operand.mk dest [], r) >>= fun p =>
      operate op p.1.slot p.2.slot line >>= fun _ => release p.2.holds >>= fun _ =>
      Codegen.pure p.1).Ends ctx s₁ fun o code st' =>
      st.Takes o.holds pending st' ∧ o.Fits st' ∧ s₁.table.Interns st'.table ∧
        (M.Hosts st' → ∀ {m mm : Memory} {x y : Word}, M.Obeys rules → M.Ready m mm →
          (M.ref mm l.slot).value? rules m = some x →
          (M.ref mm r.slot).value? rules (m.set dest.address x) = some y →
          ∃ mm', M.Leads code none mm mm' ∧
            M.Ready (m.set dest.address (op.apply rules.arithmetic x y)) mm' ∧ st.Keeps mm mm' ∧
            M.ref mm' o.slot = .cell dest.address) := by
  have valid₁ := takes.valid
  have usableL := fitsL.usable takes.held_left
  refine .bind ((assign_ends valid₁ (assignable.usable valid₁) usableL).mono ?_)
  rintro _ c₁ s₂ ⟨takesA, write⟩
  have takes₂ := (takes.append_nil takesA).release List.perm_append_comm
  have later₂ : s₁.Later (s₂.release l.holds) :=
    (takesA.later valid₁).trans (.release s₂ l.holds)
  have fitsR₂ := fitsR.later later₂
  have assignable₂ : dest.Assignable (s₂.release l.holds).table := assignable.mono later₂.interns
  have heldR₂ : r.Held (s₂.release l.holds) := fun _ mem => takes₂.holds_mem mem
  have usableR := fitsR₂.usable heldR₂
  refine .bind (.release (.bind (.pure (.bind ((operate_ends takes₂.valid
    (assignable₂.usable takes₂.valid) usableR).mono ?_)))))
  rintro _ c₂ s₃ ⟨takesO, compute⟩
  have takes₃ := (takes₂.append_nil takesO).releaseAll
  have assignable₃ : dest.Assignable (s₃.release r.holds).table := assignable₂.mono takesO.interns
  refine .bind (.release (.pure ⟨takes₃, Slot.Assignable.fits assignable₃ takes₃.valid,
    takesA.interns.trans takesO.interns, ?_⟩))
  intro hosts m mm x y obeys ready readX readY
  have hosts₃ : M.Hosts s₃ := hosts.of_release
  have hosts₂ := hosts₃.earlier takesO
  have hosts₁ := later₂.hosts hosts₂
  have isOpen := hosts₁.open_of_kind assignable.stored assignable.kind
  obtain ⟨valueL, clearL⟩ := Machine.value_of_ref hosts₁ valid₁ ready obeys usableL readX
  obtain ⟨mm₁, leads₁, frame₁⟩ := write hosts₂.of_release (ready.machine hosts.valid)
    (fun notDirect => absurd assignable.direct notDirect) clearL
  rw [Slot.cell_direct assignable.direct, valueL] at frame₁
  obtain ⟨ready₁, keeps₁⟩ := ready.write hosts₁ valid₁ isOpen frame₁
  rw [← fitsR.ref_eq valid₁ hosts₁ ready ready₁ (takes.held_right.keeps keeps₁)] at readY
  obtain ⟨valueR, clearR⟩ := Machine.value_of_ref hosts₂ takes₂.valid ready₁ obeys usableR readY
  have readD : (M.ref mm₁ dest).value? rules (m.set dest.address x) = some x := by
    rw [assignable₂.ref takes₂.valid.table]
    simp [Ref.value?]
  obtain ⟨valueD, clearD⟩ := Machine.value_of_ref hosts₂ takes₂.valid ready₁ obeys
    (assignable₂.usable takes₂.valid) readD
  obtain ⟨mm₂, leads₂, frame₂⟩ := compute hosts₃ (ready₁.machine hosts.valid) clearD clearR
  rw [Slot.cell_direct assignable.direct, valueD, valueR, ← obeys.arithmetic] at frame₂
  obtain ⟨ready₂, keeps₂⟩ := ready₁.write hosts₂ takes₂.valid isOpen frame₂
  rw [Memory.set_set] at ready₂
  exact ⟨mm₂, by simpa using leads₁.append leads₂, ready₂,
    (keeps₁.weaken takes).trans (keeps₂.weaken takes₂), assignable₃.ref takes₃.valid.table mm₂⟩

/-- A binary operation. -/
theorem evaluates_binary {dest : Option Slot} (obeys : M.Obeys rules)
    (assignable : ∀ s ∈ dest, s.Assignable t)
    (evaluatesL : Evaluates M t ctx left first pendingL)
    (evaluatesR : Evaluates M t ctx right second pendingR) :
    Evaluates M t ctx (binaryValue op left right dest line)
      (Meaning.binary rules op first second (dest.map (·.address))) (pendingL ++ pendingR) := by
  intro st valid interns
  refine pair_ends evaluatesL evaluatesR valid interns ?_
  intro l r c₁ s₁ takes fitsL fitsR evaluate
  have anyTemp : ∀ mm, Meaning.anyTemp op (M.ref mm l.slot) (M.ref mm r.slot) =
      (l.isTemp || op.isCommutative && r.isTemp) := by
    intro mm
    rw [Meaning.anyTemp, Operand.isTemp_ref fitsL takes.held_left takes.valid,
      Operand.isTemp_ref fitsR takes.held_right takes.valid]
  dsimp only
  by_cases tempL : l.isTemp = true
  · rw [if_pos tempL]
    refine .bind (.pure ((operate_temp_ends M rules takes fitsL fitsR tempL).mono ?_))
    rintro o c₂ st' ⟨takesAll, fits, internsO, compute⟩
    refine ⟨takesAll, fits, fun hosts {m m' mm ref} ready done => ?_⟩
    obtain ⟨x, m₁, y, m₂, v, ranL, ranR, valueL, done⟩ := Meaning.binary_eq_some.1 done
    obtain ⟨mm₁, leads₁, ready₁, keeps₁, rfl, rfl⟩ :=
      evaluate (hosts.of_interns internsO) ready ranL ranR
    rw [anyTemp] at done
    obtain ⟨-, done⟩ := done.resolve_right (by simp [tempL])
    obtain ⟨w, valueR, rfl, rfl⟩ := Meaning.inRegister_eq_some.1 done
    obtain ⟨mm₂, leads₂, ready₂, keeps₂, filled⟩ := compute hosts obeys ready₁ valueL valueR
    exact ⟨mm₂, by simpa using leads₁.append leads₂, ready₂, keeps₁.trans keeps₂, filled⟩
  rw [if_neg tempL]
  by_cases tempR : (op.isCommutative && r.isTemp) = true
  · rw [if_pos tempR]
    obtain ⟨commutative, isTempR⟩ := Bool.and_eq_true_iff.1 tempR
    refine .bind (.pure ((operate_temp_ends M rules (takes.perm List.perm_append_comm) fitsR fitsL
      isTempR).mono ?_))
    rintro o c₂ st' ⟨takesAll, fits, internsO, compute⟩
    refine ⟨takesAll, fits, fun hosts {m m' mm ref} ready done => ?_⟩
    obtain ⟨x, m₁, y, m₂, v, ranL, ranR, valueL, done⟩ := Meaning.binary_eq_some.1 done
    obtain ⟨mm₁, leads₁, ready₁, keeps₁, rfl, rfl⟩ :=
      evaluate (hosts.of_interns internsO) ready ranL ranR
    rw [anyTemp] at done
    obtain ⟨-, done⟩ := done.resolve_right (by simp [tempR])
    obtain ⟨w, valueR, rfl, rfl⟩ := Meaning.inRegister_eq_some.1 done
    obtain ⟨mm₂, leads₂, ready₂, keeps₂, filled⟩ := compute hosts obeys ready₁ valueR valueL
    rw [BinaryOp.apply_comm commutative] at filled
    exact ⟨mm₂, by simpa using leads₁.append leads₂, ready₂, keeps₁.trans keeps₂, filled⟩
  rw [if_neg tempR]
  cases dest with
  | none =>
    refine .bind ((toTemp_ends (takes.perm List.perm_append_comm) fitsL).mono ?_)
    rintro o₁ c₂ s₂ ⟨takes₂, later₂, fits₂, isTemp₂, move⟩
    refine .bind (.pure ((operate_temp_ends M rules (takes₂.perm List.perm_append_comm) fits₂
      (fitsR.later later₂) isTemp₂).mono ?_))
    rintro o c₃ st' ⟨takesAll, fits, internsO, compute⟩
    refine ⟨takesAll, fits, fun hosts {m m' mm ref} ready done => ?_⟩
    have hosts₂ := hosts.of_interns internsO
    obtain ⟨x, m₁, y, m₂, v, ranL, ranR, valueL, done⟩ := Meaning.binary_eq_some.1 done
    obtain ⟨mm₁, leads₁, ready₁, keeps₁, rfl, rfl⟩ := evaluate (later₂.hosts hosts₂) ready ranL ranR
    obtain ⟨-, done⟩ := done.resolve_right (by simp)
    obtain ⟨w, valueR, rfl, rfl⟩ := Meaning.inRegister_eq_some.1 done
    obtain ⟨mm₂, leads₂, ready₂, keeps₂, moved⟩ := move hosts₂ obeys ready₁ valueL
    have sameR := fitsR.ref_eq takes.valid (later₂.hosts hosts₂) ready₁ ready₂ fun _ => keeps₂.kept
    obtain ⟨mm₃, leads₃, ready₃, keeps₃, filled⟩ := compute hosts obeys ready₂
      (Ref.value?_of_temp moved) (sameR ▸ valueR)
    refine ⟨mm₃, by simpa using leads₁.append (leads₂.append leads₃), ready₃, ?_, filled⟩
    exact (keeps₁.trans keeps₂.keeps).trans keeps₃
  | some dest =>
    have assignable₁ := (assignable dest rfl).mono (interns.trans takes.interns)
    refine (operate_variable_ends M rules takes fitsL fitsR assignable₁).mono ?_
    rintro o c₂ st' ⟨takesAll, fits, internsO, compute⟩
    refine ⟨takesAll, fits, fun hosts {m m' mm ref} ready done => ?_⟩
    obtain ⟨x, m₁, y, m₂, v, ranL, ranR, valueL, done⟩ := Meaning.binary_eq_some.1 done
    obtain ⟨mm₁, leads₁, ready₁, keeps₁, rfl, rfl⟩ :=
      evaluate (hosts.of_interns internsO) ready ranL ranR
    rw [anyTemp] at done
    obtain ⟨_, ⟨⟩, -, done⟩ := done.resolve_left (by simp [tempL, tempR])
    obtain ⟨-, w, valueR, rfl, rfl⟩ := Meaning.inVariable_eq_some.1 done
    obtain ⟨mm₂, leads₂, ready₂, keeps₂, filled⟩ := compute hosts obeys ready₁ valueL valueR
    exact ⟨mm₂, by simpa using leads₁.append leads₂, ready₂, keeps₁.trans keeps₂, filled⟩

end Binary

section Unary

variable {operand : Codegen Operand} {effect : Effect Ref} {pending : List (Step × Node)}

/-- Zero less the operand. -/
theorem evaluates_negate (obeys : M.Obeys rules)
    (evaluates : Evaluates M t ctx operand effect pending) :
    Evaluates M t ctx (negateValue operand line) (Meaning.negate rules effect) pending := by
  intro st valid interns
  refine .bind ((evaluates st valid interns).mono ?_)
  rintro o c₁ s₁ ⟨takes, fits, evaluate⟩
  refine .bind ((direct_value_ends takes.nil_append fits).mono ?_)
  rintro o₁ c₂ s₂ ⟨takes₂, later₂, fits₂, stored₂, direct₂, load⟩
  refine .bind ((allocate_ends takes₂.valid).mono ?_)
  rintro r _ s₃ ⟨takesR, rfl, -⟩
  have inHand : r.InHand s₃ := .of_takes takesR List.mem_cons_self
  have later₃ := takesR.later takes₂.valid
  have takes₃ : st.Takes ((Operand.ofRegister r).holds ++ o₁.holds) pending s₃ := by
    simpa [Operand.ofRegister] using (takes₂.trans takesR).perm List.perm_append_comm
  refine .bind (.emit ((operate_temp_ends M rules takes₃ (inHand.fits takesR.valid)
    (fits₂.later later₃) inHand.isTemp).mono ?_))
  rintro o₂ c₃ st' ⟨takesAll, fitsAll, internsO, compute⟩
  refine ⟨takesAll, fitsAll, fun hosts {m m' mm ref} ready done => ?_⟩
  have hosts₃ := hosts.of_interns internsO
  have hosts₂ := later₃.hosts hosts₃
  obtain ⟨x, m₁, ran, done⟩ := Effect.bind_eq_some.1 done
  obtain ⟨v, m₂, read, done⟩ := Effect.bind_eq_some.1 done
  obtain ⟨value, rfl⟩ := Ref.read_eq_some.1 read
  obtain ⟨rfl, rfl⟩ := Effect.pure_eq_some.1 done
  obtain ⟨mm₁, leads₁, ready₁, keeps₁, rfl⟩ := evaluate (later₂.hosts hosts₂) ready ran
  obtain ⟨mm₂, leads₂, ready₂, keeps₂, -, loaded⟩ := load hosts₂ obeys ready₁ value
  obtain ⟨ready₃, keeps₃, cleared⟩ := ready₂.fill hosts₃ takesR (.refl s₃ (mm₂.set r.address 0))
  have sameO := fits₂.ref_eq takes₂.valid hosts₂ ready₂ ready₃ (takes₂.held_right.keeps keeps₃)
  obtain ⟨mm₄, leads₄, ready₄, keeps₄, filled⟩ := compute hosts obeys ready₃
    (Ref.value?_of_temp cleared) (sameO ▸ loaded)
  have clear : M.Leads [.clear r.asmName] none mm₂ (mm₂.set r.address 0) :=
    .clear (hosts₃.cell?_eq inHand.stored)
  refine ⟨mm₄, ?_, ready₄, ?_, filled⟩
  · simpa using leads₁.append (leads₂.append (clear.append leads₄))
  · exact ((keeps₁.trans (keeps₂.weaken takes)).trans (keeps₃.weaken takes₂)).trans keeps₄

theorem evaluates_complement (obeys : M.Obeys rules)
    (evaluates : Evaluates M t ctx operand effect pending) :
    Evaluates M t ctx (complementValue operand line) (Meaning.complement rules effect) pending := by
  intro st valid interns
  refine .bind ((evaluates st valid interns).mono ?_)
  rintro o c₁ s₁ ⟨takes, fits, evaluate⟩
  refine .bind ((toTemp_ends takes.nil_append fits).mono ?_)
  rintro o₁ c₂ s₂ ⟨takes₂, later₂, fits₂, isTemp₂, move⟩
  have usable := fits₂.usable takes₂.held_right
  refine .bind ((update_ends takes₂.valid usable).mono ?_)
  rintro _ c₃ s₃ ⟨takesU, write⟩
  refine .pure ⟨takes₂.append_nil takesU, fits₂.later (takesU.later takes₂.valid),
    fun hosts {m m' mm ref} ready done => ?_⟩
  have hosts₂ := hosts.earlier takesU
  obtain ⟨x, m₁, ran, done⟩ := Effect.bind_eq_some.1 done
  obtain ⟨v, m₂, read, done⟩ := Effect.bind_eq_some.1 done
  obtain ⟨value, rfl⟩ := Ref.read_eq_some.1 read
  obtain ⟨rfl, rfl⟩ := Effect.pure_eq_some.1 done
  obtain ⟨mm₁, leads₁, ready₁, keeps₁, rfl⟩ := evaluate (later₂.hosts hosts₂) ready ran
  obtain ⟨mm₂, leads₂, ready₂, keeps₂, moved⟩ := move hosts₂ obeys ready₁ value
  obtain ⟨valueO, clear⟩ := Machine.value_of_ref hosts₂ takes₂.valid ready₂ obeys usable
    (Ref.value?_of_temp moved)
  obtain ⟨mm₃, leads₃, frame⟩ := write hosts (ready₂.machine hosts.valid) clear
  have direct := ((Operand.isTemp_iff fits₂ takes₂.held_right takes₂.valid).1 isTemp₂).2.1
  rw [Slot.cell_direct direct, valueO] at frame
  obtain ⟨ready₃, keeps₃, filled⟩ := ready₂.overwrite hosts₂ takes₂ fits₂ (fun _ mem => mem) isTemp₂
    frame
  refine ⟨mm₃, by simpa using leads₁.append (leads₂.append leads₃), ready₃, ?_, filled⟩
  exact (keeps₁.trans keeps₂.keeps).trans keeps₃

/-- A step before the use. -/
theorem evaluates_preStep {step : Step} (obeys : M.Obeys rules)
    (evaluates : Evaluates M t ctx operand effect pending) :
    Evaluates M t ctx (preStepValue step operand line) (Meaning.preStep rules step effect)
      pending := by
  intro st valid interns
  refine .bind ((evaluates st valid interns).mono ?_)
  rintro o c₁ s₁ ⟨takes, fits, evaluate⟩
  have held : o.Held s₁ := fun _ mem => takes.holds_mem mem
  have usable := fits.usable held
  refine .bind ((update_ends takes.valid usable).mono ?_)
  rintro _ c₂ s₂ ⟨takesU, write⟩
  refine .pure ⟨takes.append_nil takesU, fits.later (takesU.later takes.valid),
    fun hosts {m m' mm ref} ready done => ?_⟩
  have hosts₁ := hosts.earlier takesU
  obtain ⟨x, m₁, ran, done⟩ := Effect.bind_eq_some.1 done
  obtain ⟨_, m₂, changed, done⟩ := Effect.bind_eq_some.1 done
  obtain ⟨rfl, rfl⟩ := Effect.pure_eq_some.1 done
  obtain ⟨mm₁, leads₁, ready₁, keeps₁, rfl⟩ := evaluate hosts₁ ready ran
  obtain ⟨clear, isOpen, rfl⟩ :=
    Machine.change_of_ref hosts₁ takes.valid ready₁ obeys usable changed
  obtain ⟨mm₂, leads₂, frame⟩ := write hosts (ready₁.machine hosts.valid) clear
  obtain ⟨ready₂, keeps₂⟩ := ready₁.write hosts₁ takes.valid isOpen frame
  refine ⟨mm₂, by simpa using leads₁.append leads₂, ready₂, keeps₁.trans (keeps₂.weaken takes), ?_⟩
  exact fits.ref_eq takes.valid hosts₁ ready₁ ready₂ (held.keeps keeps₂)

/-- A step after the use is put off. -/
theorem evaluates_postStep {step : Step} {target : Node}
    (evaluates : Evaluates M t ctx operand effect pending) :
    Evaluates M t ctx (postStepValue step target operand line) effect
      ((step, target) :: pending) := by
  intro st valid interns
  refine .bind (.of rfl ?_)
  split
  · exact .fail _
  · have takes₀ : st.Takes [] [(step, target)]
        { st with deferred := st.deferred ++ [(step, target)] } := by
      refine ⟨⟨valid.table, valid.pool⟩, .refl _, ?_, ?_, ?_, ?_, ?_⟩ <;> simp
    refine .bind (.modifyState ((evaluates _ takes₀.valid interns).mono ?_))
    rintro o code st' ⟨takes, fits, evaluate⟩
    exact ⟨takes₀.trans takes, fits, fun hosts {_ _ _ _} ready done => evaluate hosts ready done⟩

end Unary

section Address

variable {base index : Codegen Operand} {first second : Effect Ref}
  {pendingB pendingI : List (Step × Node)} {type : ValueType}

/-- A slot that is no view is viewed at a distance, through the registers that it holds. -/
theorem fits_withOffset {st : State} {o : Operand} (fits : o.Fits st)
    (stored : o.slot.StoredIn st.table) (distance : Word) :
    Operand.Fits st ⟨o.slot.withOffset (.fixed distance) type, o.holds⟩ where
  slot := .inr ⟨stored.withOffset _ _, by simp [Slot.withOffset]⟩
  owned a uses isRegister := by
    rcases uses with rfl | offset
    · exact fits.owned _ (.inl rfl) isRegister
    · simp [Slot.withOffset] at offset

theorem ref_withOffset {st : State} {s : Slot} (stored : s.StoredIn st.table) (valid : st.Valid)
    (distance : Word) (mm : Memory) :
    M.ref mm (s.withOffset (.fixed distance) type) = (s.source mm).through distance := by
  have notLiteral := (stored.withOffset (.fixed distance) type).literal?_eq_none valid.table
  rw [Machine.ref, notLiteral]
  rfl

/-- The cell at a computed address and a fixed distance. -/
theorem evaluates_through {distance : Word} (obeys : M.Obeys rules)
    (evaluates : Evaluates M t ctx base first pendingB) :
    Evaluates M t ctx
      (base >>= fun o => direct o line >>= fun b =>
        Codegen.pure ⟨b.slot.withOffset (.fixed distance) type, b.holds⟩)
      (do return (← (← first).settle rules).through distance) pendingB := by
  intro st valid interns
  refine .bind ((evaluates st valid interns).mono ?_)
  rintro o c₁ s₁ ⟨takes, fits, evaluate⟩
  refine .bind ((direct_ends takes.nil_append fits).mono ?_)
  rintro b c₂ s₂ ⟨takes₂, later₂, fits₂, stored₂, direct₂, load⟩
  refine .pure ⟨takes₂, fits_withOffset fits₂ stored₂ distance,
    fun hosts {m m' mm ref} ready done => ?_⟩
  obtain ⟨x, m₁, ran, done⟩ := Effect.bind_eq_some.1 done
  obtain ⟨source, m₂, settles, done⟩ := Effect.bind_eq_some.1 done
  obtain ⟨rfl, rfl⟩ := Effect.pure_eq_some.1 done
  obtain ⟨mm₁, leads₁, ready₁, keeps₁, rfl⟩ := evaluate (later₂.hosts hosts) ready ran
  obtain ⟨rfl, mm₂, leads₂, ready₂, keeps₂, rfl⟩ := load hosts obeys ready₁ settles
  exact ⟨mm₂, by simpa using leads₁.append leads₂, ready₂, keeps₁.trans (keeps₂.weaken takes),
    ref_withOffset stored₂ takes₂.valid distance mm₂⟩

theorem evaluates_deref (obeys : M.Obeys rules)
    (evaluates : Evaluates M t ctx base first pendingB) :
    Evaluates M t ctx (derefValue base type line) (Meaning.deref rules first) pendingB :=
  evaluates_through obeys evaluates

/-- A view at a distance that is found in a cell, through the registers of both. -/
theorem fits_withIndex {st : State} {b i : Operand} (fitsB : b.Fits st) (fitsI : i.Fits st)
    (storedB : b.slot.StoredIn st.table) (storedI : i.slot.StoredIn st.table) :
    Operand.Fits st ⟨b.slot.withOffset (.dynamic i.slot.address) type, b.holds ++ i.holds⟩ where
  slot := by
    refine .inr ⟨storedB.withOffset _ _, fun a offset => ?_⟩
    obtain rfl : i.slot.address = a := by simpa [Slot.withOffset] using offset
    obtain ⟨s₁, mem, hasCell, same⟩ := storedI
    exact ⟨s₁, mem, hasCell, (congrArg Slot.address same).symm⟩
  owned a uses isRegister := by
    rw [List.map_append, List.mem_append]
    rcases uses with rfl | offset
    · exact .inl (fitsB.owned _ (.inl rfl) isRegister)
    · obtain rfl : i.slot.address = a := by simpa [Slot.withOffset] using offset
      exact .inr (fitsI.owned _ (.inl rfl) isRegister)

theorem ref_withIndex {st : State} {b i : Slot} (hosts : M.Hosts st) (valid : st.Valid)
    (storedB : b.StoredIn st.table) (storedI : i.StoredIn st.table) (mm : Memory) :
    M.ref mm (b.withOffset (.dynamic i.address) type) =
      .view (b.source mm) (i.source mm).plain := by
  have notLiteral := (storedB.withOffset (.dynamic i.address) type).literal?_eq_none valid.table
  rw [← hosts.sourceAt_eq storedI, Machine.ref, notLiteral]
  rfl

/-- The cell at a computed address and index. -/
theorem evaluates_lookup {fixed : Option Word} (obeys : M.Obeys rules)
    (evaluatesB : Evaluates M t ctx base first pendingB)
    (evaluatesI : Evaluates M t ctx index second pendingI) :
    Evaluates M t ctx (lookupValue base fixed index type line)
      (Meaning.lookup rules first fixed second)
      (pendingB ++ if fixed.isSome then [] else pendingI) := by
  cases fixed with
  | some distance =>
    rw [Option.isSome_some, if_pos rfl, List.append_nil]
    exact evaluates_through obeys evaluatesB
  | none =>
    intro st valid interns
    refine .bind ((evaluatesB st valid interns).mono ?_)
    rintro o c₁ s₁ ⟨takes₁, fits₁, evaluate⟩
    refine .bind ((direct_ends takes₁.nil_append fits₁).mono ?_)
    rintro b c₂ s₂ ⟨takes₂, later₂, fits₂, stored₂, direct₂, load⟩
    refine .bind ((evaluatesI s₂ takes₂.valid (interns.trans takes₂.interns)).mono ?_)
    rintro o' c₃ s₃ ⟨takes₃, fits₃, evaluate'⟩
    have later₃ := takes₃.later takes₂.valid
    refine .bind ((direct_ends (takes₂.trans takes₃) fits₃).mono ?_)
    rintro i c₄ s₄ ⟨takes₄, later₄, fits₄, stored₄, direct₄, load'⟩
    have later := later₃.trans later₄
    refine .pure ⟨takes₄, fits_withIndex (fits₂.later later) fits₄ (stored₂.mono later.interns)
      stored₄, fun hosts {m m' mm ref} ready done => ?_⟩
    have hosts₃ := later₄.hosts hosts
    have hosts₂ := later₃.hosts hosts₃
    obtain ⟨x, m₁, ran, done⟩ := Effect.bind_eq_some.1 done
    obtain ⟨source, m₂, settles, done⟩ := Effect.bind_eq_some.1 done
    obtain ⟨y, m₃, ran', done⟩ := Effect.bind_eq_some.1 done
    obtain ⟨source', m₄, settles', done⟩ := Effect.bind_eq_some.1 done
    obtain ⟨rfl, rfl⟩ := Effect.pure_eq_some.1 done
    obtain ⟨mm₁, leads₁, ready₁, keeps₁, rfl⟩ := evaluate (later₂.hosts hosts₂) ready ran
    obtain ⟨rfl, mm₂, leads₂, ready₂, keeps₂, rfl⟩ := load hosts₂ obeys ready₁ settles
    obtain ⟨mm₃, leads₃, ready₃, keeps₃, rfl⟩ := evaluate' hosts₃ ready₂ ran'
    obtain ⟨rfl, mm₄, leads₄, ready₄, keeps₄, rfl⟩ := load' hosts obeys ready₃ settles'
    -- the base stands where it stood, since its registers are held
    have keeps : s₂.Keeps mm₂ mm₄ := keeps₃.trans (keeps₄.weaken takes₃)
    have sameRef := fits₂.ref_eq takes₂.valid hosts₂ ready₂ ready₄ (takes₂.held_right.keeps keeps)
    have sameBase := Machine.source_eq_of_ref_eq (stored₂.literal?_eq_none takes₂.valid.table) direct₂
      sameRef
    refine ⟨mm₄, ?_, ready₄, ?_, ?_⟩
    · simpa using leads₁.append (leads₂.append (leads₃.append leads₄))
    · exact (keeps₁.trans (keeps₂.weaken takes₁)).trans (keeps.weaken takes₂)
    · rw [← sameBase]
      exact ref_withIndex hosts takes₄.valid (stored₂.mono later.interns) stored₄ mm₄

end Address

section Assignment

variable {target : Codegen Operand} {first second : Effect Ref} {right : Option Node}
  {hasCall : Bool} {pendingT pendingV : List (Step × Node)}

/-- A value is computed in variables only. -/
theorem canComputeIn_ends {st : State} {o : Operand} {right : Node} (fits : o.Fits st)
    (valid : st.Valid) :
    (canComputeIn o.slot right).Ends ctx st fun can code st' => code = [] ∧ st' = st ∧
      (can = true ↔ ctx.settings.reuseAssignedVar = true ∧ o.slot.Assignable st.table ∧
        right.mentions o.slot.address = false) := by
  refine .of rfl ⟨rfl, rfl, ?_⟩
  simp only [Slot.isDirect, Bool.and_eq_true, Option.isNone_iff_eq_none, Bool.or_eq_true,
    Bool.not_eq_true', beq_iff_eq]
  constructor
  · rintro ⟨⟨⟨⟨reuse, direct⟩, -⟩, kind⟩, unmentioned⟩
    refine ⟨reuse, ⟨?_, direct, kind⟩, unmentioned⟩
    rcases fits.slot with ⟨isLiteral, -⟩ | ⟨stored, -⟩
    · have constant := (Slot.kind_of_literal? isLiteral).1
      rcases kind with k | k <;> simp [k] at constant
    · exact stored
  · rintro ⟨reuse, assignable, unmentioned⟩
    refine ⟨⟨⟨⟨reuse, assignable.direct⟩, ?_⟩, assignable.kind⟩, unmentioned⟩
    rw [Bool.eq_false_iff]
    exact fun isRegister => assignable.not_register
      ((Slot.isRegister_iff_kind valid assignable.stored).1 isRegister)

variable (M) in
/-- The variable that a value is computed in is the one that the rules allow. -/
theorem early_ends {α : Type} {st : State} {o : Operand} {k : Bool → Codegen α}
    {post : α → List Instr → State → Prop} (fits : o.Fits st) (valid : st.Valid)
    (reuse : ctx.settings.reuseAssignedVar = (rules.reuse != .never)) {action : Codegen α}
    (isAction : action = match right with
      | some right => canComputeIn o.slot right >>= fun can => Codegen.pure (can && !hasCall) >>= k
      | none => Codegen.pure false >>= k)
    (rest : ∀ early : Bool, (early = true → o.slot.Assignable st.table) →
      (∀ mm, Meaning.early rules right hasCall (M.ref mm o.slot) =
        (if early then some o.slot else none).map (·.address)) → (k early).Ends ctx st post) :
    action.Ends ctx st post := by
  subst isAction
  cases right with
  | none =>
    refine .bind (.pure (rest false (by simp) fun mm => ?_))
    unfold Meaning.early
    split <;> simp_all
  | some right =>
    refine .bind ((canComputeIn_ends fits valid).mono ?_)
    rintro can _ st ⟨rfl, rfl, iff⟩
    refine .bind (.pure (rest _ (fun early => (iff.1 (Bool.and_eq_true_iff.1 early).1).2.1)
      fun mm => ?_))
    by_cases assignable : o.slot.Assignable st.table
    · have sameCan : can = (rules.reuse != .never && !right.mentions o.slot.address) := by
        rw [Bool.eq_iff_iff, iff, reuse, Bool.and_eq_true_iff]
        simp [assignable]
      rw [assignable.ref valid.table, sameCan]
      cases rule : rules.reuse <;> simp [Meaning.early, rule]
    · have notCan : can = false := by
        rw [Bool.eq_false_iff]
        exact fun isTrue => assignable (iff.1 isTrue).2.1
      unfold Meaning.early
      split
      · simp [notCan]
      · rename_i isCell _ _
        exact absurd (Slot.Assignable.of_ref fits valid isCell).1 assignable
      · simp [notCan]

/-- An assignment. -/
theorem evaluates_assign {value : Option Slot → Codegen Operand} {second : Option Int → Effect Ref}
    (obeys : M.Obeys rules) (reuse : ctx.settings.reuseAssignedVar = (rules.reuse != .never))
    (evaluatesT : Evaluates M t ctx target first pendingT)
    (evaluatesV : ∀ dest : Option Slot, (∀ s ∈ dest, s.Assignable t) →
      Evaluates M t ctx (value dest) (second (dest.map (·.address))) pendingV) :
    Evaluates M t ctx (assignValue target value right hasCall line)
      (Meaning.assign rules first second right hasCall) (pendingT ++ pendingV) := by
  intro st valid interns
  refine .bind ((evaluatesT st valid interns).mono ?_)
  rintro o c₁ s₁ ⟨takes₁, fits₁, evaluate⟩
  have held₁ : o.Held s₁ := fun _ mem => takes₁.holds_mem mem
  refine early_ends M fits₁ takes₁.valid reuse rfl fun early assignable sameDest => ?_
  have assignable' : ∀ s ∈ if early then some o.slot else none, s.Assignable t := by
    cases early with
    | false => simp
    | true =>
      rintro _ ⟨⟩
      exact (assignable rfl).of_interns (interns.trans takes₁.interns)
  refine .bind ((evaluatesV _ assignable' s₁ takes₁.valid (interns.trans takes₁.interns)).mono ?_)
  rintro v c₂ s₂ ⟨takes₂, fits₂, evaluateV⟩
  have later₂ := takes₂.later takes₁.valid
  have takesV := takes₁.trans takes₂
  have usableT := (fits₁.later later₂).usable takesV.held_left
  have usableV := fits₂.usable takesV.held_right
  refine .bind ((assign_ends takes₂.valid usableT usableV).mono ?_)
  rintro _ c₃ s₃ ⟨takesA, write⟩
  have later : s₁.Later (s₃.release v.holds) :=
    (later₂.trans (takesA.later takes₂.valid)).trans (.release s₃ v.holds)
  refine .bind (.release (.pure ⟨(takesV.append_nil takesA).release (.refl _), fits₁.later later,
    fun hosts {m m' mm ref} ready done => ?_⟩))
  have hosts₃ := hosts.of_release
  have hosts₂ := hosts₃.earlier takesA
  have hosts₁ := later₂.hosts hosts₂
  obtain ⟨m₁, y, m₂, w, ranT, ranV, valueV, writeT⟩ := Meaning.assign_eq_some.1 done
  obtain ⟨mm₁, leads₁, ready₁, keeps₁, rfl⟩ := evaluate hosts₁ ready ranT
  rw [sameDest] at ranV
  obtain ⟨mm₂, leads₂, ready₂, keeps₂, rfl⟩ := evaluateV hosts₂ ready₁ ranV
  have sameT := fits₁.ref_eq takes₁.valid hosts₁ ready₁ ready₂ (held₁.keeps keeps₂)
  rw [← sameT] at writeT
  obtain ⟨isValue, clearV⟩ := Machine.value_of_ref hosts₂ takes₂.valid ready₂ obeys usableV valueV
  obtain ⟨clearT, isOpen, rfl⟩ := Machine.write_of_ref hosts₂ takes₂.valid ready₂ obeys usableT
    writeT
  obtain ⟨mm₃, leads₃, frame⟩ := write hosts₃ (ready₂.machine hosts.valid) clearT clearV
  rw [isValue] at frame
  obtain ⟨ready₃, keeps₃⟩ := ready₂.write hosts₂ takes₂.valid isOpen frame
  have keeps : s₁.Keeps mm₁ mm₃ := keeps₂.trans (keeps₃.weaken takes₂)
  refine ⟨mm₃, by simpa using leads₁.append (leads₂.append leads₃), ready₃,
    keeps₁.trans (keeps.weaken takes₁), ?_⟩
  exact fits₁.ref_eq takes₁.valid hosts₁ ready₁ ready₃ (held₁.keeps keeps)

/-- An assignment that applies an operator. -/
theorem evaluates_operate {op : BinaryOp} {value : Codegen Operand} (obeys : M.Obeys rules)
    (evaluatesT : Evaluates M t ctx target first pendingT)
    (evaluatesV : Evaluates M t ctx value second pendingV) :
    Evaluates M t ctx (operateValue op target value line)
      (Meaning.operate rules op first second) (pendingT ++ pendingV) := by
  intro st valid interns
  refine pair_ends evaluatesT evaluatesV valid interns ?_
  intro o v c₁ s₁ takes fitsT fitsV evaluate
  have usableT := fitsT.usable takes.held_left
  have usableV := fitsV.usable takes.held_right
  refine .bind ((operate_ends takes.valid usableT usableV).mono ?_)
  rintro _ c₂ s₂ ⟨takesO, write⟩
  have later : s₁.Later (s₂.release v.holds) :=
    (takesO.later takes.valid).trans (.release s₂ v.holds)
  refine .bind (.release (.pure ⟨(takes.append_nil takesO).release (.refl _), fitsT.later later,
    fun hosts {m m' mm ref} ready done => ?_⟩))
  have hosts₂ := hosts.of_release
  have hosts₁ := hosts₂.earlier takesO
  obtain ⟨x, m₁, ranT, done⟩ := Effect.bind_eq_some.1 done
  obtain ⟨y, m₂, ranV, done⟩ := Effect.bind_eq_some.1 done
  obtain ⟨w, m₃, readV, done⟩ := Effect.bind_eq_some.1 done
  obtain ⟨valueV, rfl⟩ := Ref.read_eq_some.1 readV
  obtain ⟨_, m₄, changed, done⟩ := Effect.bind_eq_some.1 done
  obtain ⟨rfl, rfl⟩ := Effect.pure_eq_some.1 done
  obtain ⟨mm₁, leads₁, ready₁, keeps₁, rfl, rfl⟩ := evaluate hosts₁ ready ranT ranV
  obtain ⟨isValue, clearV⟩ := Machine.value_of_ref hosts₁ takes.valid ready₁ obeys usableV valueV
  obtain ⟨clearT, isOpen, rfl⟩ :=
    Machine.change_of_ref hosts₁ takes.valid ready₁ obeys usableT changed
  obtain ⟨mm₂, leads₂, frame⟩ := write hosts₂ (ready₁.machine hosts.valid) clearT clearV
  rw [isValue, ← obeys.arithmetic] at frame
  obtain ⟨ready₂, keeps₂⟩ := ready₁.write hosts₁ takes.valid isOpen frame
  refine ⟨mm₂, by simpa using leads₁.append leads₂, ready₂, keeps₁.trans (keeps₂.weaken takes), ?_⟩
  exact fitsT.ref_eq takes.valid hosts₁ ready₁ ready₂ (takes.held_left.keeps keeps₂)

end Assignment

section Ternary

variable {value yes no : Codegen Operand} {effect first second : Effect Ref}
  {pending pendingY pendingN : List (Step × Node)}

/-- One branch: the value is brought into the register `r`, and the steps put off in it are done. -/
theorem ternaryArm_ends {st s₀ : State} {r : Slot} {before : List (Step × Node)}
    (obeys : M.Obeys rules) (repeats : Repeats M t ctx eval again)
    (bound : ∀ p ∈ pending, p.2.Bound t) (evaluates : Evaluates M t ctx value effect pending)
    (takes : st.Takes [r] before s₀) (interns : t.Interns s₀.table) :
    (ternaryArm eval value r line).Ends ctx s₀ fun _ code st' =>
      st.Takes [r] (before ++ Meaning.leak again pending) st' ∧ s₀.table.Interns st'.table ∧
        (M.Hosts st' → ∀ {m m' mm : Memory} {x : Word}, M.Ready m mm →
          Meaning.settled rules again effect pending m = some (x, m') →
          ∃ mm', M.Leads code none mm mm' ∧ M.Ready m' mm' ∧ st.Keeps mm mm' ∧
            M.ref mm' r = .temp x) := by
  have inHand : r.InHand s₀ := .of_takes takes List.mem_cons_self
  have fitsR : (Operand.ofRegister r).Fits s₀ := inHand.fits takes.valid
  refine .bind (.of rfl (.bind ((evaluates s₀ takes.valid interns).mono ?_)))
  rintro v c₁ s₁ ⟨takesV, fitsV, evaluate⟩
  have takes₁ := takes.trans takesV
  have inHand₁ : r.InHand s₁ := .of_takes takes₁ (List.mem_append_left _ List.mem_cons_self)
  have heldV : v.Held s₁ := fun _ mem => takesV.holds_mem mem
  refine .bind ((assign_ends takes₁.valid inHand₁.usable (fitsV.usable heldV)).mono ?_)
  rintro _ c₂ s₂ ⟨takesA, write⟩
  have takes₂ := (takesV.append_nil takesA).releaseAll
  refine .bind (.release ((applyDeferred_ends obeys repeats bound takes₂
    (interns.trans takes₂.interns) rfl).mono ?_))
  rintro _ c₃ st' ⟨takes₃, later₃, finish⟩
  refine ⟨by simpa using takes.trans takes₃, takes₃.interns, fun hosts {m m' mm x} ready done => ?_⟩
  have hosts₂ := (later₃.hosts hosts).of_release
  have hosts₁ := hosts₂.earlier takesA
  obtain ⟨ref, m₁, ran, isValue, steps⟩ := Meaning.settled_eq_some.1 done
  obtain ⟨mm₁, leads₁, ready₁, keeps₁, rfl⟩ := evaluate hosts₁ ready ran
  obtain ⟨valueV, clearV⟩ :=
    Machine.value_of_ref hosts₁ takes₁.valid ready₁ obeys (fitsV.usable heldV) isValue
  obtain ⟨mm₂, leads₂, frame⟩ := write hosts₂ (ready₁.machine hosts.valid) (inHand.clear mm₁) clearV
  rw [Slot.cell_direct inHand.direct, valueV] at frame
  obtain ⟨ready₂, keeps₂, filled⟩ := ready₁.overwrite hosts₁ takes₁
    (inHand₁.fits takes₁.valid) (fun _ => List.mem_append_left _) inHand.isTemp frame
  obtain ⟨mm₃, leads₃, ready₃, keeps₃⟩ := finish hosts ready₂ steps
  have keepsR := keeps₃.weaken takes₂
  have sameR := fitsR.ref_eq takes.valid (hosts₁.earlier takesV) ready₂ ready₃
    fun q mem => keepsR _ (takes.holds_mem mem)
  refine ⟨mm₃, by simpa using leads₁.append (leads₂.append leads₃), ready₃, ?_, sameR.trans filled⟩
  exact ((keeps₁.weaken takes).trans keeps₂).trans (keepsR.weaken takes)

/-- The conditional operator. -/
theorem evaluates_ternary {condition : String → Bool → Codegen Unit} {test : Effect Bool}
    (obeys : M.Obeys rules) (repeats : Repeats M t ctx eval again)
    (boundY : ∀ p ∈ pendingY, p.2.Bound t) (boundN : ∀ p ∈ pendingN, p.2.Bound t)
    (tests : Tests M t ctx condition test pending)
    (evaluatesY : Evaluates M t ctx yes first pendingY)
    (evaluatesN : Evaluates M t ctx no second pendingN) :
    Evaluates M t ctx (ternaryValue eval condition yes no line)
      (do if ← test then return .temp (← Meaning.settled rules again first pendingY)
          else return .temp (← Meaning.settled rules again second pendingN))
      (pending ++ (Meaning.leak again pendingY ++ Meaning.leak again pendingN)) := by
  intro st valid interns
  have takes₀ := takes_labels valid (st.labels + 1)
  refine .bind (.of rfl (.bind ((tests _ false _ takes₀.valid interns).mono ?_)))
  rintro _ c₁ s₁ ⟨takes₁, jump⟩
  refine .bind ((allocate_ends takes₁.valid).mono ?_)
  rintro r _ s₂ ⟨takesR, rfl, -⟩
  have interns₂ := (interns.trans takes₁.interns).trans takesR.interns
  refine .bind ((ternaryArm_ends obeys repeats boundY evaluatesY takesR interns₂).mono ?_)
  rintro _ c₂ s₃ ⟨takesY, internsY, runY⟩
  refine .bind (.emit (.bind (.emit (.bind ((ternaryArm_ends obeys repeats boundN evaluatesN takesY
    (interns₂.trans internsY)).mono ?_)))))
  rintro _ c₃ s₄ ⟨takesN, internsN, runN⟩
  refine .bind (.emit (.pure ?_))
  have takesAll : st.Takes [r] (pending ++ (Meaning.leak again pendingY ++
      Meaning.leak again pendingN)) s₄ := by
    simpa using takes₀.trans (takes₁.trans takesN)
  have inHand : r.InHand s₄ := .of_takes takesAll List.mem_cons_self
  refine ⟨takesAll, inHand.fits takesN.valid, fun hosts {m m' mm ref} ready done => ?_⟩
  obtain ⟨x, m₁, ran, done⟩ := Effect.bind_eq_some.1 done
  obtain ⟨mm₁, leads₁, ready₁, keeps₁⟩ := jump (hosts.earlier takesN) ready ran
  cases x with
  | true =>
    obtain ⟨y, m₂, ranY, done⟩ := Effect.bind_eq_some.1 done
    obtain ⟨rfl, rfl⟩ := Effect.pure_eq_some.1 done
    obtain ⟨mm₂, leads₂, ready₂, keeps₂, filled⟩ := runY (hosts.of_interns internsN) ready₁ ranY
    refine ⟨mm₂, ?_, ready₂, keeps₁.trans (keeps₂.weaken takes₁), filled⟩
    simpa using Machine.Leads.firstWay leads₁ leads₂ _ _ c₃
  | false =>
    obtain ⟨y, m₂, ranN, done⟩ := Effect.bind_eq_some.1 done
    obtain ⟨rfl, rfl⟩ := Effect.pure_eq_some.1 done
    obtain ⟨mm₂, leads₂, ready₂, keeps₂, filled⟩ := runN hosts ready₁ ranN
    refine ⟨mm₂, ?_, ready₂, keeps₁.trans (keeps₂.weaken takes₁), filled⟩
    simpa using Machine.Leads.secondWay leads₁ leads₂ _ c₂

end Ternary

end Codegen

end ContractCompiler
