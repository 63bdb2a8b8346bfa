import ContractCompiler.Proofs.Codegen
import ContractCompiler.Proofs.Layout
import Mathlib.Data.List.Perm.Subperm

/-!
# Proofs.Ownership — every register has one holder at most

Registers are allocated, given back and let go of in any order. Whatever the order is, the registers
that are marked as held are those that someone holds (`Codegen.Holders.run_takes`). So the pool refuses
only if every register is held, and a register that is held can always be given back
(`Codegen.Holders.registers_owned`).
-/

namespace ContractCompiler

set_option autoImplicit false

namespace Pool

variable {p : Pool}

theorem takeFirst_eq_none {rs : List Register} (none : takeFirst rs = none) :
    ∀ r ∈ rs, r.held = true := by
  induction rs with
  | nil => simp
  | cons r rs ih =>
    rw [takeFirst] at none
    split at none
    · rename_i held
      exact List.forall_mem_cons.2 ⟨held, ih (Option.map_eq_none_iff.1 none)⟩
    · cases none

/-- In a pool of `count` registers the first that is free has the lowest number. -/
theorem takeFirst_lowest {count : Nat} (slots : p.slots = (List.range count).map SlotTable.registerSlot)
    {s : Slot} {rs : List Register} (taken : takeFirst p.registers = some (s, rs)) :
    ∃ number < count, s = SlotTable.registerSlot number ∧ ⟨s, false⟩ ∈ p.registers ∧
      ∀ lower < number, ⟨SlotTable.registerSlot lower, true⟩ ∈ p.registers := by
  obtain ⟨before, after, old, -, full⟩ := takeFirst_eq_some taken
  have listed : ∀ i : Nat, (before ++ ⟨s, false⟩ :: after)[i]?.map (·.slot) =
      if i < count then some (SlotTable.registerSlot i) else none := by
    intro i
    rw [← old, ← List.getElem?_map]
    show p.slots[i]? = _
    rw [slots, List.getElem?_map]
    split
    · rename_i below
      rw [List.getElem?_range below]
      rfl
    · rename_i above
      rw [List.getElem?_eq_none (by simpa using above)]
      rfl
  have here := listed before.length
  rw [List.getElem?_append_right (Nat.le_refl _), Nat.sub_self, List.getElem?_cons_zero] at here
  by_cases below : before.length < count
  · rw [if_pos below] at here
    refine ⟨before.length, below, Option.some.inj here, by simp [old], fun lower isLower => ?_⟩
    have there := listed lower
    rw [List.getElem?_append_left isLower, List.getElem?_eq_getElem isLower,
      if_pos (Nat.lt_trans isLower below)] at there
    have mem : before[lower] ∈ before := List.getElem_mem isLower
    have held := full _ mem
    rw [old]
    refine List.mem_append_left _ ?_
    rw [← Option.some.inj there, ← held]
    exact mem
  · rw [if_neg below] at here
    cases here

end Pool

namespace Codegen

variable {ctx : Context} {s s' : State} {line : Nat}

/-- The state that an action leaves, whether it ends or is refused. -/
def Result.state {α : Type} : Result α → State
  | .done _ _ s => s
  | .failed _ s => s

theorem allocate_done {r : Slot} {registers : List Register}
    (taken : Pool.takeFirst s.pool.registers = some (r, registers)) (line : Nat) :
    allocate line ctx s = .done r [] { s with pool := ⟨registers⟩ } := by
  unfold allocate
  simp only [Bind.bind, Codegen.bind, Codegen.state, Pool.allocate, taken]
  rfl

/-- The state stays as it is if no register is free. -/
theorem allocate_refused (full : Pool.takeFirst s.pool.registers = none) (line : Nat) :
    allocate line ctx s = .failed (.shortage line (.registers s.pool.registers.length)) s := by
  unfold allocate
  simp only [Bind.bind, Codegen.bind, Codegen.state, Pool.allocate, full]
  rfl

/-- A register that is held can be given back. -/
theorem giveBack_held (valid : s.Valid) {r : Slot} (held : s.pool.Holds r.address) (line : Nat) :
    giveBack [r] line ctx s = .done () [] (s.release [r]) := by
  have held : ∀ r' ∈ [r], s.pool.Holds r'.address := List.forall_mem_singleton.2 held
  have given := Pool.releaseAll_of_holds valid.addresses_nodup held (List.nodup_singleton _) line
  unfold giveBack
  simp only [Bind.bind, Codegen.bind, Codegen.state]
  rw [given]
  rfl

/-! ## Holders -/

/-- What the holders of registers do. A register that someone holds is named by its place among those
that are held. -/
inductive Move where
  | allocate (line : Nat)
  /-- A register is given back; the pool refuses that for a register that is not marked as held. -/
  | giveBack (place line : Nat)
  /-- A register is let go of. -/
  | letGo (place : Nat)

/-- A state and the registers that were allocated and are still held, the earliest first. -/
structure Holders where
  state : State
  registers : List Slot

namespace Holders

/-- Nothing is held of `count` registers. -/
def start (count : Nat) : Holders :=
  ⟨{ table := .ofRegisters count, pool := .ofTable (.ofRegisters count) }, []⟩

/-- Once a register is given back its holder has it no more, even if the pool refuses it, so that it
is not let go of afterwards. -/
def step (ctx : Context) (h : Holders) : Move → Holders
  | .allocate line =>
    match Codegen.allocate line ctx h.state with
    | .done r _ s => ⟨s, h.registers ++ [r]⟩
    | .failed _ s => ⟨s, h.registers⟩
  | .giveBack place line =>
    match h.registers[place]? with
    | some r => ⟨(Codegen.giveBack [r] line ctx h.state).state, h.registers.eraseIdx place⟩
    | none => h
  | .letGo place =>
    match h.registers[place]? with
    | some r => ⟨(Codegen.release [r] ctx h.state).state, h.registers.eraseIdx place⟩
    | none => h

def run (ctx : Context) (h : Holders) (moves : List Move) : Holders := moves.foldl (step ctx) h

variable {count : Nat} {h : Holders}

theorem start_valid (count : Nat) : (start count).state.Valid :=
  ⟨(SlotTable.ofRegisters_valid count).1, Pool.slots_ofTable _⟩

/-- What is held less one register. -/
theorem erase_takes (takes : s.Takes h.registers [] h.state) {place : Nat} {r : Slot}
    (isHeld : h.registers[place]? = some r) :
    s.Takes (h.registers.eraseIdx place) [] (h.state.release [r]) := by
  obtain ⟨inside, same⟩ := List.getElem?_eq_some_iff.1 isHeld
  refine takes.release ?_
  rw [← same]
  exact (List.getElem_cons_eraseIdx_perm inside).symm.trans (List.perm_append_singleton _ _).symm

/-- A move keeps the account of who holds what. -/
theorem step_takes (takes : s.Takes h.registers [] h.state) (m : Move) :
    s.Takes (h.step ctx m).registers [] (h.step ctx m).state := by
  cases m with
  | allocate line =>
    rw [step]
    cases taken : Pool.takeFirst h.state.pool.registers with
    | none =>
      rw [allocate_refused taken]
      exact takes
    | some made =>
      obtain ⟨r, registers⟩ := made
      have result : Codegen.allocate line ctx h.state = _ := allocate_done taken line
      rw [result]
      exact takes.trans (allocate_ends takes.valid r [] _ result).1
  | giveBack place line =>
    rw [step]
    cases isHeld : h.registers[place]? with
    | none => exact takes
    | some r =>
      have held := takes.holds_mem (List.mem_of_getElem? isHeld)
      dsimp only
      rw [giveBack_held takes.valid held]
      exact erase_takes takes isHeld
  | letGo place =>
    rw [step]
    cases isHeld : h.registers[place]? with
    | none => exact takes
    | some r => exact erase_takes takes isHeld

/-- After any moves, what is marked as held is what someone holds. -/
theorem run_takes (takes : s.Takes h.registers [] h.state) (moves : List Move) :
    s.Takes (h.run ctx moves).registers [] (h.run ctx moves).state := by
  induction moves generalizing h with
  | nil => exact takes
  | cons m moves ih => exact ih (step_takes takes m)

section Reached

variable (takes : (start count).state.Takes h.registers [] h.state)
include takes

/-- There are still the same registers. -/
theorem slots_eq : h.state.pool.slots = (List.range count).map SlotTable.registerSlot := by
  rw [takes.slots (start_valid count), (start_valid count).pool, SlotTable.registers]
  show (SlotTable.ofRegisters count).slots.filter _ = _
  rw [SlotTable.ofRegisters_eq, List.filter_eq_self]
  simp [SlotTable.registerSlot, Slot.fresh]

theorem holds_iff (a : Int) : h.state.pool.Holds a ↔ a ∈ h.registers.map (·.address) := by
  rw [takes.held]
  exact or_iff_right (Pool.not_holds_ofTable _ a)

/-- The registers that are marked as held are those that someone holds. -/
theorem marked_iff (r : Slot) : ⟨r, true⟩ ∈ h.state.pool.registers ↔ r ∈ h.registers := by
  -- An address tells which register is meant, so that it is enough to compare addresses.
  have inj : ∀ r ∈ h.state.pool.slots, ∀ r' ∈ h.state.pool.slots, r.address = r'.address → r = r' :=
    fun r listed r' listed' => List.inj_on_of_nodup_map takes.valid.addresses_nodup listed listed'
  constructor
  · intro marked
    have held : h.state.pool.Holds r.address := ⟨⟨r, true⟩, marked, rfl, rfl⟩
    obtain ⟨r', mem, same⟩ := List.mem_map.1 ((holds_iff takes _).1 held)
    have listed : r ∈ h.state.pool.slots := List.mem_map.2 ⟨_, marked, rfl⟩
    rw [← inj r' (takes.listed r' mem) r listed same]
    exact mem
  · intro mem
    obtain ⟨⟨r', held⟩, listed, same, isHeld⟩ := takes.holds_mem mem
    obtain rfl : held = true := isHeld
    obtain rfl := inj r' (List.mem_map.2 ⟨_, listed, rfl⟩) r (takes.listed r mem) same
    exact listed

/-- The register that is taken is the lowest that nobody holds. -/
theorem taken_lowest {r : Slot} {rs : List Register}
    (taken : Pool.takeFirst h.state.pool.registers = some (r, rs)) :
    ∃ number < count, r = SlotTable.registerSlot number ∧ r ∉ h.registers ∧
      ∀ lower < number, SlotTable.registerSlot lower ∈ h.registers := by
  obtain ⟨number, below, same, free, lower⟩ := Pool.takeFirst_lowest (slots_eq takes) taken
  refine ⟨number, below, same, fun mem => ?_, fun i isLower => (marked_iff takes _).1 (lower i isLower)⟩
  have nodup : h.state.pool.slots.Nodup := .of_map _ takes.valid.addresses_nodup
  cases List.inj_on_of_nodup_map nodup free ((marked_iff takes r).2 mem) rfl

/-- A register is free if fewer are held than there are, and only then. -/
theorem takeFirst_isSome_iff :
    (Pool.takeFirst h.state.pool.registers).isSome = true ↔ h.registers.length < count := by
  have slots := slots_eq takes
  have length : h.state.pool.slots.length = count := by simp [slots]
  cases taken : Pool.takeFirst h.state.pool.registers with
  | none =>
    have all : h.state.pool.slots ⊆ h.registers := by
      intro r listed
      obtain ⟨⟨r', held⟩, mem, rfl⟩ := List.mem_map.1 listed
      obtain rfl : held = true := Pool.takeFirst_eq_none taken _ mem
      exact (marked_iff takes r').1 mem
    have nodup : h.state.pool.slots.Nodup := .of_map _ takes.valid.addresses_nodup
    have le := (List.subperm_of_subset nodup all).length_le
    simp only [Option.isSome_none, Bool.false_eq_true, false_iff]
    omega
  | some made =>
    obtain ⟨r, rs⟩ := made
    obtain ⟨number, below, rfl, notHeld, -⟩ := taken_lowest takes taken
    have listed : SlotTable.registerSlot number ∈ h.state.pool.slots := by
      rw [slots]
      exact List.mem_map_of_mem (List.mem_range.2 below)
    have nodup : (SlotTable.registerSlot number :: h.registers).Nodup :=
      List.nodup_cons.2 ⟨notHeld, .of_map _ takes.nodup⟩
    have le := (List.subperm_of_subset nodup (List.cons_subset.2 ⟨listed, takes.listed⟩)).length_le
    rw [List.length_cons] at le
    simp only [Option.isSome_some, true_iff]
    omega

end Reached

/-- After any moves: the registers that are marked as held are those that someone holds, each of them
once; allocating gives the lowest register that nobody holds if there is one, and else leaves all as it
was; and whoever holds a register can give it back. -/
theorem registers_owned (ctx : Context) (count : Nat) (moves : List Move) {h : Holders}
    (reached : (start count).run ctx moves = h) :
    h.state.pool.slots = (List.range count).map SlotTable.registerSlot ∧
    (∀ r, ⟨r, true⟩ ∈ h.state.pool.registers ↔ r ∈ h.registers) ∧
    (h.registers.map (·.address)).Nodup ∧
    (∀ line, h.registers.length < count → ∃ number < count, ∃ s,
      allocate line ctx h.state = .done (SlotTable.registerSlot number) [] s ∧
      SlotTable.registerSlot number ∉ h.registers ∧
      ∀ lower < number, SlotTable.registerSlot lower ∈ h.registers) ∧
    (∀ line, count ≤ h.registers.length →
      allocate line ctx h.state = .failed (.shortage line (.registers count)) h.state) ∧
    ∀ r ∈ h.registers, ∀ line, giveBack [r] line ctx h.state = .done () [] (h.state.release [r]) := by
  have takes : (start count).state.Takes h.registers [] h.state :=
    reached ▸ run_takes (.refl (start_valid count)) moves
  have slots := slots_eq takes
  have marked := marked_iff takes
  refine ⟨slots, marked, takes.nodup, fun line few => ?_, fun line many => ?_, fun r mem line => ?_⟩
  · obtain ⟨⟨r, rs⟩, taken⟩ := Option.isSome_iff_exists.1 ((takeFirst_isSome_iff takes).2 few)
    obtain ⟨number, below, rfl, notHeld, lower⟩ := taken_lowest takes taken
    exact ⟨number, below, _, allocate_done taken line, notHeld, lower⟩
  · have full : Pool.takeFirst h.state.pool.registers = none := by
      rw [← Option.not_isSome_iff_eq_none, takeFirst_isSome_iff takes]
      omega
    have length : h.state.pool.registers.length = count := by
      have := congrArg List.length slots
      simpa [Pool.slots] using this
    rw [allocate_refused full, length]
  · exact giveBack_held takes.valid (takes.holds_mem mem) line

end Holders

end Codegen

namespace Sample

/-- The context of code that stands outside of functions. -/
def outside : Codegen.Context := ⟨{}, [], LabelId.scrambled 0, none, none, false⟩

/-- Two registers are taken, the first is let go of, and taken again. -/
def taking : List Codegen.Move := [.allocate 1, .allocate 1, .letGo 0, .allocate 2]

end Sample

open Codegen in
/-- Both registers are held and a third is refused; the earlier of the two is given back, and a register
can be taken again. -/
theorem Codegen.Holders.registers_owned_retaking :
    ∃ h h' : Holders, (start 2).run Sample.outside Sample.taking = h ∧
      (start 2).run Sample.outside (Sample.taking ++ [.giveBack 0 3]) = h' ∧
      h.registers = [SlotTable.registerSlot 1, SlotTable.registerSlot 0] ∧
      h'.registers = [SlotTable.registerSlot 0] ∧
      allocate 2 Sample.outside h.state = .failed (.shortage 2 (.registers 2)) h.state ∧
      giveBack [SlotTable.registerSlot 1] 3 Sample.outside h.state =
        .done () [] (h.state.release [SlotTable.registerSlot 1]) ∧
      ∃ number < 2, ∃ s, allocate 4 Sample.outside h'.state =
        .done (SlotTable.registerSlot number) [] s ∧ SlotTable.registerSlot number ∉ h'.registers := by
  have both : ((start 2).run Sample.outside Sample.taking).registers =
      [SlotTable.registerSlot 1, SlotTable.registerSlot 0] := by decide
  have one : ((start 2).run Sample.outside (Sample.taking ++ [.giveBack 0 3])).registers =
      [SlotTable.registerSlot 0] := by decide
  obtain ⟨-, -, -, -, refused, given⟩ := registers_owned Sample.outside 2 Sample.taking rfl
  obtain ⟨-, -, -, taken, -, -⟩ :=
    registers_owned Sample.outside 2 (Sample.taking ++ [.giveBack 0 3]) rfl
  refine ⟨_, _, rfl, rfl, both, one, refused 2 (by simp [both]), given _ (by simp [both]) 3, ?_⟩
  obtain ⟨number, below, s, done, notHeld, -⟩ := taken 4 (by simp [one])
  exact ⟨number, below, s, done, notHeld⟩

end ContractCompiler
