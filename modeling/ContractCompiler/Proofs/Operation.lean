import ContractCompiler.Proofs.Call
import ContractCompiler.Proofs.Codegen.Straight
import ContractCompiler.Proofs.Evaluation

/-!
# Proofs.Operation — the code that is selected for one operation

An `Operation` works on slots: it assigns, computes, changes in place, compares or pushes. The code that
is selected for it has the effect of the operation on what the slots stood for before, and changes
nothing else but free registers (`Operation.select_performs`), whichever of the ways to reach the
operands and of the cheaper codes is taken.

What is read or written through an address must not be a register. An array's element at a fixed index
is not reached through an address: that code was selected shows that the element is a variable
(`Finds`).
-/

namespace ContractCompiler

set_option autoImplicit false

open Codegen (State Context Straight)

/-- An operation on slots that code is selected for. -/
inductive Operation where
  | assign (target source : Slot)
  /-- `left = left op right`. -/
  | operate (op : BinaryOp) (left right : Slot)
  | update (u : Update) (target : Slot)
  /-- Jumps to the label if the relation holds, with zero in place of an operand that is not given. -/
  | compare (relation : Relation) (left : Slot) (right : Option Slot) (label : String)
  | push (s : Slot)
  deriving DecidableEq, Repr

namespace Operation

def select (line : Nat) : Operation → Codegen Unit
  | assign target source => Codegen.assign target source line
  | operate op left right => Codegen.operate op left right line
  | update u target => Codegen.update u target line
  | compare relation left right label => Codegen.compare relation left right label line
  | push s => Codegen.push s line

def operands : Operation → List Slot
  | assign target source => [target, source]
  | operate _ left right => [left, right]
  | update _ target => [target]
  | compare _ left right _ => left :: right.toList
  | push s => [s]

def memory (arithmetic : Arithmetic) (m : Memory) : Operation → Memory
  | assign target source => m.set (target.cell m) (source.value m)
  | operate op left right => m.set (left.cell m) (op.apply arithmetic (left.value m) (right.value m))
  | update u target => m.set (target.cell m) (u.apply (target.value m))
  | compare _ _ _ _ | push _ => m

/-- The label that an operation goes to, if it does not go on. -/
def exit (m : Memory) : Operation → Option String
  | compare relation left right label =>
    if relation.holds (left.value m) ((right.map (·.value m)).getD 0) then some label else none
  | _ => none

def pushed (m : Memory) : Operation → List Word
  | push s => [s.value m]
  | _ => []

end Operation

instance (p : Pool) (a : Int) : Decidable (p.Holds a) :=
  inferInstanceAs (Decidable (∃ r ∈ p.registers, r.slot.address = a ∧ r.held = true))

instance (p : Pool) (a : Int) : Decidable (p.Free a) :=
  inferInstanceAs (Decidable (p.isRegister a = true ∧ ¬ p.Holds a))

/-! ## Elements that are found -/

namespace Slot

variable {M : Machine} {t t' : SlotTable} {st : State} {m : Memory} {s : Slot}

/-- If the slot is an element at a fixed index, then it is one of the variables of the table. -/
def Reached (t : SlotTable) (s : Slot) : Prop :=
  s.offset ≠ none → s.isView = false → ∃ e ∈ t.slots, e.kind = .long ∧ ∀ m, s.cell m = e.address

theorem Reached.of_direct (direct : s.offset = none) : s.Reached t :=
  fun notDirect _ => absurd direct notDirect

theorem Reached.of_view (isView : s.isView = true) : s.Reached t := by
  intro _ notView
  rw [isView] at notView
  cases notView

theorem isView_of_constant {offset : Offset} (isOffset : s.offset = some offset)
    (constant : s.kind = .constant) : s.isView = true := by
  cases offset <;> simp [isView, isOffset, constant]

theorem Reached.of_constant (constant : s.kind = .constant) : s.Reached t := by
  cases offset : s.offset with
  | none => exact .of_direct offset
  | some _ => exact .of_view (isView_of_constant offset constant)

/-- A table has the variables of a later one that has more constants. -/
theorem Reached.of_interns (reached : s.Reached t') (interns : t.Interns t') : s.Reached t := by
  intro notDirect notView
  obtain ⟨e, stored, long, cell⟩ := reached notDirect notView
  obtain ⟨kept, slots, constants⟩ := interns.slots
  rw [slots] at stored
  rcases List.mem_append.1 stored with old | new
  · exact ⟨e, old, long, cell⟩
  · rw [(constants e new).1] at long
    cases long

/-- No register is in the way, if none is where an address leads to. -/
theorem Reached.clear (reached : s.Reached st.table) (hosts : M.Hosts st)
    (through : s.isView = true → ¬ M.IsRegister (s.cell m)) : M.Clear m s := by
  intro notDirect
  cases isView : s.isView with
  | true => exact through isView
  | false =>
    obtain ⟨e, stored, long, cell⟩ := reached notDirect isView
    obtain ⟨e', stored', becomes⟩ := hosts.grows.slots e stored
    have long' : e'.kind = .long := becomes.kind.trans long
    rintro ⟨r, listed, same⟩
    obtain ⟨storedR, register⟩ := SlotTable.mem_registers.1 listed
    rw [cell m, ← becomes.address] at same
    obtain rfl := hosts.valid.eq_of_address storedR (by simp [register]) stored' (by simp [long']) same
    rw [register] at long'
    cases long'

end Slot

namespace Codegen

variable {α β : Type} {s : Slot}

/-- A straight action only adds constants to the table. -/
theorem Straight.interns {m : Codegen α} (straight : Straight m) (ctx : Context) (st : State) :
    m.Ends ctx st fun _ _ st' => st.table.Interns st'.table := by
  induction straight generalizing st with
  | pure _ => exact .pure (.refl _)
  | fail _ => exact .fail _
  | bind _ _ ih ih' =>
    exact .bind ((ih st).mono fun a _ st₁ first => (ih' a st₁).mono fun _ _ _ rest => first.trans rest)
  | context | state | table => exact .of rfl (.refl _)
  | emitAll _ _ _ => exact .emitAll (.refl _)
  | emit _ _ _ => exact .emit (.refl _)
  | ofOutcome _ => exact .ofOutcome fun _ _ => .refl _
  | holding _ ih => exact .holding (ih st)
  | release _ => exact .release (.refl _)
  | giveBack _ _ => exact .giveBack (.refl _)
  | allocate _ =>
    exact .bind (.of rfl (.bind (.ofOutcome fun _ _ => .bind (.modifyState (.pure (.refl _))))))
  | intern value =>
    exact .bind (.of rfl (.bind (.of rfl (.bind (.modifyState (.pure
      (st.table.interns_intern value ctx.settings.maxConstVars)))))))

/-- The action ends only if an element that the slot stands for is found. -/
def Finds (s : Slot) (m : Codegen α) : Prop :=
  ∀ (ctx : Context) (st : State), m.Ends ctx st fun _ _ _ => s.Reached st.table

namespace Finds

variable {m : Codegen α} {f : α → Codegen β}

theorem of_reached (reached : ∀ t, s.Reached t) : Finds s m := fun _ st _ _ _ _ => reached st.table

theorem fail (e : CompileError) : Finds s (Codegen.fail e : Codegen α) := fun _ _ => .fail e

theorem first (finds : Finds s m) : Finds s (m >>= f) :=
  fun ctx st => .bind ((finds ctx st).mono fun _ _ _ reached _ _ _ _ => reached)

theorem second (straight : Straight m) (finds : ∀ a, Finds s (f a)) : Finds s (m >>= f) :=
  fun ctx st => .bind ((straight.interns ctx st).mono fun a _ st₁ interns =>
    (finds a ctx st₁).mono fun _ _ _ reached => reached.of_interns interns)

theorem holding {rs : List Slot} (finds : Finds s m) : Finds s (Codegen.holding rs m) :=
  fun ctx st => .holding (finds ctx st)

end Finds

section Selected

variable (line : Nat) {target source left right : Slot}

theorem place_finds : Finds s (place s line) := by
  intro ctx st
  unfold place
  split
  · rename_i direct
    exact .pure (.of_direct direct)
  · rename_i index offset kind
    refine .bind ((element_ends s index line).mono ?_)
    rintro e _ _ ⟨-, -, stored, long, address⟩
    exact .pure fun _ _ => ⟨e, stored, long, fun m => (Slot.cell_element offset kind m).trans address.symm⟩
  · exact .fail _
  · exact .fail _
  · rename_i offset found notElement _ _
    refine fun _ _ _ _ => .of_view ?_
    cases offset with
    | dynamic a => simp [Slot.isView, found]
    | fixed index =>
      have notArray : s.kind ≠ .array := fun array => notElement index array rfl
      unfold Slot.isView
      rw [found]
      cases kind : s.kind <;> simp_all

theorem resolve_finds : Finds s (resolve s line) := by
  unfold resolve
  split
  · rename_i isLiteral
    exact .of_reached fun _ => .of_constant isLiteral.1
  · exact .first (place_finds line)

theorem setCell_finds : Finds source (setCell target source line) := by
  unfold setCell
  split
  · rename_i same
    simp only [Slot.sameLocation, Bool.and_eq_true, Slot.isDirect, Option.isNone_iff_eq_none] at same
    exact .of_reached fun _ => .of_direct same.1.2
  split
  · rename_i isLiteral
    exact .of_reached fun _ => .of_constant (Slot.kind_of_literal? (by simp [isLiteral])).1
  · exact .first (place_finds line)

theorem assign_finds : Finds target (assign target source line) ∧ Finds source (assign target source line) := by
  unfold assign
  split
  · exact ⟨.fail _, .fail _⟩
  · refine ⟨.first (place_finds line), .second (place_straight line target) fun found => ?_⟩
    split
    · exact setCell_finds line
    · exact .first (.holding (resolve_finds line))

theorem operate_finds {op : BinaryOp} :
    Finds left (operate op left right line) ∧ Finds right (operate op left right line) := by
  unfold operate
  split
  · exact ⟨.fail _, .fail _⟩
  · refine ⟨.first (resolve_finds line), .second (resolve_straight line left) fun dest =>
      .second .table fun t => ?_⟩
    dsimp only
    split
    · rename_i code cheap
      obtain ⟨value, isLiteral, -⟩ := Option.bind_eq_some_iff.1 cheap
      exact .of_reached fun _ => .of_constant (Slot.kind_of_literal? (by simp [isLiteral])).1
    · exact .first (.holding (resolve_finds line))

theorem update_finds {u : Update} : Finds target (update u target line) := by
  unfold update
  split
  · exact .fail _
  · exact .first (resolve_finds line)

theorem jumpIf_finds {relation : Relation} {label : String} :
    Finds left (jumpIf relation left right label line) ∧
      Finds right (jumpIf relation left right label line) :=
  ⟨.first (resolve_finds line), .second (resolve_straight line left) fun _ =>
    .first (.holding (resolve_finds line))⟩

theorem compare_finds {relation : Relation} {right : Option Slot} {label : String} :
    Finds left (compare relation left right label line) ∧
      ∀ s ∈ right, Finds s (compare relation left right label line) := by
  have zero : ∀ {s : Slot} {m : Codegen Unit}, (s.literal? == some 0) = true → Finds s m := by
    intro s m isZero
    exact .of_reached fun _ => .of_constant (Slot.kind_of_literal? (by simp [beq_iff_eq.1 isZero])).1
  cases right with
  | none =>
    unfold compare
    dsimp only
    split
    · exact ⟨.first (resolve_finds line), by simp⟩
    · exact ⟨.fail _, by simp⟩
  | some right =>
    simp only [Option.mem_def, Option.some.injEq, forall_eq']
    unfold compare
    dsimp only
    split
    · split
      · rename_i isZero
        exact ⟨.first (resolve_finds line), zero isZero⟩
      · split
        · rename_i isZero
          exact ⟨zero isZero, .first (resolve_finds line)⟩
        · exact jumpIf_finds line
    · exact jumpIf_finds line

end Selected

end Codegen

/-! ## Operations -/

namespace Operation

variable {ctx : Context} {st st' : State} {code : List Instr} {line : Nat} {M : Machine} {m : Memory}

/-- Code is selected only if the elements among the operands are found. -/
theorem select_finds (op : Operation) {s : Slot} (listed : s ∈ op.operands) :
    Codegen.Finds s (op.select line) := by
  cases op with
  | assign target source =>
    rcases List.mem_pair.1 listed with rfl | rfl
    · exact (Codegen.assign_finds line).1
    · exact (Codegen.assign_finds line).2
  | operate op left right =>
    rcases List.mem_pair.1 listed with rfl | rfl
    · exact (Codegen.operate_finds line).1
    · exact (Codegen.operate_finds line).2
  | update u target =>
    obtain rfl := List.mem_singleton.1 listed
    exact Codegen.update_finds line
  | compare relation left right label =>
    rcases List.mem_cons.1 listed with rfl | other
    · exact (Codegen.compare_finds line).1
    · exact (Codegen.compare_finds line).2 s (Option.mem_toList.1 other)
  | push s =>
    obtain rfl := List.mem_singleton.1 listed
    exact .first (Codegen.resolve_finds line)

/-- The code that is selected, wherever it is placed, performs the operation: it runs to its end, or to the
label that the operation goes to, with the pushed words on the stack, and the memory is the one after the
operation, up to registers that were free. -/
theorem select_performs (op : Operation) (valid : st.Valid) (usable : ∀ s ∈ op.operands, s.Usable st)
    (selected : op.select line ctx st = .done () code st') (hosts : M.Hosts st') (fixed : M.Fixed m)
    (through : ∀ s ∈ op.operands, s.isView = true → ¬ M.IsRegister (s.cell m)) :
    ∃ m', st.Frame (op.memory M.arithmetic m) m' ∧
      ∀ (pos dest : Nat) (stack : List Word) (returns : List Nat), M.Placed pos code →
        M.exit? (pos + code.length) (op.exit m) = some dest →
          M.Reaches pos (pos + code.length) ⟨pos, m, stack, returns⟩
            ⟨dest, m', op.pushed m ++ stack, returns⟩ := by
  -- nothing but free registers is in the way of any operand
  have clear (later : st.table.Grows st'.table) : ∀ s ∈ op.operands, M.Clear m s := by
    intro s listed
    have reached := op.select_finds listed ctx st _ _ _ selected
    exact reached.clear ⟨hosts.valid, later.trans hosts.grows⟩ (through s listed)
  cases op with
  | assign target source =>
    simp only [operands, List.forall_mem_cons] at usable clear
    obtain ⟨usableT, usableS, -⟩ := usable
    obtain ⟨takes, run⟩ := Codegen.assign_ends valid usableT usableS _ _ _ selected
    obtain ⟨clearT, clearS, -⟩ := clear takes.interns.grows
    obtain ⟨m', leads, frame⟩ := run hosts fixed clearT clearS
    exact ⟨m', frame, leads⟩
  | operate op left right =>
    simp only [operands, List.forall_mem_cons] at usable clear
    obtain ⟨usableL, usableR, -⟩ := usable
    obtain ⟨takes, run⟩ := Codegen.operate_ends valid usableL usableR _ _ _ selected
    obtain ⟨clearL, clearR, -⟩ := clear takes.interns.grows
    obtain ⟨m', leads, frame⟩ := run hosts fixed clearL clearR
    exact ⟨m', frame, leads⟩
  | update u target =>
    simp only [operands, List.forall_mem_cons] at usable clear
    obtain ⟨takes, run⟩ := Codegen.update_ends valid usable.1 _ _ _ selected
    have clear := (clear takes.interns.grows).1
    obtain ⟨m', leads, frame⟩ := run hosts fixed clear
    exact ⟨m', frame, leads⟩
  | compare relation left right label =>
    simp only [operands, List.forall_mem_cons, Option.mem_toList] at usable clear
    obtain ⟨usableL, usableR⟩ := usable
    obtain ⟨takes, run⟩ := Codegen.compare_ends valid usableL usableR _ _ _ selected
    obtain ⟨clearL, clearR⟩ := clear takes.interns.grows
    obtain ⟨m', leads, frame⟩ := run hosts fixed clearL clearR
    exact ⟨m', frame, leads⟩
  | push s =>
    simp only [operands, List.forall_mem_cons] at usable clear
    obtain ⟨takes, run⟩ := Codegen.push_ends valid usable.1 _ _ _ selected
    have clear := (clear takes.interns.grows).1
    obtain ⟨m', moves, frame⟩ := run hosts fixed clear
    refine ⟨m', frame, fun pos dest stack returns placed ends => ?_⟩
    obtain rfl := Option.some.inj ends
    exact moves pos stack returns placed

/-- The right operand `a[1]` is the cell that the left one, `a[x]`, is found to be: it is doubled. The
register that is in use is not touched. -/
theorem select_performs_aliased :
    let code : List Instr := [.load "r1" "a" (some "x"), .binary .add "r1" "a_1", .store "a" (some "x") "r1"]
    let M : Machine := ⟨Sample.arithmetic, Sample.table, code⟩
    ∃ m', M.Reaches 0 3 ⟨0, Sample.memory, [], []⟩ ⟨3, m', [], []⟩ ∧ m' 7 = 6 ∧ m' 0 = 5 := by
  intro code M
  let op : Operation := .operate .add (Sample.a.withOffset (.dynamic 3) .long)
    (Sample.a.withOffset (.fixed 1) .long)
  have selected : op.select 1 { settings := {}, functions := [] } (Sample.state 0 [Sample.r0]) =
      .done () code (Sample.state 0 [Sample.r0]) := by rfl
  have usable : ∀ s ∈ op.operands, s.Usable (Sample.state 0 [Sample.r0]) := by
    intro s listed
    rcases List.mem_pair.1 listed with rfl | rfl
    · refine .inr ⟨by decide, by decide, ?_⟩
      rintro _ ⟨⟩
      exact ⟨⟨Sample.x, by decide⟩, by decide⟩
    · refine .inr ⟨by decide, by decide, ?_⟩
      rintro _ ⟨⟩
  obtain ⟨m', frame, run⟩ := select_performs (M := M) (m := Sample.memory) op (by decide) usable
    selected ⟨by decide, .refl _⟩ (by decide) (by decide)
  refine ⟨m', run 0 3 [] [] ⟨rfl, by simp, rfl, by simp, rfl, by simp, trivial⟩ rfl, ?_, ?_⟩
  · exact (frame 7 (by decide)).trans (by rfl)
  · exact (frame 0 (by decide)).trans (by rfl)

end Operation

end ContractCompiler
