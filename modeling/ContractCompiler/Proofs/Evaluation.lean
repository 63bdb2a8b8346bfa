import ContractCompiler.Proofs.Codegen.Made.Node
import ContractCompiler.Proofs.Codegen.Node
import ContractCompiler.Proofs.Denotation

/-!
# Proofs.Evaluation — code computes what expressions denote

The code of an expression runs from its first line to its end, leaves the word that the expression
denotes in the operand that it was compiled to, and changes neither variables nor registers in use
(`Node.eval_computes`). The code of a jump on it goes to the target of the jump if the truth is the one
asked for, and else to its own end (`Node.jump_follows`).
-/

namespace ContractCompiler

set_option autoImplicit false

open Codegen (State Context)

namespace Machine

variable (M : Machine)

instance (a : Int) : Decidable (M.IsRegister a) :=
  inferInstanceAs (Decidable (∃ s ∈ M.table.registers, s.address = a))

instance (a : Int) : Decidable (M.Open a) :=
  inferInstanceAs (Decidable (∀ s ∈ M.table.slots, s.address = a →
    s.kind ≠ .register ∧ s.kind ≠ .constant ∧ s.kind ≠ .array))

/-- No register is read through an address. -/
def mayRead (a : Int) : Bool := decide (¬ M.IsRegister a)

/-- Nothing of the machine's own is written through an address. -/
def mayWrite (a : Int) : Bool := decide (M.Open a)

/-- What an execution may do if it is to be run by the machine. -/
def environment : Environment := ⟨M.arithmetic, M.mayRead, M.mayWrite⟩

/-- The rules of a machine, for code that reuses assigned variables or does not. -/
def rules (reuse : Reuse) : Rules := ⟨M.environment, reuse⟩

theorem obeys_rules (reuse : Reuse) : M.Obeys (M.rules reuse) where
  arithmetic := rfl
  canRead _ allowed := of_decide_eq_true allowed
  canWrite _ allowed := of_decide_eq_true allowed

variable {M} {st : State} {t : SlotTable} {m : Memory}

/-- A memory with the constants and arrays of the machine knows all variables. -/
theorem Hosts.knows (hosts : M.Hosts st) (interns : t.Interns st.table) (fixed : M.Fixed m)
    (reuse : Reuse) : m.Knows (M.rules reuse) t where
  arrays s isVariable array := by
    obtain ⟨s', mem', kind, address, -, kept⟩ := hosts.slot_of_stored (isVariable.stored.mono interns)
    obtain ⟨hex, contents⟩ := Option.isSome_iff_exists.1 (isVariable.array array)
    rw [← address, fixed s' mem' (.inr (kind.trans array)), Slot.initial, Slot.initial, contents,
      kept hex contents]
  elements e mem long := by
    have stored : e.StoredIn st.table := .of_mem (interns.mem mem) (by simp [long])
    have isOpen := hosts.open_of_kind stored (.inl long)
    exact ⟨decide_eq_true isOpen.not_isRegister, decide_eq_true isOpen⟩

/-- Code that was made by an action stands in the machine after the lines `before`: its labels are new
there, and its names mean the slots of the machine's table. -/
structure Installed (M : Machine) (ctx : Context) (st' : State) (before code after : List Instr) :
    Prop where
  whole : M.code = before ++ (code ++ after)
  fresh : ∀ l ∈ Instr.labels code, l ∉ Instr.labels before
  distinct : LabelId.Distinct ctx.settings ctx.randomId st'.labels
  hosts : M.Hosts st'

theorem Installed.placed {ctx : Context} {st st' : State} {before code after : List Instr}
    (installed : M.Installed ctx st' before code after)
    (numbered : Numbered ctx.settings ctx.randomId st.labels code st'.labels) :
    M.Placed before.length code :=
  placed_of_fresh installed.whole (numbered.nodup installed.distinct) installed.fresh

end Machine

/-- The rule on reuse that settings stand for. -/
def Settings.reuse (settings : Settings) : Reuse := if settings.reuseAssignedVar then .always else .never

theorem Settings.reuse_ne_never (settings : Settings) :
    settings.reuseAssignedVar = (settings.reuse != .never) := by
  unfold reuse
  cases settings.reuseAssignedVar <;> rfl

/-! ## A machine at work

Three registers, the first of them in use, the variables `x` and `y` and an array `a` of two elements. -/

namespace Sample

/-- The operators on words without a sign. -/
def arithmetic : Arithmetic where
  div x y := x / y
  mod x y := x % y
  shl x y := x <<< y
  shr x y := x >>> y
  div_one _ := by simp

def cell (address : Int) (name : String) (kind : SlotKind) : Slot :=
  ⟨address, name, name, kind, Slot.globalScope, .long, 1, none, none⟩

def r0 : Slot := cell 0 "r0" .register

def r1 : Slot := cell 1 "r1" .register

def r2 : Slot := cell 2 "r2" .register

def x : Slot := cell 3 "x" .long

def y : Slot := cell 4 "y" .long

def a : Slot := { cell 5 "a" .array with size := 2, contents := some "0000000000000006" }

def table : SlotTable :=
  ⟨[r0, r1, r2, x, y, a, cell 6 "a_0" .long, cell 7 "a_1" .long], 8, []⟩

/-- The state with some registers in use and some labels made. -/
def state (labels : Nat) (held : List Slot) : State where
  table := table
  pool := ⟨[r0, r1, r2].map fun r => ⟨r, held.contains r⟩⟩
  labels := labels

/-- `x` is 1, `y` is 9, and the elements of `a` are 0 and 3. -/
def memory : Memory := fun address => [5, 0, 0, 1, 9, 6, 0, 3].getD address.toNat 0

def element : Node := .slot (a.withOffset (.dynamic 3) .long) 1

end Sample

namespace Node

variable {M : Machine} {n : Node} {ctx : Context} {st st' : State} {before code after : List Instr}
  {m : Memory} {w : Word}

/-- The code of an expression does what the expression means under the rules of the machine. -/
theorem code_simulates_rules {t : SlotTable} (M : Machine) (ctx : Context) (bound : n.Bound t) :
    n.code.Simulates M t ctx (n.means (M.rules ctx.settings.reuse)) :=
  code_simulates (M.obeys_rules _) ctx.settings.reuse_ne_never bound

/-- The code of an expression computes the word that the expression denotes. -/
theorem eval_computes {o : Operand} (isPure : n.isPure = true) (bound : n.Bound st.table)
    (valid : st.Valid) (done : n.eval ctx st = .done o code st')
    (installed : M.Installed ctx st' before code after) (fixed : M.Fixed m)
    (denotes : n.value? M.arithmetic M.mayRead m = some w) (stack : List Word) (returns : List Nat) :
    ∃ m', M.Reaches before.length (before.length + code.length)
        ⟨before.length, m, stack, returns⟩ ⟨before.length + code.length, m', stack, returns⟩ ∧
      o.slot.value m' = w ∧ (∀ a, ¬ M.IsRegister a → m' a = m a) ∧
      ∀ a, st.pool.Holds a → m' a = m a := by
  have obeys := M.obeys_rules ctx.settings.reuse
  have simulates := code_simulates_rules M ctx bound
  obtain ⟨takes, fits, run⟩ := simulates.value_none st valid (.refl _) o code st' done
  have hosts := installed.hosts
  have knows := hosts.knows takes.interns fixed ctx.settings.reuse
  obtain ⟨r, runs, value, -⟩ := (gives _ knows n isPure bound w denotes).value
  obtain ⟨m', leads, ready, keeps, rfl⟩ := run hosts ⟨fixed, fun _ _ => rfl⟩ runs
  have placed := installed.placed (n.eval_tame ctx st valid o code st' done).numbered
  have usable := fits.usable fun _ mem => takes.holds_mem mem
  obtain ⟨isValue, -⟩ := Machine.value_of_ref hosts takes.valid ready obeys usable value
  exact ⟨m', leads _ _ stack returns placed rfl, isValue, ready.agrees, keeps⟩

/-- `x && a[x] < y ? y - x : 7` is 8, by code that leaves the register in use alone. -/
theorem eval_computes_ternary :
    let code : List Instr :=
      [.branchZero "x" "__TER1_else", .load "r1" "a" (some "x"), .branch .ge "r1" "y" "__TER1_else",
        .set "r2" "y", .binary .sub "r2" "x", .set "r1" "r2", .jump "__TER1_end",
        .label "__TER1_else", .setLiteral "r1" "0000000000000007", .label "__TER1_end"]
    let M : Machine := ⟨Sample.arithmetic, Sample.table, code⟩
    ∃ m', M.Reaches 0 10 ⟨0, Sample.memory, [], []⟩ ⟨10, m', [], []⟩ ∧
      Sample.r1.value m' = 8 ∧ (∀ a, ¬ M.IsRegister a → m' a = Sample.memory a) ∧
      ∀ a, (Sample.state 0 [Sample.r0]).pool.Holds a → m' a = Sample.memory a := by
  intro code M
  let n : Node := .ternary
    (.logic .and (.slot Sample.x 1) (.compare .lt Sample.element (.slot Sample.y 1) 1) 1)
    (.binary .sub (.slot Sample.y 1) (.slot Sample.x 1) 1) (.literal 7 1) 1
  have done : n.eval { settings := {}, functions := [] } (Sample.state 0 [Sample.r0]) =
      .done (.ofRegister Sample.r1) code (Sample.state 1 [Sample.r0, Sample.r1]) := by rfl
  have installed : M.Installed { settings := {}, functions := [] }
      (Sample.state 1 [Sample.r0, Sample.r1]) [] code [] :=
    ⟨rfl, by simp [Instr.labels], nofun, by decide, .refl _⟩
  exact eval_computes (n := n) (M := M) rfl (by decide) (by decide) done installed (by decide) (by rfl)
    [] []

/-- The code of a jump on an expression goes to the target if the truth of the expression is the one
asked for, and else to its end. -/
theorem jump_follows {label : String} {when : Bool} (isPure : n.isPure = true)
    (bound : n.Bound st.table) (valid : st.Valid)
    (done : n.code.jump label when ctx st = .done () code st')
    (installed : M.Installed ctx st' before code after) (fixed : M.Fixed m)
    (denotes : n.value? M.arithmetic M.mayRead m = some w) (stack : List Word) (returns : List Nat)
    {dest : Nat} (goal : (if (w != 0) = when then M.position? label
      else some (before.length + code.length)) = some dest) :
    ∃ m', M.Reaches before.length (before.length + code.length)
        ⟨before.length, m, stack, returns⟩ ⟨dest, m', stack, returns⟩ ∧
      (∀ a, ¬ M.IsRegister a → m' a = m a) ∧ ∀ a, st.pool.Holds a → m' a = m a := by
  have simulates := code_simulates_rules M ctx bound
  obtain ⟨takes, run⟩ := simulates.jump label when st valid (.refl _) () code st' done
  have hosts := installed.hosts
  have knows := hosts.knows takes.interns fixed ctx.settings.reuse
  have truth : (n.means (M.rules ctx.settings.reuse)).Gives (M.rules ctx.settings.reuse) m w :=
    gives _ knows n isPure bound w denotes
  obtain ⟨m', leads, ready, keeps⟩ := run hosts ⟨fixed, fun _ _ => rfl⟩ truth.test
  have placed := installed.placed (n.code_tame.jump label when ctx st valid () code st' done).numbered
  refine ⟨m', leads _ dest stack returns placed ?_, ready.agrees, keeps⟩
  rw [← goal]
  by_cases taken : (w != 0) = when <;> simp [taken, Machine.exit?]

/-- `a[x] < y || !(x && y)` holds, so that a jump for when it does not is passed by. -/
theorem jump_follows_disjunction :
    let code : List Instr :=
      [.load "r1" "a" (some "x"), .branch .lt "r1" "y" "__OR1_next", .branchZero "x" "__AND2_next",
        .branchNonzero "y" "out", .label "__AND2_next", .label "__OR1_next"]
    let M : Machine := ⟨Sample.arithmetic, Sample.table, code ++ [.label "out"]⟩
    ∃ m', M.Reaches 0 6 ⟨0, Sample.memory, [], []⟩ ⟨6, m', [], []⟩ ∧
      (∀ a, ¬ M.IsRegister a → m' a = Sample.memory a) ∧
      ∀ a, (Sample.state 0 [Sample.r0]).pool.Holds a → m' a = Sample.memory a := by
  intro code M
  let n : Node := .logic .or (.compare .lt Sample.element (.slot Sample.y 1) 1)
    (.unary .not (.logic .and (.slot Sample.x 1) (.slot Sample.y 1) 1) 1) 1
  have done : n.code.jump "out" false { settings := {}, functions := [] }
      (Sample.state 0 [Sample.r0]) = .done () code (Sample.state 2 [Sample.r0]) := by rfl
  have installed : M.Installed { settings := {}, functions := [] } (Sample.state 2 [Sample.r0]) []
      code [.label "out"] :=
    ⟨rfl, by simp [Instr.labels], nofun, by decide, .refl _⟩
  exact jump_follows (n := n) (M := M) (w := 1) rfl (by decide) (by decide) done installed
    (by decide) (by rfl) [] [] (by rfl)

end Node

end ContractCompiler
