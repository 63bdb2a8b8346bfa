import ContractCompiler.Proofs.Machine
import Mathlib.Logic.Relation

/-!
# Proofs.Machine.Leads — what a piece of code does wherever it stands

A piece of code is placed in a program if its lines stand there in turn and each of its labels is
found where it stands. `Machine.Leads code exit m m'` says of code that is placed anywhere: it runs
from its first line to its end, or to the label `exit`, begins no line outside of itself on the way,
and takes the memory `m` to `m'`. The laws put such runs together: one after the other
(`Leads.append`), out of the code at a label (`Leads.leave`), and past a part of it to a label
(`Leads.over`).
-/

namespace ContractCompiler

set_option autoImplicit false

def Instr.labels (code : List Instr) : List String :=
  code.filterMap fun
    | .label l => some l
    | _ => none

namespace Instr

@[simp] theorem labels_nil : labels [] = [] := rfl

@[simp] theorem labels_append (code rest : List Instr) :
    labels (code ++ rest) = labels code ++ labels rest :=
  List.filterMap_append

end Instr

namespace Machine

variable (M : Machine)

/-! ## Runs -/

/-- One line, beginning at a position of the range. -/
def StepIn (low high : Nat) (c c' : Config) : Prop :=
  low ≤ c.pc ∧ c.pc < high ∧ M.step c = some c'

/-- Any number of lines, each beginning at a position of the range. -/
def Reaches (low high : Nat) : Config → Config → Prop := Relation.ReflTransGen (M.StepIn low high)

variable {M}

theorem Reaches.refl {low high : Nat} (c : Config) : M.Reaches low high c c :=
  Relation.ReflTransGen.refl

theorem Reaches.trans {low high : Nat} {a b c : Config} (first : M.Reaches low high a b)
    (second : M.Reaches low high b c) : M.Reaches low high a c :=
  Relation.ReflTransGen.trans first second

theorem Reaches.single {low high : Nat} {c c' : Config} (above : low ≤ c.pc) (below : c.pc < high)
    (step : M.step c = some c') : M.Reaches low high c c' :=
  Relation.ReflTransGen.single ⟨above, below, step⟩

theorem Reaches.widen {low high low' high' : Nat} {c c' : Config} (run : M.Reaches low high c c')
    (lower : low' ≤ low) (higher : high ≤ high') : M.Reaches low' high' c c' :=
  Relation.ReflTransGen.mono
    (fun _ _ ⟨above, below, step⟩ =>
      ⟨Nat.le_trans lower above, Nat.lt_of_lt_of_le below higher, step⟩) _ _ run

theorem Reaches.whole {low high : Nat} {c c' : Config} (run : M.Reaches low high c c') :
    M.Reaches 0 M.code.length c c' := by
  refine Relation.ReflTransGen.mono (fun c₁ c₂ step => ⟨Nat.zero_le _, ?_, step.2.2⟩) _ _ run
  obtain ⟨i, line, -⟩ := Option.bind_eq_some_iff.1 step.2.2
  exact (List.getElem?_eq_some_iff.1 line).1

/-! ## Placed code -/

variable (M) in
/-- The code stands at a position, and its labels are found where they stand. -/
def Placed : Nat → List Instr → Prop
  | _, [] => True
  | pos, i :: rest =>
    M.code[pos]? = some i ∧ (∀ l, i = .label l → M.position? l = some pos) ∧ Placed (pos + 1) rest

theorem placed_append {pos : Nat} {code rest : List Instr} :
    M.Placed pos (code ++ rest) ↔ M.Placed pos code ∧ M.Placed (pos + code.length) rest := by
  induction code generalizing pos with
  | nil => simp [Placed]
  | cons i code ih =>
    simp only [List.cons_append, Placed, ih, List.length_cons, and_assoc]
    rw [Nat.add_right_comm pos 1, Nat.add_assoc]

/-- A label is found where it is defined first. -/
theorem position?_of_first {before after : List Instr} {l : String}
    (whole : M.code = before ++ .label l :: after) (fresh : l ∉ Instr.labels before) :
    M.position? l = some before.length := by
  have none : before.findIdx? (· == .label l) = none := by
    refine List.findIdx?_eq_none_iff.2 fun i mem => ?_
    rw [beq_eq_false_iff_ne]
    rintro rfl
    exact fresh (List.mem_filterMap.2 ⟨_, mem, rfl⟩)
  rw [position?, whole, List.findIdx?_append, none]
  simp [List.findIdx?_cons]

/-- Code whose labels are new where it stands, and defined once, is placed there. -/
theorem placed_of_fresh {before code after : List Instr} (whole : M.code = before ++ (code ++ after))
    (nodup : (Instr.labels code).Nodup)
    (fresh : ∀ l ∈ Instr.labels code, l ∉ Instr.labels before) : M.Placed before.length code := by
  induction code generalizing before with
  | nil => trivial
  | cons i code ih =>
    have here : M.code[before.length]? = some i := by simp [whole]
    rw [← List.singleton_append, Instr.labels_append] at nodup fresh
    obtain ⟨-, nodupRest, apart⟩ := List.nodup_append.1 nodup
    refine ⟨here, ?_, ?_⟩
    · rintro l rfl
      exact position?_of_first whole (fresh l (List.mem_append_left _ (List.mem_cons_self ..)))
    · have rest : M.code = (before ++ [i]) ++ (code ++ after) := by simp [whole]
      have placed := ih rest nodupRest fun l mem listed => by
        rw [Instr.labels_append] at listed
        rcases List.mem_append.1 listed with old | new
        · exact fresh l (List.mem_append_right _ mem) old
        · exact apart l new l mem rfl
      simpa using placed

/-! ## What placed code does -/

variable (M) in
/-- Where code that ends at `next` goes on: there, or at a label. -/
def exit? (next : Nat) : Option String → Option Nat
  | none => some next
  | some label => M.position? label

variable (M) in
/-- The code, wherever it is placed, leads from its first line to its end or to the label `exit`, and
from one memory to another. -/
def Leads (code : List Instr) (exit : Option String) (m m' : Memory) : Prop :=
  ∀ (pos dest : Nat) (stack : List Word) (returns : List Nat), M.Placed pos code →
    M.exit? (pos + code.length) exit = some dest →
      M.Reaches pos (pos + code.length) ⟨pos, m, stack, returns⟩ ⟨dest, m', stack, returns⟩

theorem Leads.nil (m : Memory) : M.Leads [] none m m := by
  intro pos dest stack returns _ ends
  obtain rfl : pos = dest := by simpa [exit?] using ends
  exact .refl _

/-- One piece of code after another. -/
theorem Leads.append {code rest : List Instr} {exit : Option String} {a b c : Memory}
    (first : M.Leads code none a b) (second : M.Leads rest exit b c) :
    M.Leads (code ++ rest) exit a c := by
  intro pos dest stack returns placed ends
  obtain ⟨placedCode, placedRest⟩ := placed_append.1 placed
  rw [List.length_append, ← Nat.add_assoc] at ends ⊢
  exact .trans ((first pos _ stack returns placedCode rfl).widen (Nat.le_refl _) (by omega))
    ((second _ dest stack returns placedRest ends).widen (by omega) (Nat.le_refl _))

/-- Code that is left at a label does not run what follows it. -/
theorem Leads.leave {code : List Instr} {label : String} {a b : Memory}
    (run : M.Leads code (some label) a b) (rest : List Instr) :
    M.Leads (code ++ rest) (some label) a b := by
  intro pos dest stack returns placed ends
  rw [List.length_append, ← Nat.add_assoc]
  exact (run pos dest stack returns (placed_append.1 placed).1 ends).widen (Nat.le_refl _) (by omega)

/-- Code that is left at a label further on goes on there. -/
theorem Leads.over {code rest : List Instr} {label : String} {exit : Option String}
    {a b c : Memory} (first : M.Leads code (some label) a b) (skipped : List Instr)
    (second : M.Leads (.label label :: rest) exit b c) :
    M.Leads (code ++ (skipped ++ .label label :: rest)) exit a c := by
  intro pos dest stack returns placed ends
  obtain ⟨placedCode, placedSkipped⟩ := placed_append.1 placed
  obtain ⟨-, placedRest⟩ := placed_append.1 placedSkipped
  have found : M.position? label = some (pos + code.length + skipped.length) := placedRest.2.1 label rfl
  have sameEnd : pos + (code ++ (skipped ++ .label label :: rest)).length =
      pos + code.length + skipped.length + (Instr.label label :: rest).length := by
    simp only [List.length_append]
    omega
  rw [sameEnd] at ends ⊢
  exact .trans ((first pos _ stack returns placedCode found).widen (Nat.le_refl _) (by omega))
    ((second _ dest stack returns placedRest ends).widen (by omega) (Nat.le_refl _))

/-! ## Single lines -/

/-- A line that goes on to the next one. -/
theorem Leads.line {i : Instr} {m m' : Memory}
    (performs : ∀ pos stack returns,
      M.perform ⟨pos, m, stack, returns⟩ i = some ⟨pos + 1, m', stack, returns⟩) :
    M.Leads [i] none m m' := by
  intro pos dest stack returns placed ends
  obtain rfl : pos + 1 = dest := by simpa [exit?] using ends
  refine .single (Nat.le_refl _) (by simp) ?_
  simp [step, placed.1, performs]

/-- A line that jumps. -/
theorem Leads.jumps {i : Instr} {label : String} {m : Memory}
    (performs : ∀ pos stack returns, M.perform ⟨pos, m, stack, returns⟩ i =
      M.jumpIf ⟨pos, m, stack, returns⟩ true label) :
    M.Leads [i] (some label) m m := by
  intro pos dest stack returns placed ends
  have found : M.position? label = some dest := ends
  refine .single (Nat.le_refl _) (by simp) ?_
  simp [step, placed.1, performs, jumpIf, found]

/-- A line that jumps if a condition holds. -/
theorem Leads.branches {i : Instr} {label : String} {m : Memory} {condition : Bool}
    (performs : ∀ pos stack returns, M.perform ⟨pos, m, stack, returns⟩ i =
      M.jumpIf ⟨pos, m, stack, returns⟩ condition label) :
    M.Leads [i] (if condition then some label else none) m m := by
  cases condition with
  | true => exact .jumps performs
  | false => exact .line fun pos stack returns => by simp [performs, jumpIf, Config.next]

theorem Leads.label (l : String) (m : Memory) : M.Leads [.label l] none m m :=
  .line fun _ _ _ => rfl

theorem Leads.comment (text : String) (m : Memory) : M.Leads [.comment text] none m m :=
  .line fun _ _ _ => rfl

theorem Leads.resetStart (m : Memory) : M.Leads [.resetStart] none m m :=
  .line fun _ _ _ => rfl

theorem Leads.jump (l : String) (m : Memory) : M.Leads [.jump l] (some l) m m :=
  .jumps fun _ _ _ => rfl

/-! ## Two ways -/

section Ways

variable {test yes no : List Instr} {exit : Option String} {a b c : Memory}

/-- Code that is left where it is left, and else goes on to a label. -/
theorem Leads.upTo (run : M.Leads yes exit a b) (l : String) : M.Leads (yes ++ [.label l]) exit a b := by
  cases exit with
  | none => exact run.append (.label l b)
  | some out => exact run.leave _

/-- The first of two ways, which ends with a jump over the second. -/
theorem Leads.firstWay (first : M.Leads test none a b) (way : M.Leads yes exit b c)
    (other done : String) (no : List Instr) :
    M.Leads (test ++ (yes ++ .jump done :: .label other :: (no ++ [.label done]))) exit a c := by
  refine first.append ?_
  cases exit with
  | none => exact way.append ((Leads.jump done c).over (.label other :: no) (.label done c))
  | some out => exact way.leave _

/-- The second of two ways, which a jump leads to. -/
theorem Leads.secondWay {other : String} (first : M.Leads test (some other) a b)
    (way : M.Leads no exit b c) (done : String) (yes : List Instr) :
    M.Leads (test ++ (yes ++ .jump done :: .label other :: (no ++ [.label done]))) exit a c := by
  have jump := first.over (yes ++ [.jump done]) ((Leads.label other b).append (way.upTo done))
  simpa using jump

end Ways

section Operands

variable {d s b o : String} {dest src base off : Int} {m : Memory}

attribute [local simp] perform put get? Config.write

theorem Leads.setLiteral (known : M.cell? d = some dest) {hex : String} {w : Word}
    (value : Word.ofHex? hex = some w) : M.Leads [.setLiteral d hex] none m (m.set dest w) :=
  .line fun _ _ _ => by simp [known, value]

theorem Leads.set (known : M.cell? d = some dest) (source : M.cell? s = some src) :
    M.Leads [.set d s] none m (m.set dest (m src)) :=
  .line fun _ _ _ => by simp [known, source]

theorem Leads.clear (known : M.cell? d = some dest) :
    M.Leads [.clear d] none m (m.set dest 0) :=
  .line fun _ _ _ => by simp [known]

theorem Leads.increment (known : M.cell? d = some dest) :
    M.Leads [.increment d] none m (m.set dest (Step.up.apply (m dest))) :=
  .line fun _ _ _ => by simp [known]

theorem Leads.decrement (known : M.cell? d = some dest) :
    M.Leads [.decrement d] none m (m.set dest (Step.down.apply (m dest))) :=
  .line fun _ _ _ => by simp [known]

theorem Leads.complement (known : M.cell? d = some dest) :
    M.Leads [.complement d] none m (m.set dest (~~~ m dest)) :=
  .line fun _ _ _ => by simp [known]

theorem Leads.binary (op : BinaryOp) (known : M.cell? d = some dest)
    (source : M.cell? s = some src) :
    M.Leads [.binary op d s] none m (m.set dest (op.apply M.arithmetic (m dest) (m src))) :=
  .line fun _ _ _ => by simp [known, source]

/-- The distance that an indirect operand adds: none, or what a named cell holds. -/
def distance? (M : Machine) (m : Memory) : Option String → Option Word
  | none => some 0
  | some name => (M.cell? name).map m

theorem address?_eq {offset : Option String} {distance : Word} (known : M.cell? b = some base)
    (away : M.distance? m offset = some distance) (pos : Nat) (stack : List Word)
    (returns : List Nat) :
    M.address? ⟨pos, m, stack, returns⟩ b offset = some (Word.toSigned (m base + distance)) := by
  cases offset with
  | none =>
    obtain rfl : 0 = distance := by simpa [distance?] using away
    simp [address?, known]
  | some name =>
    obtain ⟨cell, found, rfl⟩ := Option.map_eq_some_iff.1 away
    simp [address?, known, found]

theorem Leads.load {offset : Option String} {distance : Word} (known : M.cell? d = some dest)
    (through : M.cell? b = some base) (away : M.distance? m offset = some distance) :
    M.Leads [.load d b offset] none m
      (m.set dest (m (Word.toSigned (m base + distance)))) :=
  .line fun pos stack returns => by
    simp [address?_eq through away, known]

theorem Leads.store {offset : Option String} {distance : Word} (source : M.cell? s = some src)
    (through : M.cell? b = some base) (away : M.distance? m offset = some distance) :
    M.Leads [.store b offset s] none m
      (m.set (Word.toSigned (m base + distance)) (m src)) :=
  .line fun pos stack returns => by
    simp [address?_eq through away, source]

theorem Leads.branchZero (known : M.cell? s = some src) (l : String) :
    M.Leads [.branchZero s l] (if m src == 0 then some l else none) m m :=
  .branches fun _ _ _ => by simp [known]

theorem Leads.branchNonzero (known : M.cell? s = some src) (l : String) :
    M.Leads [.branchNonzero s l] (if m src != 0 then some l else none) m m :=
  .branches fun _ _ _ => by simp [known]

theorem Leads.branch (relation : Relation) (left : M.cell? d = some dest)
    (right : M.cell? s = some src) (l : String) :
    M.Leads [.branch relation d s l] (if relation.holds (m dest) (m src) then some l else none)
      m m :=
  .branches fun _ _ _ => by simp [left, right]

end Operands

end Machine

end ContractCompiler
