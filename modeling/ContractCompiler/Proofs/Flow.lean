import ContractCompiler.Proofs.Machine.Leads
import Mathlib.Algebra.Ring.Int.Defs

/-!
# Proofs.Flow — the ways through code

A `Path` lists the lines that are run from one position to another. It knows of a line only where it
can go on: to the next line, to the label that it jumps to, or nowhere. A call counts as a line that
comes back. So what holds on every path holds of every run (`Machine.step_next`), whatever the memory
is.

The second part is about the height of the stack. Written down line by line, code has a height before
each of its lines; `Level` says that these heights fit together: a jump finds its label at the height
that it is made at, no line takes more from the stack than there is, and every return is made at one
height. `Level` is checked on the text, from pieces of it (`Level.append`), and then holds on every path
(`Level.along`).
-/

namespace ContractCompiler

set_option autoImplicit false

namespace Instr

/-- The label that the line may jump to. -/
def target? : Instr → Option String
  | branchZero _ target => some target
  | branchNonzero _ target => some target
  | branch _ _ _ target => some target
  | jump target => some target
  | _ => none

/-- The line goes back to the caller or ends the activation. -/
def stops : Instr → Bool
  | ret | finish | stop => true
  | _ => false

/-- The next line can come next. -/
def fallsThrough : Instr → Bool
  | jump _ | ret | finish | stop => false
  | _ => true

/-- The line always goes on to the next one, and leaves the stack alone. -/
def isPlain : Instr → Bool
  | branchZero _ _ | branchNonzero _ _ | branch _ _ _ _ | jump _ => false
  | call _ | ret | push _ | pop _ | finish | stop => false
  | _ => true

theorem IsPlain.target?_eq_none {i : Instr} (plain : i.isPlain = true) : i.target? = none := by
  cases i <;> first | rfl | cases plain

theorem IsPlain.stops_eq_false {i : Instr} (plain : i.isPlain = true) : i.stops = false := by
  cases i <;> first | rfl | cases plain

theorem mem_labels {code : List Instr} {l : String} : l ∈ labels code ↔ .label l ∈ code := by
  constructor
  · intro mem
    obtain ⟨i, listed, isLabel⟩ := List.mem_filterMap.1 mem
    cases i with
    | label name =>
      obtain rfl := Option.some.inj isLabel
      exact listed
    | _ => cases isLabel
  · intro mem
    exact List.mem_filterMap.2 ⟨_, mem, rfl⟩

/-- A label that is defined once is found where it stands. -/
theorem findIdx?_label {code : List Instr} {p : Nat} {l : String} (nodup : (labels code).Nodup)
    (here : code[p]? = some (.label l)) : code.findIdx? (· == .label l) = some p := by
  induction code generalizing p with
  | nil => simp at here
  | cons i code ih =>
    cases p with
    | zero =>
      obtain rfl : i = .label l := by simpa using here
      simp [List.findIdx?_cons]
    | succ p =>
      have later : code[p]? = some (.label l) := by simpa using here
      have notFirst : i ≠ .label l := by
        rintro rfl
        have twice : l :: labels code = labels (.label l :: code) := rfl
        rw [← twice, List.nodup_cons] at nodup
        exact nodup.1 (mem_labels.2 (List.mem_of_getElem? later))
      have nodupRest : (labels code).Nodup := by
        rw [← List.singleton_append, labels_append] at nodup
        exact (List.nodup_append.1 nodup).2.1
      simp [List.findIdx?_cons, notFirst, ih nodupRest later]

end Instr

/-! ## Paths -/

/-- The line at `p` can be followed by the one at `q`. -/
inductive Next (code : List Instr) (p : Nat) : Nat → Prop
  | on {i : Instr} (line : code[p]? = some i) (falls : i.fallsThrough = true) : Next code p (p + 1)
  | jump {i : Instr} {l : String} {q : Nat} (line : code[p]? = some i) (target : i.target? = some l)
      (position : code.findIdx? (· == .label l) = some q) : Next code p q

/-- The lines at the positions `visited` are run in turn, from `p` on until `q` is reached. -/
inductive Path (code : List Instr) : Nat → List Nat → Nat → Prop
  | here (p : Nat) : Path code p [] p
  | step {p q r : Nat} {visited : List Nat} (next : Next code p q) (rest : Path code q visited r) :
      Path code p (p :: visited) r

/-- Control does not go on inside of the code at `p`: the code is at its end, or the line stops or
jumps out of it. -/
def LeavesAt (code : List Instr) (p : Nat) : Prop :=
  ∀ i, code[p]? = some i → i.stops = true ∨ ∃ l, i.target? = some l ∧ l ∉ Instr.labels code

namespace Next

variable {code : List Instr} {p q : Nat}

theorem lt_length (next : Next code p q) : p < code.length := by
  cases next with
  | on line _ | jump line _ _ => exact (List.getElem?_eq_some_iff.1 line).1

theorem le_length (next : Next code p q) : q ≤ code.length := by
  cases next with
  | on line _ => exact (List.getElem?_eq_some_iff.1 line).1
  | jump _ _ position => exact Nat.le_of_lt (List.findIdx?_eq_some_iff_getElem.1 position).1

/-- A jump goes to where its label stands. -/
theorem jump_eq {l : String} (nodup : (Instr.labels code).Nodup)
    (label : code[q]? = some (.label l)) {q' : Nat}
    (position : code.findIdx? (· == .label l) = some q') : q' = q := by
  rw [Instr.findIdx?_label nodup label] at position
  exact (Option.some.inj position).symm

end Next

/-! ## Heights -/

section Heights

/-- What a call of each label takes from the stack and what it leaves there. -/
abbrev Calls := String → Nat × Nat

variable (calls : Calls) (result : Int)

namespace Instr

def takes : Instr → Int
  | pop _ => 1
  | call l => (calls l).1
  | _ => 0

def gives : Instr → Int
  | push _ => 1
  | call l => (calls l).2
  | _ => 0

/-- What the line adds to the height of the stack. -/
def growth (i : Instr) : Int := i.gives calls - i.takes calls

/-- What the line adds to the height at which the text goes on. A return is made with the result on the
stack, and the text behind it goes on as if it was not there. -/
def shift : Instr → Int
  | ret => -result
  | i => i.growth calls

theorem shift_of_not_ret {i : Instr} (notRet : i ≠ .ret) : i.shift calls result = i.growth calls := by
  cases i <;> first | rfl | exact absurd rfl notRet

theorem shift_of_target {i : Instr} {l : String} (target : i.target? = some l) :
    i.shift calls result = 0 ∧ i.growth calls = 0 ∧ i.takes calls = 0 := by
  cases i <;> first | exact ⟨rfl, rfl, rfl⟩ | cases target

theorem shift_of_plain {i : Instr} (plain : i.isPlain = true) :
    i.shift calls result = 0 ∧ i.takes calls = 0 := by
  cases i <;> first | exact ⟨rfl, rfl⟩ | cases plain

end Instr

/-- The lines of code that begins at the height `h`, each with the height before it. -/
def leveled (h : Int) : List Instr → List (Instr × Int)
  | [] => []
  | i :: rest => (i, h) :: leveled (h + i.shift calls result) rest

/-- What code adds to the height at which the text goes on. -/
def net (code : List Instr) : Int := (code.map (·.shift calls result)).sum

/-- The height before the line at a position. -/
def heightAt (h : Int) (code : List Instr) (p : Nat) : Int := h + net calls result (code.take p)

/-- What the lines at some positions add to the height of the stack. -/
def gain (code : List Instr) (visited : List Nat) : Int :=
  (visited.map fun k => ((code[k]?).map (·.growth calls)).getD 0).sum

variable {calls result}

@[simp] theorem net_nil : net calls result [] = 0 := rfl

@[simp] theorem net_cons (i : Instr) (code : List Instr) :
    net calls result (i :: code) = i.shift calls result + net calls result code := rfl

@[simp] theorem net_append (code rest : List Instr) :
    net calls result (code ++ rest) = net calls result code + net calls result rest := by
  simp [net]

theorem leveled_append (h : Int) (code rest : List Instr) :
    leveled calls result h (code ++ rest) =
      leveled calls result h code ++ leveled calls result (h + net calls result code) rest := by
  induction code generalizing h with
  | nil => simp [leveled]
  | cons i code ih => simp [leveled, ih, Int.add_assoc]

theorem getElem?_leveled (h : Int) (code : List Instr) (p : Nat) :
    (leveled calls result h code)[p]? = (code[p]?).map (·, heightAt calls result h code p) := by
  induction code generalizing h p with
  | nil => simp [leveled]
  | cons i code ih =>
    cases p with
    | zero => simp [leveled, heightAt]
    | succ p => simp [leveled, ih, heightAt, Int.add_assoc]

theorem mem_leveled {h : Int} {code : List Instr} {p : Nat} {i : Instr} (line : code[p]? = some i) :
    (i, heightAt calls result h code p) ∈ leveled calls result h code := by
  refine List.mem_of_getElem? (i := p) ?_
  rw [getElem?_leveled, line]
  rfl

theorem exists_of_mem_leveled {h x : Int} {code : List Instr} {i : Instr}
    (mem : (i, x) ∈ leveled calls result h code) :
    ∃ p, code[p]? = some i ∧ heightAt calls result h code p = x := by
  obtain ⟨p, found⟩ := List.getElem?_of_mem mem
  rw [getElem?_leveled, Option.map_eq_some_iff] at found
  obtain ⟨_, line, same⟩ := found
  obtain ⟨rfl, rfl⟩ := Prod.mk.inj same
  exact ⟨p, line, rfl⟩

theorem heightAt_succ {h : Int} {code : List Instr} {p : Nat} {i : Instr} (line : code[p]? = some i) :
    heightAt calls result h code (p + 1) = heightAt calls result h code p + i.shift calls result := by
  rw [heightAt, heightAt, List.take_add_one, line]
  simp [Int.add_assoc]

theorem leveled_of_plain {code : List Instr} (plain : ∀ i ∈ code, i.isPlain = true) (h : Int) :
    leveled calls result h code = code.map (·, h) ∧ net calls result code = 0 := by
  induction code with
  | nil => exact ⟨rfl, rfl⟩
  | cons i code ih =>
    obtain ⟨first, rest⟩ := List.forall_mem_cons.1 plain
    have unshifted := (i.shift_of_plain calls result first).1
    simp [leveled, unshifted, ih rest]

/-! ## Level code -/

variable (calls result) in
/-- The heights of code that begins at the height `h` and ends at `h'` fit together. The code may jump
to the labels of `exit` at the heights that these are met at. -/
structure Level (exit : String → Int → Prop) (h : Int) (code : List Instr) (h' : Int) : Prop where
  ends : h + net calls result code = h'
  takes : ∀ i x, (i, x) ∈ leveled calls result h code → i.takes calls ≤ x
  jumps : ∀ i x l, (i, x) ∈ leveled calls result h code → i.target? = some l →
    (.label l, x) ∈ leveled calls result h code ∨ exit l x
  returns : ∀ x, (.ret, x) ∈ leveled calls result h code → x = result

def noExit : String → Int → Prop := fun _ _ => False

namespace Level

variable {exit exit' : String → Int → Prop} {h h' h'' : Int} {code rest : List Instr}

theorem nil (exit : String → Int → Prop) (h : Int) : Level calls result exit h [] h := by
  constructor <;> simp [leveled]

theorem append (first : Level calls result exit h code h')
    (second : Level calls result exit h' rest h'') :
    Level calls result exit h (code ++ rest) h'' := by
  have split : leveled calls result h (code ++ rest) =
      leveled calls result h code ++ leveled calls result h' rest := by
    rw [leveled_append, first.ends]
  refine ⟨?_, ?_, ?_, ?_⟩
  · rw [net_append, ← Int.add_assoc, first.ends, second.ends]
  · intro i x mem
    rw [split, List.mem_append] at mem
    exact mem.elim (first.takes i x) (second.takes i x)
  · intro i x l mem target
    rw [split, List.mem_append] at mem ⊢
    rcases mem with mem | mem
    · exact (first.jumps i x l mem target).imp_left .inl
    · exact (second.jumps i x l mem target).imp_left .inr
  · intro x mem
    rw [split, List.mem_append] at mem
    exact mem.elim (first.returns x) (second.returns x)

/-- Some of the labels that may be jumped to are in the code, and others may still be jumped to. -/
theorem close (level : Level calls result exit' h code h')
    (found : ∀ l x, exit' l x → (.label l, x) ∈ leveled calls result h code ∨ exit l x) :
    Level calls result exit h code h' where
  ends := level.ends
  takes := level.takes
  jumps i x l mem target := (level.jumps i x l mem target).elim .inl (found l x)
  returns := level.returns

theorem widen (level : Level calls result exit' h code h') (wider : ∀ l x, exit' l x → exit l x) :
    Level calls result exit h code h' :=
  level.close fun l x may => .inr (wider l x may)

theorem ofNoExit (level : Level calls result noExit h code h') :
    Level calls result exit h code h' := level.widen fun _ _ => False.elim

/-- One line that jumps nowhere and does not return. -/
theorem single {i : Instr} (target : i.target? = none) (notRet : i ≠ .ret)
    (enough : i.takes calls ≤ h) : Level calls result exit h [i] (h + i.growth calls) where
  ends := by simp [Instr.shift_of_not_ret calls result notRet]
  takes := by
    rintro _ _ mem
    obtain ⟨rfl, rfl⟩ : _ ∧ _ := by simpa [leveled] using mem
    exact enough
  jumps := by
    rintro _ _ l mem jumps
    obtain ⟨rfl, rfl⟩ : _ ∧ _ := by simpa [leveled] using mem
    rw [target] at jumps
    cases jumps
  returns := by
    intro x mem
    obtain ⟨rfl, rfl⟩ : .ret = i ∧ x = h := by simpa [leveled] using mem
    exact absurd rfl notRet

/-- One line that may jump. -/
theorem jump {i : Instr} {l : String} (target : i.target? = some l) (above : 0 ≤ h) (may : exit l h) :
    Level calls result exit h [i] h := by
  obtain ⟨unshifted, -, none⟩ := i.shift_of_target calls result target
  refine ⟨by simp [unshifted], ?_, ?_, ?_⟩
  · rintro _ _ mem
    obtain ⟨rfl, rfl⟩ : _ ∧ _ := by simpa [leveled] using mem
    rwa [none]
  · rintro _ _ l' mem target'
    obtain ⟨rfl, rfl⟩ : _ ∧ _ := by simpa [leveled] using mem
    obtain rfl : l = l' := Option.some.inj (target.symm.trans target')
    exact .inr may
  · intro x mem
    obtain ⟨rfl, rfl⟩ : .ret = i ∧ x = h := by simpa [leveled] using mem
    cases target

/-- A return with the result on the stack. -/
theorem ret (above : 0 ≤ result) : Level calls result exit result [.ret] 0 := by
  refine ⟨?_, ?_, ?_, ?_⟩
  · show result + (-result + 0) = 0
    omega
  · rintro _ _ mem
    obtain ⟨rfl, rfl⟩ : _ ∧ _ := by simpa [leveled] using mem
    exact above
  · rintro _ _ l mem target
    obtain ⟨rfl, rfl⟩ : _ ∧ _ := by simpa [leveled] using mem
    cases target
  · intro x mem
    simpa [leveled] using mem

theorem of_plain (plain : ∀ i ∈ code, i.isPlain = true) (above : 0 ≤ h) :
    Level calls result exit h code h := by
  obtain ⟨lines, flat⟩ : leveled calls result h code = code.map (·, h) ∧ net calls result code = 0 :=
    leveled_of_plain plain h
  have isPlain : ∀ i x, (i, x) ∈ leveled calls result h code → i.isPlain = true ∧ x = h := by
    intro i x mem
    rw [lines] at mem
    obtain ⟨j, listed, same⟩ := List.mem_map.1 mem
    obtain ⟨rfl, rfl⟩ := Prod.mk.inj same
    exact ⟨plain _ listed, rfl⟩
  refine ⟨by simp [flat], ?_, ?_, ?_⟩
  · intro i x mem
    obtain ⟨plain, rfl⟩ := isPlain i x mem
    rwa [(i.shift_of_plain calls result plain).2]
  · intro i x l mem target
    rw [Instr.IsPlain.target?_eq_none (isPlain i x mem).1] at target
    cases target
  · intro x mem
    cases (isPlain _ x mem).1

theorem push (name : String) (above : 0 ≤ h) : Level calls result exit h [.push name] (h + 1) :=
  single rfl (by simp) above

theorem pop (name : String) (above : 0 ≤ h) : Level calls result exit (h + 1) [.pop name] h := by
  have level : Level calls result exit (h + 1) [.pop name] (h + 1 + (0 - 1)) :=
    single rfl (by simp) (show 1 ≤ h + 1 by omega)
  rwa [show h + 1 + (0 - 1) = h by omega] at level

theorem pushes (names : List String) (above : 0 ≤ h) :
    Level calls result exit h (names.map .push) (h + names.length) := by
  induction names generalizing h with
  | nil => simpa using nil exit h
  | cons name names ih =>
    have first : Level calls result exit h [.push name] (h + 1) := push name above
    have level := first.append (ih (h := h + 1) (by omega))
    rw [show h + 1 + (names.length : Int) = h + ((name :: names).length : Int) by
      simp; omega] at level
    exact level

theorem pops (names : List String) (above : 0 ≤ h) :
    Level calls result exit (h + names.length) (names.map .pop) h := by
  induction names with
  | nil => simpa using nil exit h
  | cons name names ih =>
    have first : Level calls result exit (h + names.length + 1) [.pop name] (h + names.length) :=
      pop name (by omega)
    have level := first.append ih
    rw [show h + (names.length : Int) + 1 = h + ((name :: names).length : Int) by
      simp; omega] at level
    exact level

/-! ## Heights along paths -/

end Level

/-- Every jump finds its label in the code at the height that it is made at. -/
def Jumps (calls : Calls) (result h : Int) (code : List Instr) : Prop :=
  ∀ i x l, (i, x) ∈ leveled calls result h code → i.target? = some l →
    (.label l, x) ∈ leveled calls result h code

section Along

variable {h h' : Int} {code : List Instr} {p q : Nat} {visited : List Nat} {i : Instr}

/-- From one line to the next, the height changes by what the line does to the stack. -/
theorem Jumps.next (jumps : Jumps calls result h code) (nodup : (Instr.labels code).Nodup)
    (next : Next code p q) :
    heightAt calls result h code q = heightAt calls result h code p + gain calls code [p] := by
  cases next with
  | @on i line falls =>
    have notRet : i ≠ .ret := by
      rintro rfl
      cases falls
    rw [heightAt_succ line, Instr.shift_of_not_ret calls result notRet]
    simp [gain, line]
  | @jump i l _ line target position =>
    obtain ⟨-, flat, -⟩ := i.shift_of_target calls result target
    obtain ⟨q', label, same⟩ := exists_of_mem_leveled (jumps i _ l (mem_leveled line) target)
    obtain rfl := Next.jump_eq nodup label position
    rw [same]
    simp [gain, line, flat]

theorem Jumps.path (jumps : Jumps calls result h code) (nodup : (Instr.labels code).Nodup)
    (path : Path code p visited q) :
    heightAt calls result h code q = heightAt calls result h code p + gain calls code visited := by
  induction path with
  | here p => simp [gain]
  | step next _ ih =>
    rw [ih, jumps.next nodup next, Int.add_assoc]
    simp [gain]

theorem Level.jumps_inside (level : Level calls result noExit h code h') :
    Jumps calls result h code :=
  fun i x l mem target => (level.jumps i x l mem target).elim id False.elim

theorem Jumps.height (jumps : Jumps calls result h code) (nodup : (Instr.labels code).Nodup)
    (path : Path code 0 visited q) :
    heightAt calls result h code q = h + gain calls code visited := by
  rw [jumps.path nodup path]
  simp [heightAt]

theorem Level.at_line (level : Level calls result noExit h code h')
    (line : code[q]? = some i) :
    i.takes calls ≤ heightAt calls result h code q ∧
      (i = .ret → heightAt calls result h code q = result) := by
  refine ⟨level.takes _ _ (mem_leveled line), ?_⟩
  rintro rfl
  exact level.returns _ (mem_leveled line)

/-- On every path from the first line, the height is the one that the text gives: each line finds what
it takes from the stack, and a return is made with the result on it. -/
theorem Level.along (level : Level calls result noExit h code h') (nodup : (Instr.labels code).Nodup)
    (path : Path code 0 visited q) (line : code[q]? = some i) :
    i.takes calls ≤ h + gain calls code visited ∧
      (i = .ret → h + gain calls code visited = result) := by
  rw [← level.jumps_inside.height nodup path]
  exact level.at_line line

/-- Where the end of the code is followed by a return, that is made at the height of the end. -/
theorem Level.along_ret (level : Level calls result noExit h code h') (above : 0 ≤ h')
    (nodup : (Instr.labels code).Nodup)
    (path : Path (code ++ [.ret]) 0 visited q) (line : (code ++ [.ret])[q]? = some i) :
    i.takes calls ≤ h + gain calls (code ++ [.ret]) visited ∧
      (i = .ret → h + gain calls (code ++ [.ret]) visited = if q < code.length then result else h') := by
  have jumps : Jumps calls result h (code ++ [.ret]) := by
    intro i x l mem target
    rw [leveled_append, List.mem_append] at mem ⊢
    rcases mem with mem | mem
    · exact .inl (level.jumps_inside i x l mem target)
    · obtain ⟨rfl, -⟩ : i = .ret ∧ _ := by simpa [leveled] using mem
      cases target
  rw [← jumps.height (by simpa [Instr.labels] using nodup) path]
  by_cases inside : q < code.length
  · rw [List.getElem?_append_left inside] at line
    have same : heightAt calls result h (code ++ [.ret]) q = heightAt calls result h code q := by
      rw [heightAt, heightAt, List.take_append_of_le_length (Nat.le_of_lt inside)]
    rw [same, if_pos inside]
    exact level.at_line line
  · have last : q = code.length := by
      have := (List.getElem?_eq_some_iff.1 line).1
      simp at this
      omega
    subst last
    obtain rfl : .ret = i := by simpa using line
    have ends : heightAt calls result h (code ++ [.ret]) code.length = h' := by
      rw [heightAt, List.take_left, level.ends]
    rw [ends, if_neg inside]
    exact ⟨above, fun _ => rfl⟩

end Along

end Heights

/-! ## Runs -/

namespace Machine

variable {M : Machine} {c c' : Config}

theorem perform_plain {i : Instr} (plain : i.isPlain = true) (step : M.perform c i = some c') :
    c'.pc = c.pc + 1 ∧ c'.stack = c.stack := by
  have put : ∀ dest w, M.put c dest w = some c' → c'.pc = c.pc + 1 ∧ c'.stack = c.stack := by
    intro dest w written
    obtain ⟨a, -, rfl⟩ := Option.map_eq_some_iff.1 written
    exact ⟨rfl, rfl⟩
  cases i with
  | clear dest => exact put _ _ step
  | set _ _ | setLiteral _ _ | increment _ | decrement _ | complement _ | load _ _ _ =>
    obtain ⟨w, -, step⟩ := Option.bind_eq_some_iff.1 step
    exact put _ _ step
  | binary _ _ _ =>
    obtain ⟨w, -, step⟩ := Option.bind_eq_some_iff.1 step
    obtain ⟨w', -, step⟩ := Option.bind_eq_some_iff.1 step
    exact put _ _ step
  | store _ _ _ =>
    obtain ⟨a, -, step⟩ := Option.bind_eq_some_iff.1 step
    obtain ⟨w, -, step⟩ := Option.bind_eq_some_iff.1 step
    obtain rfl := Option.some.inj step
    exact ⟨rfl, rfl⟩
  | sleep _ =>
    obtain ⟨w, -, rfl⟩ := Option.map_eq_some_iff.1 step
    exact ⟨rfl, rfl⟩
  | program _ _ | declare _ | constSet _ _ | comment _ | label _ | resetStart =>
    obtain rfl := Option.some.inj step
    exact ⟨rfl, rfl⟩
  | host _ _ _ => cases step
  | _ => cases plain

theorem jumpIf_eq_some {condition : Bool} {target : String}
    (step : M.jumpIf c condition target = some c') :
    c'.stack = c.stack ∧
      (condition = false ∧ c'.pc = c.pc + 1 ∨ M.position? target = some c'.pc) := by
  unfold jumpIf at step
  split at step
  · obtain ⟨pc, found, rfl⟩ := Option.map_eq_some_iff.1 step
    exact ⟨rfl, .inr found⟩
  · rename_i falls
    obtain rfl := Option.some.inj step
    exact ⟨rfl, .inl ⟨by simpa using falls, rfl⟩⟩

/-- What the machine does in one line is a step of a path, and the stack grows as the line says. Calls
and returns go to another part of the code. -/
theorem step_next {i : Instr} (calls : Calls) (line : M.code[c.pc]? = some i)
    (step : M.step c = some c') (notCall : ∀ l, i ≠ .call l) (notRet : i ≠ .ret) :
    Next M.code c.pc c'.pc ∧ (c'.stack.length : Int) = c.stack.length + i.growth calls := by
  replace step : M.perform c i = some c' := by simpa [Machine.step, line] using step
  have branched : ∀ condition target, i.target? = some target →
      (condition = false → i.fallsThrough = true) → M.jumpIf c condition target = some c' →
      Next M.code c.pc c'.pc ∧ (c'.stack.length : Int) = c.stack.length + i.growth calls := by
    intro condition target isTarget falls step
    obtain ⟨sameStack, goes⟩ := jumpIf_eq_some step
    have flat := (i.shift_of_target calls 0 isTarget).2.1
    refine ⟨?_, by simp [sameStack, flat]⟩
    rcases goes with ⟨isFalse, on⟩ | found
    · rw [on]
      exact .on line (falls isFalse)
    · exact .jump line isTarget found
  by_cases plain : i.isPlain = true
  · obtain ⟨on, sameStack⟩ := perform_plain plain step
    have flat : i.growth calls = 0 := by
      rw [← i.shift_of_not_ret calls 0 notRet, (i.shift_of_plain calls 0 plain).1]
    have falls : i.fallsThrough = true := by
      cases i <;> first | rfl | cases plain
    rw [on, sameStack, flat]
    exact ⟨.on line falls, by simp⟩
  cases i with
  | branchZero _ _ | branchNonzero _ _ =>
    obtain ⟨w, -, step⟩ := Option.bind_eq_some_iff.1 step
    exact branched _ _ rfl (fun _ => rfl) step
  | branch _ _ _ _ =>
    obtain ⟨w, -, step⟩ := Option.bind_eq_some_iff.1 step
    obtain ⟨w', -, step⟩ := Option.bind_eq_some_iff.1 step
    exact branched _ _ rfl (fun _ => rfl) step
  | jump _ => exact branched true _ rfl (fun never => by cases never) step
  | push _ =>
    obtain ⟨w, -, step⟩ := Option.bind_eq_some_iff.1 step
    obtain rfl := Option.some.inj step
    exact ⟨.on line rfl, rfl⟩
  | pop dest =>
    simp only [perform] at step
    split at step
    · cases step
    · rename_i w stack holds
      obtain ⟨a, -, step⟩ := Option.bind_eq_some_iff.1 step
      obtain rfl := Option.some.inj step
      refine ⟨.on line rfl, ?_⟩
      show (stack.length : Int) = c.stack.length + (0 - 1)
      rw [holds, List.length_cons]
      omega
  | call l => exact absurd rfl (notCall l)
  | ret => exact absurd rfl notRet
  | finish | stop => cases step
  | _ => exact absurd rfl plain

end Machine

end ContractCompiler
