import ContractCompiler.Proofs.Flow

/-!
# Proofs.Flow.Meets — lines that every way through code comes by

Code is `Closed` if control goes on inside of it until its end is reached. Where closed code stands
among other code, a path that enters it at its first line leaves it at its end (`Closed.split`). So a
line between two closed parts is run once on every path (`Meets.places`), which is how `Meets` is put
together: `Meets lines code` says that the code consists of closed parts with the lines in turn between
them.
-/

namespace ContractCompiler

set_option autoImplicit false

/-- Control does not stop in the code, and leaves it only at its end and to the labels `exits`. -/
structure Closed (exits : List String) (code : List Instr) : Prop where
  stops : ∀ i ∈ code, i.stops = false
  jumps : ∀ i ∈ code, ∀ l, i.target? = some l → l ∈ Instr.labels code ∨ l ∈ exits

namespace Closed

variable {exits exits' : List String} {code rest : List Instr}

theorem append (first : Closed exits code) (second : Closed exits rest) :
    Closed exits (code ++ rest) where
  stops i mem := (List.mem_append.1 mem).elim (first.stops i) (second.stops i)
  jumps i mem l target := by
    rw [Instr.labels_append, List.mem_append]
    rcases List.mem_append.1 mem with mem | mem
    · exact (first.jumps i mem l target).imp_left .inl
    · exact (second.jumps i mem l target).imp_left .inr

/-- Some of the exits are labels of the code. -/
theorem close (closed : Closed exits' code)
    (found : ∀ l ∈ exits', l ∈ Instr.labels code ∨ l ∈ exits) : Closed exits code where
  stops := closed.stops
  jumps i mem l target := (closed.jumps i mem l target).elim .inl (found l)

theorem widen (closed : Closed exits' code) (wider : ∀ l ∈ exits', l ∈ exits) : Closed exits code :=
  closed.close fun l mem => .inr (wider l mem)

theorem of_forall (inside : ∀ i ∈ code, i.stops = false ∧ i.target? = none) : Closed exits code where
  stops i mem := (inside i mem).1
  jumps i mem l target := by
    rw [(inside i mem).2] at target
    cases target

theorem of_plain (plain : ∀ i ∈ code, i.isPlain = true) : Closed exits code :=
  of_forall fun i mem =>
    ⟨Instr.IsPlain.stops_eq_false (plain i mem), Instr.IsPlain.target?_eq_none (plain i mem)⟩

theorem jump {i : Instr} {l : String} (target : i.target? = some l) (mem : l ∈ exits) :
    Closed exits [i] where
  stops i' listed := by
    obtain rfl := List.mem_singleton.1 listed
    cases i' <;> first | rfl | cases target
  jumps i' listed l' target' := by
    obtain rfl := List.mem_singleton.1 listed
    obtain rfl : l = l' := Option.some.inj (target.symm.trans target')
    exact .inr mem

end Closed

/-- The code is made of closed parts, and of the lines in turn. -/
inductive Meets : List Instr → List Instr → Prop
  | part {code : List Instr} (closed : Closed [] code) : Meets [] code
  | line {i : Instr} (plain : i.isPlain = true) : Meets [i] [i]
  | append {lines lines' code rest : List Instr} (first : Meets lines code)
      (second : Meets lines' rest) : Meets (lines ++ lines') (code ++ rest)

theorem Meets.closed {lines code : List Instr} (meets : Meets lines code) : Closed [] code := by
  induction meets with
  | part closed => exact closed
  | line plain => exact .of_plain (by simpa using plain)
  | append _ _ ih ih' => exact ih.append ih'

/-! ## Paths through parts of code -/

section Parts

variable {before code after : List Instr}

theorem getElem?_part {p : Nat} (low : before.length ≤ p) (high : p < before.length + code.length) :
    (before ++ (code ++ after))[p]? = code[p - before.length]? := by
  rw [List.getElem?_append_right low, List.getElem?_append_left (by omega)]

/-- A line of closed code goes on inside of it, or to its end. -/
theorem Closed.next (closed : Closed [] code)
    (nodup : (Instr.labels (before ++ (code ++ after))).Nodup) {p q : Nat}
    (next : Next (before ++ (code ++ after)) p q) (low : before.length ≤ p)
    (high : p < before.length + code.length) :
    before.length ≤ q ∧ q ≤ before.length + code.length := by
  cases next with
  | on _ _ => omega
  | @jump i l _ line target position =>
    rw [getElem?_part low high] at line
    have defined : l ∈ Instr.labels code :=
      (closed.jumps i (List.mem_of_getElem? line) l target).resolve_right (by simp)
    obtain ⟨k, label⟩ := List.getElem?_of_mem (Instr.mem_labels.1 defined)
    have inside : k < code.length := (List.getElem?_eq_some_iff.1 label).1
    have label' : (before ++ (code ++ after))[before.length + k]? = some (.label l) := by
      rw [getElem?_part (by omega) (by omega), Nat.add_sub_cancel_left]
      exact label
    rw [Next.jump_eq nodup label' position]
    omega

/-- A path that begins in closed code and goes on behind it comes to the end of the code first. -/
theorem Closed.split (closed : Closed [] code)
    (nodup : (Instr.labels (before ++ (code ++ after))).Nodup) {p q : Nat} {visited : List Nat}
    (path : Path (before ++ (code ++ after)) p visited q) (low : before.length ≤ p)
    (high : p ≤ before.length + code.length) (behind : before.length + code.length ≤ q) :
    ∃ inside others, visited = inside ++ others ∧
      (∀ k ∈ inside, before.length ≤ k ∧ k < before.length + code.length) ∧
      Path (before ++ (code ++ after)) p inside (before.length + code.length) ∧
      Path (before ++ (code ++ after)) (before.length + code.length) others q := by
  induction path with
  | here p =>
    obtain rfl : p = before.length + code.length := Nat.le_antisymm high behind
    exact ⟨[], [], rfl, by simp, .here _, .here _⟩
  | @step p p' q visited next rest ih =>
    rcases Nat.lt_or_eq_of_le high with high | rfl
    · obtain ⟨low', high'⟩ := closed.next nodup next low high
      obtain ⟨inside, others, rfl, bounds, path, path'⟩ := ih low' high' behind
      refine ⟨p :: inside, others, rfl, ?_, .step next path, path'⟩
      exact List.forall_mem_cons.2 ⟨⟨low, high⟩, bounds⟩
    · exact ⟨[], _, rfl, by simp, .here _, .step next rest⟩

theorem Path.bounds {whole : List Instr} {p q : Nat} {visited : List Nat}
    (path : Path whole p visited q) :
    (∀ k ∈ visited, k < whole.length) ∧ (p ≤ whole.length → q ≤ whole.length) := by
  induction path with
  | here _ => simp
  | step next _ ih =>
    exact ⟨List.forall_mem_cons.2 ⟨next.lt_length, ih.1⟩, fun _ => ih.2 next.le_length⟩

/-- A path back to where it begins runs the line there, unless it is empty. -/
theorem Path.eq_nil_of_not_mem {whole : List Instr} {p q : Nat} {visited : List Nat}
    (path : Path whole p visited q) (unvisited : p ∉ visited) : visited = [] := by
  cases path with
  | here _ => rfl
  | step _ _ => exact absurd List.mem_cons_self unvisited

/-- The lines that code meets have places in it, one behind the other, and a path through the code runs
each of them once. -/
theorem Meets.places {lines : List Instr} (meets : Meets lines code)
    (nodup : (Instr.labels (before ++ (code ++ after))).Nodup) :
    ∃ places : List Nat,
      places.map (fun k => (before ++ (code ++ after))[k]?) = lines.map some ∧
      places.Pairwise (· < ·) ∧
      (∀ k ∈ places, before.length ≤ k ∧ k < before.length + code.length) ∧
      ∀ visited, Path (before ++ (code ++ after)) before.length visited
          (before.length + code.length) →
        (∀ k ∈ visited, before.length ≤ k ∧ k < before.length + code.length) →
        ∀ k ∈ places, visited.count k = 1 := by
  induction meets generalizing before after with
  | part _ => exact ⟨[], by simp⟩
  | @line i plain =>
    refine ⟨[before.length], by simp, by simp, by simp, ?_⟩
    intro visited path bounds k mem
    obtain rfl := List.mem_singleton.1 mem
    obtain ⟨last, isLast⟩ : ∃ last, last = before.length + [i].length := ⟨_, rfl⟩
    rw [← isLast] at path
    cases path with
    | here _ => simp at isLast
    | step next rest =>
      have line : (before ++ ([i] ++ after))[before.length]? = some i := by simp
      cases next with
      | on _ _ =>
        have unvisited : before.length + 1 ∉ _ := fun mem => by
          have inside := bounds _ (List.mem_cons_of_mem _ mem)
          simp at inside
        rw [rest.eq_nil_of_not_mem unvisited]
        simp
      | jump line' target _ =>
        obtain rfl := Option.some.inj (line.symm.trans line')
        rw [Instr.IsPlain.target?_eq_none plain] at target
        cases target
  | @append lines lines' code rest first second ih ih' =>
    have assoc : before ++ (code ++ (rest ++ after)) = before ++ (code ++ rest ++ after) := by simp
    have assoc' : (before ++ code) ++ (rest ++ after) = before ++ (code ++ rest ++ after) := by simp
    obtain ⟨places, lines₁, sorted₁, bounds₁, once₁⟩ := ih (assoc ▸ nodup)
    obtain ⟨places', lines₂, sorted₂, bounds₂, once₂⟩ := ih' (assoc' ▸ nodup)
    rw [assoc] at lines₁ once₁
    rw [assoc'] at lines₂ once₂
    simp only [List.length_append] at bounds₂ once₂ ⊢
    refine ⟨places ++ places', by rw [List.map_append, List.map_append, lines₁, lines₂], ?_, ?_, ?_⟩
    · refine List.pairwise_append.2 ⟨sorted₁, sorted₂, fun k mem k' mem' => ?_⟩
      have := bounds₁ k mem
      have := bounds₂ k' mem'
      omega
    · intro k mem
      rcases List.mem_append.1 mem with mem | mem
      · have := bounds₁ k mem
        omega
      · have := bounds₂ k mem
        omega
    · intro visited path bounds k mem
      -- the path runs through the first part and then through the second
      obtain ⟨v₁, v₂, rfl, inside₁, path₁, path₂⟩ :=
        first.closed.split (assoc ▸ nodup) (assoc ▸ path) (Nat.le_refl _) (by omega) (by omega)
      have onward : Path ((before ++ code) ++ (rest ++ after)) (before ++ code).length v₂
          (before.length + (code.length + rest.length)) := by
        rw [assoc', List.length_append, ← assoc]
        exact path₂
      obtain ⟨w₂, w₃, rfl, inside₂, path₂', path₃⟩ :=
        second.closed.split (assoc' ▸ nodup) onward (Nat.le_refl _) (by omega)
          (by simp only [List.length_append]; omega)
      rw [assoc', List.length_append] at path₂' path₃
      rw [List.length_append] at inside₂
      have nothing : w₃ = [] := by
        refine path₃.eq_nil_of_not_mem fun mem => ?_
        have inside := bounds _ (List.mem_append_right _ (List.mem_append_right _ mem))
        omega
      subst nothing
      rw [assoc] at path₁
      rw [List.append_nil, List.count_append]
      rcases List.mem_append.1 mem with mem | mem
      · rw [once₁ v₁ path₁ inside₁ k mem, List.count_eq_zero.2]
        intro listed
        have := bounds₁ k mem
        have := inside₂ k listed
        omega
      · rw [once₂ w₂ path₂' inside₂ k mem, List.count_eq_zero.2]
        intro listed
        have := bounds₂ k mem
        have := inside₁ k listed
        omega

end Parts

/-- The lines that code meets have places in it, and on every way out of the code each of them was run
once. -/
theorem Meets.once {lines code : List Instr} (meets : Meets lines code)
    (nodup : (Instr.labels code).Nodup) :
    ∃ places : List Nat, places.map (code[·]?) = lines.map some ∧ places.Nodup ∧
      ∀ visited q, Path code 0 visited q → LeavesAt code q → ∀ k ∈ places, visited.count k = 1 := by
  have nodup' : (Instr.labels ([] ++ (code ++ []))).Nodup := by simpa using nodup
  obtain ⟨places, atPlaces, sorted, -, once⟩ := meets.places nodup'
  simp only [List.nil_append, List.append_nil, List.length_nil, Nat.zero_add, Nat.zero_le,
    true_and] at atPlaces once
  refine ⟨places, atPlaces, sorted.imp Nat.ne_of_lt, ?_⟩
  intro visited q path leaves
  obtain ⟨bounds, within⟩ := path.bounds
  rcases Nat.lt_or_eq_of_le (within (Nat.zero_le _)) with inside | rfl
  · -- closed code goes on at each of its lines
    rcases leaves code[q] (List.getElem?_eq_getElem inside) with stops | ⟨l, target, undefined⟩
    · rw [meets.closed.stops _ (List.getElem_mem inside)] at stops
      cases stops
    · exact ((meets.closed.jumps _ (List.getElem_mem inside) l target).elim undefined (by simp)).elim
  · exact once visited path bounds

end ContractCompiler
