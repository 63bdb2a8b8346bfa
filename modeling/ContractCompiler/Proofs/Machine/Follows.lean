import ContractCompiler.Proofs.Codegen.Reference
import ContractCompiler.Proofs.Statement

/-!
# Proofs.Machine.Follows — code that does what an execution does

`Machine.Follows` relates a piece of code to what an execution comes to: where the execution ends, the
code leads to the same memory and to where the execution goes on; where the fuel runs out, the machine
does not halt for at least as many lines (`Machine.Lasts`). So code that follows an execution with any
amount of fuel runs on forever if the execution does.

The laws follow the forms of statements. A loop is code behind a label that every round but the last
leads back to (`Rounds.follows`).
-/

namespace ContractCompiler

set_option autoImplicit false

namespace Machine

variable {M : Machine}

/-! ## Code that does not halt -/

variable (M) in
/-- Some lines one after the other. -/
def steps : Nat → Config → Option Config
  | 0, c => some c
  | n + 1, c => (M.step c).bind (steps n)

variable (M) in
/-- The machine does not halt for `n` lines. -/
def RunsFor (n : Nat) (c : Config) : Prop := (M.steps n c).isSome = true

theorem runsFor_succ {n : Nat} {c c' : Config} (step : M.step c = some c') :
    M.RunsFor (n + 1) c ↔ M.RunsFor n c' := by
  simp [RunsFor, steps, step]

theorem RunsFor.mono {low high : Nat} {c : Config} (runs : M.RunsFor high c) (le : low ≤ high) :
    M.RunsFor low c := by
  induction low generalizing high c with
  | zero => rfl
  | succ low ih =>
    obtain ⟨high, rfl⟩ : ∃ n, high = n + 1 := ⟨high - 1, by omega⟩
    obtain ⟨c', step⟩ : ∃ c', M.step c = some c' := by
      cases step : M.step c with
      | none => simp [RunsFor, steps, step] at runs
      | some c' => exact ⟨c', rfl⟩
    rw [runsFor_succ step] at runs ⊢
    exact ih runs (Nat.le_of_succ_le_succ le)

theorem Reaches.runsFor {low high n : Nat} {c c' : Config} (run : M.Reaches low high c c')
    (runs : M.RunsFor n c') : M.RunsFor n c := by
  induction run using Relation.ReflTransGen.head_induction_on with
  | refl => exact runs
  | head step _ ih => exact ((runsFor_succ step.2.2).2 ih).mono (Nat.le_succ n)

variable (M) in
/-- The code, wherever it is placed, does not halt for `n` lines. -/
def Lasts (code : List Instr) (n : Nat) (m : Memory) : Prop :=
  ∀ (pos : Nat) (stack : List Word) (returns : List Nat), M.Placed pos code →
    M.RunsFor n ⟨pos, m, stack, returns⟩

section

variable {code rest : List Instr} {n : Nat} {a b : Memory}

theorem Lasts.before (lasts : M.Lasts code n a) (rest : List Instr) : M.Lasts (code ++ rest) n a :=
  fun pos stack returns placed => lasts pos stack returns (placed_append.1 placed).1

theorem Lasts.after (first : M.Leads code none a b) (lasts : M.Lasts rest n b) :
    M.Lasts (code ++ rest) n a := by
  intro pos stack returns placed
  obtain ⟨placedCode, placedRest⟩ := placed_append.1 placed
  exact (first pos _ stack returns placedCode rfl).runsFor (lasts _ stack returns placedRest)

theorem Lasts.over {label : String} (first : M.Leads code (some label) a b) (skipped : List Instr)
    (lasts : M.Lasts (.label label :: rest) n b) :
    M.Lasts (code ++ (skipped ++ .label label :: rest)) n a := by
  intro pos stack returns placed
  obtain ⟨placedCode, placedSkipped⟩ := placed_append.1 placed
  obtain ⟨-, placedRest⟩ := placed_append.1 placedSkipped
  exact (first pos _ stack returns placedCode (placedRest.2.1 label rfl)).runsFor
    (lasts _ stack returns placedRest)

end

end Machine

/-! ## Code and executions -/

/-- Where the code of a statement goes on, inside of a loop with that label: at its end, or at a label.
A loop can not be left where there is none. -/
def Flow.exit? (loop : Option String) : Flow → Option (Option String)
  | next => some none
  | break_ => loop.map fun label => some (label ++ "_break")
  | continue_ => loop.map fun label => some (label ++ "_continue")

theorem Flow.exit?_of_ne_next {loop : Option String} {flow : Flow} {exit : Option String}
    (leaves : flow ≠ .next) (exits : flow.exit? loop = some exit) : ∃ label, exit = some label := by
  cases flow with
  | next => exact absurd rfl leaves
  | break_ | continue_ =>
    obtain ⟨label, -, rfl⟩ := Option.map_eq_some_iff.1 exits
    exact ⟨_, rfl⟩

namespace Machine

variable {M : Machine} {code rest test yes no : List Instr} {loop : Option String} {fuel : Nat}
  {m mm mm' : Memory} {r : Run}

variable (M) in
/-- The code, in a loop or not, does what the execution does. -/
def Follows (code : List Instr) (loop : Option String) (fuel : Nat) (mm : Memory) : Run → Prop
  | .ended flow m => ∃ exit mm', flow.exit? loop = some exit ∧ M.Leads code exit mm mm' ∧
      M.Ready m mm'
  | .fault => True
  | .unfinished => M.Lasts code fuel mm

namespace Follows

/-- Code that goes on to its end. -/
theorem next (leads : M.Leads code none mm mm') (ready : M.Ready m mm') :
    M.Follows code loop fuel mm (.ended .next m) :=
  ⟨none, mm', rfl, leads, ready⟩

/-- Code around other code. -/
theorem wrap {outer : List Instr} {mm₀ : Memory} (follows : M.Follows code loop fuel mm r)
    (leads : ∀ exit mm', M.Leads code exit mm mm' → M.Leads outer exit mm₀ mm')
    (lasts : M.Lasts code fuel mm → M.Lasts outer fuel mm₀) : M.Follows outer loop fuel mm₀ r := by
  cases r with
  | ended flow m =>
    obtain ⟨exit, mm', exits, leads', ready⟩ := follows
    exact ⟨exit, mm', exits, leads exit mm' leads', ready⟩
  | fault => trivial
  | unfinished => exact lasts follows

theorem after (first : M.Leads code none mm mm') (follows : M.Follows rest loop fuel mm' r) :
    M.Follows (code ++ rest) loop fuel mm r :=
  follows.wrap (fun _ _ leads => first.append leads) (.after first)

theorem upTo (follows : M.Follows code loop fuel mm r) (l : String) :
    M.Follows (code ++ [.label l]) loop fuel mm r :=
  follows.wrap (fun _ _ leads => leads.upTo l) (·.before _)

/-- One piece of code after another. -/
theorem append {f : Memory → Run} (first : M.Follows code loop fuel mm r)
    (second : ∀ m mm', M.Ready m mm' → M.Follows rest loop fuel mm' (f m)) :
    M.Follows (code ++ rest) loop fuel mm (r.andThen f) := by
  cases r with
  | ended flow m =>
    obtain ⟨exit, mm', exits, leads, ready⟩ := first
    by_cases goesOn : flow = .next
    · subst goesOn
      cases exits
      exact (second m mm' ready).after leads
    · obtain ⟨label, rfl⟩ := Flow.exit?_of_ne_next goesOn exits
      have same : (Run.ended flow m).andThen f = .ended flow m := by
        cases flow <;> first | rfl | exact absurd rfl goesOn
      rw [same]
      exact ⟨_, mm', exits, leads.leave rest, ready⟩
  | fault => trivial
  | unfinished => exact first.before rest

/-- The first of two ways. -/
theorem firstWay (first : M.Leads test none mm mm') (way : M.Follows yes loop fuel mm' r)
    (other done : String) (no : List Instr) :
    M.Follows (test ++ (yes ++ .jump done :: .label other :: (no ++ [.label done]))) loop fuel mm r :=
  way.wrap (fun _ _ leads => first.firstWay leads other done no)
    fun lasts => .after first (lasts.before _)

/-- The second of two ways. -/
theorem secondWay {other : String} (first : M.Leads test (some other) mm mm')
    (way : M.Follows no loop fuel mm' r) (done : String) (yes : List Instr) :
    M.Follows (test ++ (yes ++ .jump done :: .label other :: (no ++ [.label done]))) loop fuel mm r := by
  refine way.wrap (fun _ _ leads => first.secondWay leads done yes) fun lasts => ?_
  have jump := Lasts.over first (yes ++ [.jump done])
    (.after (.label other mm') (lasts.before [.label done]))
  simpa using jump

end Follows

/-! ## Loops -/

variable (M) in
/-- The code does what a round of a loop does: it leads back to the label `top`, or to its own end if
the round breaks off. -/
def Rounds (code : List Instr) (top : String) (fuel : Nat) (mm : Memory) : Run → Prop
  | .ended .break_ m => ∃ mm', M.Leads code none mm mm' ∧ M.Ready m mm'
  | .ended _ m => ∃ mm', M.Leads code (some top) mm mm' ∧ M.Ready m mm'
  | .fault => True
  | .unfinished => M.Lasts code fuel mm

/-- Code behind a label that goes around as the rounds of a loop do. -/
theorem Rounds.follows {top : String} {round : Memory → Run}
    (rounds : ∀ m mm, M.Ready m mm → M.Rounds code top fuel mm (round m)) (loop : Option String)
    {n : Nat} (enough : n ≤ fuel) (ready : M.Ready m mm) :
    M.Follows (.label top :: code) loop n mm (Run.loop round n m) := by
  -- the rounds that are left bound the lines that are run, as every round passes the label
  induction n generalizing m mm with
  | zero => exact fun _ _ _ _ => rfl
  | succ n ih =>
    have first := rounds m mm ready
    have enter := Leads.label (M := M) top mm
    have again : ∀ m' mm', M.Leads code (some top) mm mm' → M.Ready m' mm' →
        M.Follows (.label top :: code) loop (n + 1) mm (Run.loop round n m') := by
      intro m' mm' leads ready'
      have back : M.Leads (.label top :: code) (some top) mm mm' := enter.append leads
      have rest := ih (Nat.le_of_succ_le enough) ready'
      cases result : Run.loop round n m' with
      | ended flow m'' =>
        rw [result] at rest
        obtain ⟨exit, mm'', exits, leads', ready''⟩ := rest
        refine ⟨exit, mm'', exits, ?_, ready''⟩
        intro pos dest stack returns placed ends
        exact .trans (back pos pos stack returns placed (placed.2.1 top rfl))
          (leads' pos dest stack returns placed ends)
      | fault => trivial
      | unfinished =>
        rw [result] at rest
        intro pos stack returns placed
        have label : M.step ⟨pos, mm, stack, returns⟩ = some ⟨pos + 1, mm, stack, returns⟩ := by
          simp [step, placed.1, perform, Config.next]
        have round := leads (pos + 1) pos stack returns placed.2.2 (placed.2.1 top rfl)
        exact (runsFor_succ label).2 (round.runsFor (rest pos stack returns placed))
    rw [Run.loop]
    cases result : round m with
    | ended flow m' =>
      rw [result] at first
      cases flow with
      | next | continue_ =>
        obtain ⟨mm', leads, ready'⟩ := first
        exact again m' mm' leads ready'
      | break_ =>
        obtain ⟨mm', leads, ready'⟩ := first
        exact .next (enter.append leads) ready'
    | fault => trivial
    | unfinished =>
      rw [result] at first
      intro pos stack returns placed
      exact (Lasts.after enter first pos stack returns placed).mono enough

section Forms

variable {label top start : String} {cond body tail : List Instr} {value : Option Word}

variable (M) in
/-- Code that jumps to a label if the word that a test gives has the truth asked for. -/
def Decides (code : List Instr) (value : Option Word) (target : String) (when : Bool) (m mm : Memory) :
    Prop :=
  ∀ w, value = some w → ∃ mm', M.Leads code (if (w != 0) == when then some target else none) mm mm' ∧
    M.Ready m mm'

/-- A test leads on or to its target. -/
theorem Decides.cases {target : String} {when : Bool} {P : Run → Prop} {rest : Bool → Run}
    (decides : M.Decides cond value target when m mm) (fault : P .fault)
    (taken : ∀ mm', M.Leads cond (some target) mm mm' → M.Ready m mm' → P (rest when))
    (passed : ∀ mm', M.Leads cond none mm mm' → M.Ready m mm' → P (rest !when)) :
    P (.decide value rest) := by
  cases value with
  | none => exact fault
  | some w =>
    obtain ⟨mm', leads, ready⟩ := decides w rfl
    show P (rest (w != 0))
    by_cases same : (w != 0) = when
    · rw [if_pos (by simp [same])] at leads
      rw [same]
      exact taken mm' leads ready
    · rw [if_neg (by simpa using same)] at leads
      rw [Bool.eq_not.2 same]
      exact passed mm' leads ready

/-- Code in front of the code of a round. -/
theorem Rounds.after (first : M.Leads code none mm mm') (rounds : M.Rounds rest top fuel mm' r) :
    M.Rounds (code ++ rest) top fuel mm r := by
  cases r with
  | ended flow m =>
    cases flow <;>
    · obtain ⟨mm'', leads, ready⟩ := rounds
      exact ⟨mm'', first.append leads, ready⟩
  | fault => trivial
  | unfinished => exact .after first rounds

/-- The body of a loop and what follows it, where `continue` leads as well. The end of the code is where
`break` leads. -/
theorem Follows.rounds {f : Memory → Run} (ends : [.label (label ++ "_break")] <:+ tail)
    (follows : M.Follows body (some label) fuel mm r)
    (second : ∀ m mm', M.Ready m mm' →
      M.Rounds (.label (label ++ "_continue") :: tail) top fuel mm' (f m)) :
    M.Rounds (body ++ .label (label ++ "_continue") :: tail) top fuel mm (r.afterBody f) := by
  cases r with
  | ended flow m =>
    cases flow with
    | next =>
      obtain ⟨_, mm', ⟨⟩, leads, ready⟩ := follows
      exact .after leads (second m mm' ready)
    | continue_ =>
      obtain ⟨_, mm', ⟨⟩, leads, ready⟩ := follows
      have rest := second m mm' ready
      show M.Rounds _ top fuel mm (f m)
      cases result : f m with
      | ended flow m' =>
        rw [result] at rest
        cases flow <;>
        · obtain ⟨mm'', leads', ready'⟩ := rest
          exact ⟨mm'', leads.over [] leads', ready'⟩
      | fault => trivial
      | unfinished =>
        rw [result] at rest
        exact Lasts.over leads [] rest
    | break_ =>
      obtain ⟨_, mm', ⟨⟩, leads, ready⟩ := follows
      obtain ⟨skipped, rfl⟩ := ends
      exact ⟨mm', leads.over (.label (label ++ "_continue") :: skipped) (.label _ mm'), ready⟩
  | fault => trivial
  | unfinished => exact Lasts.before follows _

/-- The body of a loop that goes straight back to where `continue` leads. -/
theorem Follows.roundsBack (follows : M.Follows body (some label) fuel mm r) :
    M.Rounds (body ++ .jump (label ++ "_continue") :: [.label (label ++ "_break")])
      (label ++ "_continue") fuel mm r := by
  cases r with
  | ended flow m =>
    cases flow with
    | next =>
      obtain ⟨_, mm', ⟨⟩, leads, ready⟩ := follows
      exact ⟨mm', leads.append ((Leads.jump _ mm').leave _), ready⟩
    | continue_ =>
      obtain ⟨_, mm', ⟨⟩, leads, ready⟩ := follows
      exact ⟨mm', leads.leave _, ready⟩
    | break_ =>
      obtain ⟨_, mm', ⟨⟩, leads, ready⟩ := follows
      exact ⟨mm', leads.over [.jump (label ++ "_continue")] (.label _ mm'), ready⟩
  | fault => trivial
  | unfinished => exact Lasts.before follows _

/-- The rounds of a loop that is tested before its body. -/
theorem Rounds.tested {round : List Instr} (ends : [.label (label ++ "_break")] <:+ round)
    (decides : M.Decides cond value (label ++ "_break") false m mm)
    (rounds : ∀ mm', M.Ready m mm' → M.Rounds round top fuel mm' r) :
    M.Rounds (cond ++ (.label start :: round)) top fuel mm
      (.decide value fun truth => if truth then r else .ended .break_ m) := by
  obtain ⟨skipped, rfl⟩ := ends
  refine decides.cases (P := M.Rounds _ top fuel mm) trivial (fun mm' leads ready => ?_)
    fun mm' leads ready => ?_
  · exact ⟨mm', leads.over (.label start :: skipped) (.label _ mm'), ready⟩
  · exact .after leads (.after (.label start mm') (rounds mm' ready))

/-- A test that is not there holds. -/
theorem Decides.nothing {target : String} (ready : M.Ready m mm) :
    M.Decides [] (some 1) target false m mm := by
  rintro w ⟨⟩
  exact ⟨mm, .nil mm, ready⟩

end Forms

end Machine

end ContractCompiler
