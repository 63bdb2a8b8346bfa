import ContractCompiler.Directive
import ContractCompiler.Proofs.Outcome

/-!
# Proofs.Directive — directives keep the settings valid

What a directive does to the settings is said once (`Directive.Changes`): it changes one setting, to a value
inside its limits. So directives that are applied in turn keep the settings valid, and where one of them is
refused, the settings are those after the directives before it (`Directive.split_valid`).
-/

namespace ContractCompiler

set_option autoImplicit false

/-- The settings are inside their limits. -/
structure Settings.Valid (s : Settings) : Prop where
  registers : 1 ≤ s.maxAuxVars ∧ s.maxAuxVars ≤ 21
  constants : s.maxConstVars ≤ 21
  pages : s.codeStackPages + s.userStackPages ≤ 10
  name : ∀ text ∈ s.name, 1 ≤ text.length ∧ text.length ≤ 30 ∧ ∀ c ∈ text.toList, c.isAlphanum = true
  description : ∀ text ∈ s.description, text.length ≤ 1000
  /-- Digits, of which the first is a zero only if it is the only one. -/
  amount : ∀ text ∈ s.activationAmount, text ≠ "" ∧ (∀ c ∈ text.toList, c.isDigit = true) ∧
    (text.toList.head? = some '0' → text = "0")

namespace Settings

theorem any_stackPagesSum? {code user : Nat} (fits : (stackPagesSum? code user).any (· ≤ stackPagesBudget) = true) :
    code + user ≤ 10 := by
  unfold stackPagesSum? at fits
  split at fits
  · exact of_decide_eq_true fits
  · cases fits

theorem stackPagesSum?_lt {code user sum : Nat} (isSum : stackPagesSum? code user = some sum) :
    sum < Directive.pagesBound := by
  unfold stackPagesSum? stackPagesBudget at isSum
  unfold Directive.pagesBound
  split at isSum
  · cases isSum
    omega
  · cases isSum

theorem isProgramName_iff {text : String} : isProgramName text = true ↔
    1 ≤ text.length ∧ text.length ≤ 30 ∧ ∀ c ∈ text.toList, c.isAlphanum = true := by
  rw [← String.length_toList, isProgramName]
  cases text.toList <;> simp

/-- An amount that is accepted is written in its shortest form. -/
theorem normalAmount?_eq_some {text amount : String} (normal : normalAmount? text = some amount) :
    amount ≠ "" ∧ (∀ c ∈ amount.toList, c.isDigit = true) ∧ (amount.toList.head? = some '0' → amount = "0") := by
  simp only [normalAmount?] at normal
  split at normal
  · rename_i digits
    have digits := List.all_eq_true.1 (Bool.and_eq_true_iff.1 digits).2
    split at normal
    · cases normal
      exact ⟨by simp, List.forall_mem_singleton.2 rfl, fun _ => rfl⟩
    · rename_i rest notNil
      cases normal
      refine ⟨fun none => notNil (String.ofList_eq_empty_iff.1 none), fun c mem => ?_, fun isZero => ?_⟩
      · rw [String.toList_ofList] at mem
        exact digits c ((List.dropWhile_sublist _).mem mem)
      · rw [String.toList_ofList] at isZero
        have notZero := List.head?_dropWhile_not (· == '0') (text.toList.filter (· != '_'))
        simp [*] at notZero
  · cases normal

end Settings

namespace Directive

/-- What the directive may make of the settings. -/
inductive Changes (d : Directive) (s : Settings) : Settings → Prop
  | registers {n : Nat} (inside : 1 ≤ n ∧ n ≤ Settings.auxVarsLimit) : Changes d s { s with maxAuxVars := n }
  | constants {n : Nat} (inside : n ≤ Settings.constVarsLimit) : Changes d s { s with maxConstVars := n }
  | switches (reuse lines random comments : Bool) : Changes d s { s with
      reuseAssignedVar := reuse, enableLineLabels := lines, enableRandom := random,
      outputSourceLineNumber := comments }
  | pages {code user : Nat} (budget : code + user ≤ 10) :
      Changes d s { s with codeStackPages := code, userStackPages := user }
  | name (isName : Settings.isProgramName d.value = true) : Changes d s { s with name := some d.value }
  | description (short : d.value.length ≤ 1000) : Changes d s { s with description := some d.value }
  | amount {text : String} (normal : Settings.normalAmount? d.value = some text) :
      Changes d s { s with activationAmount := some text }

theorem Changes.none (d : Directive) (s : Settings) : d.Changes s s := .switches _ _ _ _

theorem Changes.valid {d : Directive} {s s' : Settings} (changes : d.Changes s s') (valid : s.Valid) : s'.Valid := by
  cases changes with
  | registers inside => exact { valid with registers := inside }
  | constants inside => exact { valid with constants := inside }
  | switches _ _ _ _ => exact { valid with }
  | pages budget => exact { valid with pages := budget }
  | name isName =>
    refine { valid with name := ?_ }
    rintro _ ⟨⟩
    exact Settings.isProgramName_iff.1 isName
  | description short =>
    refine { valid with description := ?_ }
    rintro _ ⟨⟩
    exact short
  | amount normal =>
    refine { valid with amount := ?_ }
    rintro _ ⟨⟩
    exact Settings.normalAmount?_eq_some normal

/-! ## One directive -/

section One

variable {inside : Nat → Prop} {strict : Prop} {d : Directive} (atLine : inside d.line) (s : Settings)
include atLine

theorem number_within (bound : Nat) : Outcome.Within inside strict (d.number bound) fun _ => True := by
  unfold number
  split
  · exact .ok trivial
  · exact .error atLine rfl

theorem switch_within : Outcome.Within inside strict d.switch fun _ => True := by
  unfold switch
  split
  case h_5 => exact .error atLine rfl
  all_goals exact .ok trivial

theorem applyPragma_within : Outcome.Within inside strict (d.applyPragma s) (d.Changes s) := by
  have sets : ∀ change : Bool → Settings, (∀ on, d.Changes s (change on)) → Outcome.Within inside strict
      (d.switch >>= fun on => (.ok (change on) : Outcome Settings)) (d.Changes s) :=
    fun _ changes => .bind ((switch_within atLine).mono fun on _ => .ok (changes on))
  unfold applyPragma
  split
  · exact .bind ((number_within atLine _).mono fun _ _ => .test .registers atLine rfl)
  · exact .bind ((number_within atLine _).mono fun _ _ => .test .constants atLine rfl)
  · exact sets _ fun _ => .switches _ _ _ _
  · exact sets _ fun _ => .switches _ _ _ _
  · exact sets _ fun _ => .switches _ _ _ _
  · split
    · exact .ok (.switches _ _ _ _)
    · exact sets _ fun _ => .switches _ _ _ _
  · exact .test (fun _ => .none d s) atLine rfl
  · exact .error atLine rfl

theorem applyProgram_within : Outcome.Within inside strict (d.applyProgram s) (d.Changes s) := by
  have pages : ∀ code user, Outcome.Within inside strict (s.setStackPages code user d.line) (d.Changes s) :=
    fun _ _ => .test (fun fits => .pages (Settings.any_stackPagesSum? fits)) atLine rfl
  unfold applyProgram
  split
  · exact .test .name atLine rfl
  · exact .test .description atLine rfl
  · unfold Settings.setActivationAmount
    split
    · rename_i normal
      exact .ok (.amount normal)
    · exact .error atLine rfl
  · exact .bind ((number_within atLine _).mono fun _ _ => pages _ _)
  · exact .bind ((number_within atLine _).mono fun _ _ => pages _ _)
  · exact .error atLine rfl

theorem apply_within : Outcome.Within inside strict (d.apply s) (d.Changes s) := by
  unfold apply
  split
  · exact applyPragma_within atLine s
  · exact applyProgram_within atLine s
  · exact .test (fun _ => .none d s) atLine rfl
  · exact .error atLine rfl

end One

/-! ## Directives in turn -/

def all (tokens : List Token) : List Directive := (tokens.filter (·.kind == .directive)).map ofToken

theorem all_cons_of_directive {t : Token} (isDirective : t.kind = .directive) (tokens : List Token) :
    all (t :: tokens) = ofToken t :: all tokens := by
  simp [all, isDirective]

theorem all_cons_of_ne {t : Token} (isOther : t.kind ≠ .directive) (tokens : List Token) :
    all (t :: tokens) = all tokens := by
  simp [all, isOther]

/-- The directives are accepted one after the other, and make the settings into others. -/
inductive Runs : List Directive → Settings → Settings → Prop
  | nil {s : Settings} : Runs [] s s
  | cons {d : Directive} {ds : List Directive} {s s' s'' : Settings} (first : d.apply s = .ok s')
      (rest : Runs ds s' s'') : Runs (d :: ds) s s''

/-- What every directive keeps, directives in turn keep. -/
theorem Runs.keeps {P : Settings → Prop} {ds : List Directive} {s s' : Settings} (runs : Runs ds s s')
    (step : ∀ d ∈ ds, ∀ s s', d.Changes s s' → P s → P s') (holds : P s) : P s' := by
  induction runs with
  | nil => exact holds
  | @cons d ds s s' s'' first _ ih =>
    obtain ⟨stepFirst, stepRest⟩ := List.forall_mem_cons.1 step
    have changes : d.Changes s s' :=
      (apply_within trivial s : Outcome.Within (fun _ => True) False _ _).ensures s' first
    exact ih stepRest (stepFirst s s' changes holds)

/-- The directives are all accepted, or those before one that is refused are. -/
theorem applyAll_runs (tokens : List Token) (s : Settings) :
    ((applyAll tokens s).2 = none → Runs (all tokens) s (applyAll tokens s).1) ∧
      ∀ e, (applyAll tokens s).2 = some e → ∃ before d after, all tokens = before ++ d :: after ∧
        Runs before s (applyAll tokens s).1 ∧ d.apply (applyAll tokens s).1 = .error e := by
  induction tokens generalizing s with
  | nil => exact ⟨fun _ => .nil, by simp [applyAll]⟩
  | cons t tokens ih =>
    rw [applyAll]
    split
    · rename_i isDirective
      rw [all_cons_of_directive isDirective]
      cases applied : (ofToken t).apply s with
      | ok s' =>
        refine ⟨fun accepted => .cons applied ((ih s').1 accepted), fun e isError => ?_⟩
        obtain ⟨before, d, after, split, runs, refused⟩ := (ih s').2 e isError
        exact ⟨ofToken t :: before, d, after, congrArg (List.cons _) split, .cons applied runs, refused⟩
      | error e =>
        refine ⟨by simp, ?_⟩
        rintro _ ⟨⟩
        exact ⟨[], ofToken t, all tokens, rfl, .nil, applied⟩
    · rename_i isOther
      rw [all_cons_of_ne isOther]
      exact ih s

/-- What every directive keeps is kept, also if one is refused. -/
theorem applyAll_keeps {P : Settings → Prop} {tokens : List Token} {s : Settings}
    (step : ∀ d ∈ all tokens, ∀ s s', d.Changes s s' → P s → P s') (holds : P s) : P (applyAll tokens s).1 := by
  cases result : (applyAll tokens s).2 with
  | none => exact ((applyAll_runs tokens s).1 result).keeps step holds
  | some e =>
    obtain ⟨before, d, after, split, runs, -⟩ := (applyAll_runs tokens s).2 e result
    exact runs.keeps (fun d mem => step d (split ▸ List.mem_append_left _ mem)) holds

theorem split_eq_error {tokens : List Token} {s : Settings} {e : CompileError} :
    split tokens s = .error e ↔ (applyAll tokens s).2 = some e := by
  unfold Directive.split
  rcases applyAll tokens s with ⟨s', _ | e'⟩ <;> simp

theorem split_eq_ok {tokens rest : List Token} {s s' : Settings} : split tokens s = .ok (s', rest) ↔
    applyAll tokens s = (s', none) ∧ rest = tokens.filter (·.kind != .directive) := by
  unfold Directive.split
  rcases applyAll tokens s with ⟨s', _ | e'⟩ <;> simp [eq_comm]

theorem split_within {inside : Nat → Prop} {strict : Prop} {tokens : List Token} (s : Settings)
    (stand : ∀ t ∈ tokens, inside t.line) :
    Outcome.Within inside strict (split tokens s) fun found => ∀ t ∈ found.2, t ∈ tokens := by
  cases result : split tokens s with
  | ok found =>
    refine .ok fun t mem => ?_
    rw [(split_eq_ok.1 result).2] at mem
    exact (List.mem_filter.1 mem).1
  | error e =>
    obtain ⟨before, d, after, split, -, refused⟩ := (applyAll_runs tokens s).2 e (split_eq_error.1 result)
    have listed : d ∈ all tokens := split ▸ List.mem_append_right _ List.mem_cons_self
    obtain ⟨t, isToken, rfl⟩ := List.mem_map.1 listed
    have atLine : inside (ofToken t).line := stand t (List.mem_filter.1 isToken).1
    have within : Outcome.Within inside strict _ _ := apply_within atLine (applyAll tokens s).1
    rwa [refused] at within

/-- Directives keep the settings valid, whether all of them are accepted or one is refused. If one is
refused, the settings are those that the directives before it make; if none is, the tokens that are left are
those that are no directives. The sum of the pages of the two stacks, where it is formed, has 32 bits. -/
theorem split_valid (tokens : List Token) {s : Settings} (valid : s.Valid) :
    (applyAll tokens s).1.Valid ∧
    (∀ e, split tokens s = .error e → ∃ before d after, all tokens = before ++ d :: after ∧
      Runs before s (applyAll tokens s).1 ∧ d.apply (applyAll tokens s).1 = .error e) ∧
    (∀ s' rest, split tokens s = .ok (s', rest) → applyAll tokens s = (s', none) ∧ Runs (all tokens) s s' ∧
      rest = tokens.filter (·.kind != .directive)) ∧
    ∀ code user sum, Settings.stackPagesSum? code user = some sum → sum < pagesBound := by
  obtain ⟨accepted, refused⟩ := applyAll_runs tokens s
  refine ⟨applyAll_keeps (fun _ _ _ _ changes => changes.valid) valid,
    fun e isError => refused e (split_eq_error.1 isError), fun s' rest isOk => ?_,
    fun _ _ _ => Settings.stackPagesSum?_lt⟩
  obtain ⟨applied, isRest⟩ := split_eq_ok.1 isOk
  rw [applied] at accepted
  exact ⟨applied, accepted rfl, isRest⟩

end Directive

namespace Sample

/-- An amount with separators, and pages of the two stacks that are over the budget together. -/
def directives : List Token :=
  [⟨.directive, "program activationAmount 0_05_00", 1⟩, ⟨.directive, "program codeStackPages 6", 2⟩,
    ⟨.keyword, "long", 3⟩, ⟨.directive, "program userStackPages 5", 4⟩]

/-- The settings after the two directives that are accepted. -/
def sixPages : Settings := { codeStackPages := 6, activationAmount := some "500" }

end Sample

/-- The second stack is over the budget, and the settings are left as they were before. -/
theorem Directive.split_valid_pages : ({} : Settings).Valid ∧
    split Sample.directives {} = .error (.misuse 4 (.stackPagesOutOfRange 10)) ∧ Sample.sixPages.Valid ∧
    ∃ before d after, all Sample.directives = before ++ d :: after ∧ Runs before {} Sample.sixPages ∧
      d.apply Sample.sixPages = .error (.misuse 4 (.stackPagesOutOfRange 10)) := by
  have valid : ({} : Settings).Valid := ⟨by decide, by decide, by decide, by simp, by simp, by simp⟩
  have applied : applyAll Sample.directives {} =
      (Sample.sixPages, some (.misuse 4 (.stackPagesOutOfRange 10))) := by decide +kernel
  have refused := split_eq_error.2 (congrArg Prod.snd applied)
  obtain ⟨keeps, stops, -⟩ := split_valid Sample.directives valid
  rw [applied] at keeps stops
  exact ⟨valid, refused, keeps, stops _ refused⟩

end ContractCompiler
