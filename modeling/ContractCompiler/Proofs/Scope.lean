import ContractCompiler.Proofs.Memory

/-!
# Proofs.Scope — whose variables a name can mean

A name that a function declares means, inside the function, the slot that was made for it there. From
elsewhere no name means a slot of the function, with one exception: a scope is known by its name only,
so what a function named like the global scope declares is declared there and can be named from
everywhere (`Layout.scope_isolated`).
-/

namespace ContractCompiler

set_option autoImplicit false

open Outcome (Ensures)

theorem Slot.Becomes.name {s s' : Slot} (becomes : s.Becomes s') : s'.name = s.name := by
  rw [← becomes.same]

namespace SlotTable

variable {t t' : SlotTable} {s : Slot} {name scope : String} {ceiling : Nat}

theorem inScope?_scope (found : t.inScope? name scope = some s) : s.scope = scope := by
  have holds := List.find?_some found
  simp only [Bool.and_eq_true, beq_iff_eq] at holds
  exact holds.2

/-- A name means a variable of the scope it stands in or a global one. -/
theorem lookup?_scope {function : Option String} (found : t.lookup? name function = some s) :
    function = some s.scope ∨ s.scope = Slot.globalScope := by
  rcases Option.or_eq_some_iff.1 found with inFunction | ⟨-, isGlobal⟩
  · obtain ⟨scope, rfl, inScope⟩ := Option.bind_eq_some_iff.1 inFunction
    exact .inl (congrArg some (inScope?_scope inScope).symm)
  · exact .inr (inScope?_scope isGlobal)

/-- Fixed contents do not change which slot is the first to pass a test that does not look at them. -/
theorem Fixes.find?_slots {p : Slot → Bool} (stable : ∀ s s', s.Becomes s' → p s' = p s)
    (fixes : t.Fixes t') (found : t.slots.find? p = some s) :
    ∃ s', t'.slots.find? p = some s' ∧ s.Becomes s' := by
  unfold Fixes at fixes
  generalize t.slots = slots, t'.slots = slots' at fixes found
  induction fixes with
  | nil => cases found
  | cons becomes _ ih =>
    rw [List.find?_cons] at found ⊢
    rw [stable _ _ becomes]
    split at found
    · obtain rfl := Option.some.inj found
      exact ⟨_, rfl, becomes⟩
    · exact ih found

/-- The first slot to pass such a test stays the same over a whole compilation. -/
theorem find?_slots_after {p : Slot → Bool} (stable : ∀ s s', s.Becomes s' → p s' = p s)
    (events : List Event) (found : t.slots.find? p = some s) :
    ∃ s', (t.after ceiling events).slots.find? p = some s' ∧ s.Becomes s' := by
  induction events generalizing t s with
  | nil => exact ⟨s, found, .refl s⟩
  | cons event events ih =>
    obtain ⟨s₁, found₁, becomes⟩ : ∃ s₁, (t.apply ceiling event).slots.find? p = some s₁ ∧ s.Becomes s₁ := by
      cases event with
      | intern value =>
        obtain ⟨kept, slots, -⟩ := (t.interns_intern value ceiling).slots
        refine ⟨s, ?_, .refl s⟩
        rw [apply, slots, List.find?_append, found]
        rfl
      | freeze line code => exact (t.freeze_fixes line code).find?_slots stable found
    obtain ⟨s₂, found₂, becomes'⟩ := ih found₁
    exact ⟨s₂, found₂, becomes.trans becomes'⟩

/-- What a name means in a scope stays the same over a whole compilation. -/
theorem inScope?_after (events : List Event) (found : t.inScope? name scope = some s) :
    ∃ s', (t.after ceiling events).inScope? name scope = some s' ∧ s.Becomes s' :=
  find?_slots_after (fun _ _ becomes => by rw [becomes.name, becomes.kind, becomes.scope]) events found

end SlotTable

namespace Layout

/-- The slots `own` are those by which the table grows when the function is declared, behind what stands
before it in the contract. -/
def Owns (p : Program) (settings : Settings) (f : FunctionDef) (own : List Slot) : Prop :=
  ∃ before rest l₀ l₁, p.functions = before ++ f :: rest ∧
    ofProgram { p with functions := before } settings = .ok l₀ ∧ l₀.declareFunction f = .ok l₁ ∧
    l₁.table.slots = l₀.table.slots ++ own

/-- Functions are declared behind what is there. -/
theorem declareFunctions_slots (fs : List FunctionDef) (l : Layout) :
    Ensures (fs.foldlM declareFunction l) fun l' => ∃ more, l'.table.slots = l.table.slots ++ more := by
  refine .foldlM (fun l' : Layout => ∃ more, l'.table.slots = l.table.slots ++ more) fs ?_ ⟨[], by simp⟩
  rintro l' f - ⟨more, slots⟩
  refine (l'.declareFunction_declares f).mono ?_
  rintro l'' ⟨own, declares⟩
  exact ⟨more ++ own, by rw [declares.slots, slots, List.append_assoc]⟩

/-- The layout of a contract, cut before and after the declaration of a function. -/
theorem ofProgram_cut {p : Program} {settings : Settings} {l : Layout} {f : FunctionDef}
    {before rest : List FunctionDef} (listed : p.functions = before ++ f :: rest)
    (isLayout : ofProgram p settings = .ok l) :
    ∃ l₀ l₁, ofProgram { p with functions := before } settings = .ok l₀ ∧
      l₀.declareFunction f = .ok l₁ ∧ rest.foldlM declareFunction l₁ = .ok l := by
  unfold ofProgram at isLayout ⊢
  simp only [bind, Except.bind, listed] at isLayout ⊢
  cases structs : p.structs.foldlM SlotTable.declareStruct (.ofRegisters settings.maxAuxVars) with
  | error e => simp [structs] at isLayout
  | ok t =>
    simp only [structs] at isLayout ⊢
    cases globals : t.declareAll Slot.globalScope (Sentence.allDeclarations p.globals) with
    | error e => simp [globals] at isLayout
    | ok t =>
      simp only [globals, List.foldlM_append, List.foldlM_cons, bind, Except.bind] at isLayout ⊢
      cases first : before.foldlM declareFunction ⟨t, []⟩ with
      | error e => simp [first] at isLayout
      | ok l₀ =>
        simp only [first] at isLayout
        cases declared : l₀.declareFunction f with
        | error e => simp [declared] at isLayout
        | ok l₁ =>
          simp only [declared] at isLayout
          exact ⟨l₀, l₁, rfl, declared, isLayout⟩

/-- A name that a function declares means, inside the function, the slot that was made for it, with
whatever contents were fixed since. No name used elsewhere means a slot of the function, unless the
function declares variables and is named like the global scope. -/
theorem scope_isolated {p : Program} {settings : Settings} {l : Layout}
    (isLayout : ofProgram p settings = .ok l) {f : FunctionDef} (isFunction : f ∈ p.functions)
    (ceiling : Nat) (events : List SlotTable.Event) :
    ∃ own, Owns p settings f own ∧ own <:+: l.table.slots ∧
      (∀ x ∈ f.variables, ∃ s ∈ own, s.name = x ∧ s.asmName = SlotTable.storedName x f.name ∧
        ∃ s', (l.table.after ceiling events).lookup? x (some f.name) = some s' ∧ s.Becomes s') ∧
      ((∀ name scope s', scope ≠ some f.name →
          (l.table.after ceiling events).lookup? name scope = some s' → ∀ s ∈ own, ¬ s.Becomes s') ↔
        (f.name = Slot.globalScope → f.variables = [])) := by
  obtain ⟨before, rest, listed⟩ := List.append_of_mem isFunction
  obtain ⟨l₀, l₁, first, declared, later⟩ := ofProgram_cut listed isLayout
  obtain ⟨own, declares⟩ := l₀.declareFunction_declares f l₁ declared
  obtain ⟨more, slots⟩ := declareFunctions_slots rest l₁ l later
  have inside : ∀ x ∈ f.variables, ∃ s ∈ own, s.name = x ∧
      s.asmName = SlotTable.storedName x f.name ∧
      ∃ s', (l.table.after ceiling events).inScope? x f.name = some s' ∧ s.Becomes s' := by
    intro x isVariable
    obtain ⟨s, isOwn, name, asmName, found⟩ := declares.found x isVariable
    exact ⟨s, isOwn, name, asmName, SlotTable.inScope?_after events (SlotTable.inScope?_append slots found)⟩
  refine ⟨own, ⟨before, rest, l₀, l₁, listed, first, declared, declares.slots⟩, ?_, ?_, ?_⟩
  · exact ⟨l₀.table.slots, more, by rw [slots, declares.slots]⟩
  · intro x isVariable
    obtain ⟨s, isOwn, name, asmName, s', found, becomes⟩ := inside x isVariable
    refine ⟨s, isOwn, name, asmName, s', ?_, becomes⟩
    rw [SlotTable.lookup?, Option.bind_some, found]
    rfl
  · constructor
    · intro isolated isGlobal
      refine List.eq_nil_iff_forall_not_mem.2 fun x isVariable => ?_
      obtain ⟨s, isOwn, -, -, s', found, becomes⟩ := inside x isVariable
      -- Outside of functions the name means the slot of the function.
      have leaks : (l.table.after ceiling events).lookup? x none = some s' := by
        rw [SlotTable.lookup?, Option.bind_none, Option.none_or, ← isGlobal, found]
      exact isolated x none s' (by simp) leaks s isOwn becomes
    · intro harmless name scope s' elsewhere found s isOwn becomes
      have isScope : s'.scope = f.name := becomes.scope.trans (declares.declared s isOwn).scope
      rcases SlotTable.lookup?_scope found with inScope | isGlobal
      · exact elsewhere (inScope.trans (congrArg some isScope))
      · rw [declares.nothing (harmless (isScope.symm.trans isGlobal))] at isOwn
        cases isOwn

end Layout

namespace Sample

/-- A function whose parameter hides a global variable. -/
def sheltered : FunctionDef :=
  ⟨"f", .void, false, [⟨.long, false, "x", 2⟩],
    [.declaration ⟨.long, false, [⟨"a", false, some 2, none, 2⟩], 2⟩], 2⟩

/-- A function with a variable, named like the global scope. -/
def leaking : FunctionDef :=
  ⟨"global", .void, false, [], [.declaration ⟨.long, false, [⟨"y", false, none, none, 3⟩], 3⟩], 3⟩

def scopes : Program where
  structs := []
  globals := [.declaration ⟨.long, false, [⟨"x", false, none, none, 1⟩], 1⟩]
  functions := [sheltered, leaking]

end Sample

namespace Layout

/-- The parameter and the array of one function cannot be named from elsewhere. The variable of the other
can. -/
theorem scope_isolated_scopes : ∃ l, ofProgram Sample.scopes {} = .ok l ∧
    (∃ own, Owns Sample.scopes {} Sample.sheltered own ∧
      (∃ s ∈ own, s.asmName = "f_x" ∧ ∃ s', l.table.lookup? "x" (some "f") = some s' ∧ s.Becomes s') ∧
      ∀ name scope s', scope ≠ some "f" → l.table.lookup? name scope = some s' →
        ∀ s ∈ own, ¬ s.Becomes s') ∧
    ∃ own, Owns Sample.scopes {} Sample.leaking own ∧
      ¬ ∀ name scope s', scope ≠ some "global" → l.table.lookup? name scope = some s' →
        ∀ s ∈ own, ¬ s.Becomes s' := by
  obtain ⟨l, isLayout, -⟩ : (ofProgram Sample.scopes {}).Succeeds fun _ => True := by decide +kernel
  refine ⟨l, isLayout, ?_, ?_⟩
  · obtain ⟨own, owns, -, inside, isolated⟩ :=
      scope_isolated isLayout (f := Sample.sheltered) (by simp [Sample.scopes]) 0 []
    obtain ⟨s, isOwn, -, asmName, found⟩ := inside "x" (by decide)
    exact ⟨own, owns, ⟨s, isOwn, asmName.trans (by decide), found⟩, isolated.2 (by decide)⟩
  · obtain ⟨own, owns, -, -, isolated⟩ :=
      scope_isolated isLayout (f := Sample.leaking) (by simp [Sample.scopes]) 0 []
    exact ⟨own, owns, mt isolated.1 (by decide)⟩

end Layout

end ContractCompiler
