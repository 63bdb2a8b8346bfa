import ContractCompiler.Node.Bind
import ContractCompiler.Proofs.SlotTable

/-!
# Proofs.Bind.Interns — constants do not change what names mean

While code is made, constants are stored behind the variables of a contract. What was found before is
found again, so that a phrase is bound as it was at the start (`Names.phrase_interns`).
-/

namespace ContractCompiler

set_option autoImplicit false

/-! ## Checks -/

/-- Where the first check passes, the second gives the same. -/
def Outcome.Refines {α : Type} (x y : Outcome α) : Prop := ∀ a, x = .ok a → y = .ok a

namespace Outcome.Refines

variable {α β : Type} {x y : Outcome α}

theorem refl (x : Outcome α) : Outcome.Refines x x := fun _ passes => passes

theorem error {e : CompileError} : Outcome.Refines (.error e) y := nofun

theorem bind {f g : α → Outcome β} (first : Outcome.Refines x y)
    (rest : ∀ a, Outcome.Refines (f a) (g a)) : Outcome.Refines (x >>= f) (y >>= g) := by
  intro b passes
  cases x with
  | error e => cases passes
  | ok a =>
    rw [first a rfl]
    exact rest a b passes

theorem guard {c : Prop} [Decidable c] {e : CompileError} {f g : PUnit → Outcome β}
    (rest : Outcome.Refines (f ()) (g ())) :
    Outcome.Refines (if c then throw e >>= f else f ()) (if c then throw e >>= g else g ()) := by
  split
  · exact nofun
  · exact rest

end Outcome.Refines

open Outcome (Refines)

/-! ## Tables -/

namespace SlotTable

variable {t t' : SlotTable} {s : Slot}

theorem Interns.find? (interns : t.Interns t') {name : String} (found : t.find? name = some s) :
    t'.find? name = some s := by
  obtain ⟨kept, slots, -⟩ := interns.slots
  rw [SlotTable.find?] at found
  rw [SlotTable.find?, slots, List.find?_append, found]
  rfl

theorem Interns.members? (interns : t.Interns t') (tag : String) :
    t'.members? tag = t.members? tag := by
  rw [SlotTable.members?, SlotTable.members?, interns.structs]

theorem Interns.inScope? (interns : t.Interns t') {name scope : String}
    (found : t.inScope? name scope = some s) : t'.inScope? name scope = some s := by
  obtain ⟨kept, slots, -⟩ := interns.slots
  rw [SlotTable.inScope?] at found
  rw [SlotTable.inScope?, slots, List.find?_append, found]
  rfl

/-- Constants are stored outside of functions. -/
theorem Interns.inScope?_eq_none (interns : t.Interns t') {name scope : String}
    (absent : t.inScope? name scope = none) (inside : scope ≠ Slot.globalScope) :
    t'.inScope? name scope = none := by
  obtain ⟨kept, slots, constants⟩ := interns.slots
  rw [SlotTable.inScope?] at absent
  rw [SlotTable.inScope?, slots, List.find?_append, absent, Option.none_or]
  refine List.find?_eq_none.2 fun s listed => ?_
  simp [(constants s listed).2, inside.symm]

theorem Interns.lookup? (interns : t.Interns t') {name : String} {function : Option String}
    (found : t.lookup? name function = some s) : t'.lookup? name function = some s := by
  unfold SlotTable.lookup? at found ⊢
  rcases Option.or_eq_some_iff.1 found with here | ⟨absent, outside⟩
  · obtain ⟨scope, rfl, local_⟩ := Option.bind_eq_some_iff.1 here
    exact Option.or_eq_some_iff.2 (.inl (interns.inScope? local_))
  · refine Option.or_eq_some_iff.2 (.inr ⟨?_, interns.inScope? outside⟩)
    cases function with
    | none => rfl
    | some scope =>
      refine interns.inScope?_eq_none absent ?_
      rintro rfl
      simp [show t.inScope? name Slot.globalScope = none from absent] at outside

end SlotTable

/-! ## Names -/

namespace Names

variable {names names' : Names} (interns : names.table.Interns names'.table)
  (functions : names'.functions = names.functions) (scope : names'.scope = names.scope)

section

include interns scope

theorem resolveVariable_interns (name : String) (line : Nat) :
    Refines (names.resolveVariable name line) (names'.resolveVariable name line) := by
  intro s passes
  unfold resolveVariable at passes ⊢
  split at passes
  · rename_i found
    rw [scope, interns.lookup? found]
    exact passes
  · cases passes

theorem valueOf_interns (name : String) (line : Nat) :
    Refines (names.valueOf name line) (names'.valueOf name line) :=
  .bind (resolveVariable_interns interns scope name line) fun _ => .refl _

end

include interns

theorem memberOf_interns (tag field : String) (line : Nat) :
    names'.memberOf tag field line = names.memberOf tag field line := by
  rw [memberOf, memberOf, interns.members?]

include scope in
theorem memberSlot_interns (name : String) (nameLine : Nat) (field : String) (line : Nat) :
    Refines (names.memberSlot name nameLine field line)
      (names'.memberSlot name nameLine field line) := by
  refine .bind (resolveVariable_interns interns scope name nameLine) fun s => ?_
  dsimp only
  split
  · rename_i tag _
    rw [memberOf_interns interns]
    refine .guard (.bind (.refl _) fun _ => ?_)
    cases found : names.table.find? (s.asmName ++ "_" ++ field) with
    | some member =>
      rw [interns.find? found]
      exact .refl _
    | none => exact .error
  · exact .refl _

theorem addressOf?_interns {s : Slot} {a : Int} (known : names.addressOf? s = some a) :
    names'.addressOf? s = some a := by
  unfold addressOf? at known ⊢
  cases kind : s.kind with
  | struct =>
    rw [kind] at known
    cases type : s.type with
    | struct tag =>
      rw [type] at known
      obtain ⟨members, isStruct, known⟩ := Option.bind_eq_some_iff.1 known
      obtain ⟨first, isFirst, known⟩ := Option.bind_eq_some_iff.1 known
      obtain ⟨member, found, known⟩ := Option.bind_eq_some_iff.1 known
      exact Option.bind_eq_some_iff.2 ⟨members, (interns.members? tag).trans isStruct,
        Option.bind_eq_some_iff.2 ⟨first, isFirst,
          Option.bind_eq_some_iff.2 ⟨member, interns.find? found, known⟩⟩⟩
    | _ =>
      rw [type] at known
      cases known
  | _ =>
    -- Only the address of a struct is looked up in the table.
    rw [kind] at known
    cases offset : s.offset with
    | none =>
      rw [offset] at known
      exact known
    | some o =>
      rw [offset] at known
      cases o <;> exact known

theorem addressLiteral_interns (s : Slot) (line : Nat) :
    Refines (names.addressLiteral s line) (names'.addressLiteral s line) := by
  unfold addressLiteral
  cases known : names.addressOf? s with
  | none => exact .error
  | some a =>
    rw [addressOf?_interns interns known]
    exact .refl _

omit interns in
include functions in
theorem checkedCallee_interns (function : String) (count line : Nat) :
    names'.checkedCallee function count line = names.checkedCallee function count line := by
  unfold checkedCallee callee
  rw [functions]

end Names

/-! ## Expressions -/

section

variable {names names' : Names}

mutual

/-- An expression is bound as before. -/
theorem Expr.bind_interns (interns : names.table.Interns names'.table)
    (functions : names'.functions = names.functions) (scope : names'.scope = names.scope) :
    (e : Expr) → Refines (e.bind names) (e.bind names')
  | name n line => by
    rw [bind, bind]
    exact Names.valueOf_interns interns scope n line
  | number digits line => by
    rw [bind, bind]
    exact .refl _
  | call function line args => by
    rw [bind, bind, Names.checkedCallee_interns functions]
    exact .bind (.refl _) fun _ => .bind (bindAll_interns interns functions scope args) fun _ => .refl _
  | index line base position => by
    rw [bind, bind]
    exact .bind (bind_interns interns functions scope base) fun _ =>
      .bind (bind_interns interns functions scope position) fun _ => .refl _
  | member line arrow base field => by
    rw [bind, bind]
    split
    · refine .bind (bind_interns interns functions scope base) fun base => ?_
      unfold Node.throughPointer
      split
      · rw [Names.memberOf_interns interns]
        exact .refl _
      · exact .refl _
    · split
      · exact Names.memberSlot_interns interns scope _ _ _ _
      · exact .refl _
  | prefixed op line operand => by
    have ih := bind_interns interns functions scope operand
    cases op with
    | addressOf =>
      rw [bind, bind]
      split
      · exact .bind (Names.resolveVariable_interns interns scope _ _) fun s =>
          Names.addressLiteral_interns interns s line
      · exact .bind ih fun _ => .bind (.refl _) fun s => Names.addressLiteral_interns interns s line
    | _ =>
      rw [bind, bind]
      exact .bind ih fun _ => .refl _
  | stepped s line operand => by
    rw [bind, bind]
    exact .bind (bind_interns interns functions scope operand) fun _ => .refl _
  | infixed op line left right => by
    have ihL := bind_interns interns functions scope left
    have ihR := bind_interns interns functions scope right
    cases op with
    | assign arith =>
      rw [bind, bind]
      exact .bind ihL fun _ => .bind (.refl _) fun _ => .bind ihR fun _ => .refl _
    | _ =>
      rw [bind, bind]
      exact .bind ihL fun _ => .bind ihR fun _ => .refl _
  | ternary line condition yes no => by
    rw [bind, bind]
    exact .bind (bind_interns interns functions scope condition) fun _ =>
      .bind (bind_interns interns functions scope yes) fun _ =>
        .bind (bind_interns interns functions scope no) fun _ => .refl _

theorem Expr.bindAll_interns (interns : names.table.Interns names'.table)
    (functions : names'.functions = names.functions) (scope : names'.scope = names.scope) :
    (es : List Expr) → Refines (bindAll names es) (bindAll names' es)
  | [] => by
    rw [bindAll, bindAll]
    exact .refl _
  | e :: rest => by
    rw [bindAll, bindAll]
    exact .bind (bind_interns interns functions scope e) fun _ =>
      .bind (bindAll_interns interns functions scope rest) fun _ => .refl _

end

namespace Names

variable (interns : names.table.Interns names'.table)
  (functions : names'.functions = names.functions) (scope : names'.scope = names.scope)

include interns functions scope

/-- A phrase is bound as before. -/
theorem phrase_interns (tokens : List Token) (line : Nat) :
    Refines (names.phrase tokens line) (names'.phrase tokens line) := by
  refine .bind (.refl _) fun found => ?_
  cases found with
  | none => exact .refl _
  | some p =>
    refine .bind ?_ fun _ => .refl _
    cases p with
    | value e => exact .bind (e.bind_interns interns functions scope) fun _ => .refl _
    | control word line value =>
      cases value with
      | none => exact .refl _
      | some e => exact .bind (e.bind_interns interns functions scope) fun _ => .refl _

/-- A condition is bound as before. -/
theorem condition_interns (tokens : List Token) (line : Nat) :
    Refines (names.condition tokens line) (names'.condition tokens line) :=
  .bind (.refl _) fun e => e.bind_interns interns functions scope

end Names

end

end ContractCompiler
