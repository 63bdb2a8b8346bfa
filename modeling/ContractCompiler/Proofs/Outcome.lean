import ContractCompiler.Error

/-!
# Proofs.Outcome — what checks give, and what they are refused for

`Outcome.Ensures` says what holds of the value of a check that passes. A refusal is reported at a line. The
lines of a source are those that `inside` says. A stage refuses a contract for what is wrong with it, or
because an earlier stage broke a promise, which is a defect of the compiler. `Outcome.Within inside strict`
says of a check that it is refused at such a line only and, if `strict` holds, for no defect, together with
what holds if it is not refused. Both have one law for each way to make a check.
-/

namespace ContractCompiler

set_option autoImplicit false

/-! ## Checks that pass -/

/-- What a check gives, if it passes, satisfies `post`. -/
def Outcome.Ensures {α : Type} (x : Outcome α) (post : α → Prop) : Prop := ∀ a, x = .ok a → post a

namespace Outcome.Ensures

variable {α β : Type}

theorem ok {a : α} {post : α → Prop} (holds : post a) : Outcome.Ensures (.ok a) post := by
  rintro _ ⟨⟩
  exact holds

theorem error {e : CompileError} {post : α → Prop} : Outcome.Ensures (.error e) post := nofun

theorem bind {x : Outcome α} {f : α → Outcome β} {post : β → Prop}
    (ensures : Outcome.Ensures x fun a => Outcome.Ensures (f a) post) :
    Outcome.Ensures (x >>= f) post := by
  intro b passes
  cases x with
  | ok a => exact ensures a rfl b passes
  | error e => cases passes

/-- A check that comes first. -/
theorem guard {c : Prop} [Decidable c] {e : CompileError} {f : PUnit → Outcome β} {post : β → Prop}
    (ensures : ¬ c → Outcome.Ensures (f ()) post) :
    Outcome.Ensures (if c then throw e >>= f else f ()) post := by
  split
  · exact bind error
  · exact ensures ‹_›

theorem mono {x : Outcome α} {pre post : α → Prop} (ensures : Outcome.Ensures x pre)
    (weaken : ∀ a, pre a → post a) : Outcome.Ensures x post :=
  fun a passes => weaken a (ensures a passes)

/-- What every step keeps, a run of steps keeps. -/
theorem foldlM {f : β → α → Outcome β} (keeps : β → Prop)
    (l : List α) (step : ∀ b, ∀ a ∈ l, keeps b → Outcome.Ensures (f b a) keeps) {b : β} (holds : keeps b) :
    Outcome.Ensures (l.foldlM f b) keeps := by
  induction l generalizing b with
  | nil => exact ok holds
  | cons a l ih =>
    have rest := fun b a mem => step b a (List.mem_cons_of_mem _ mem)
    exact bind ((step b a List.mem_cons_self holds).mono fun _ holds' => ih rest holds')

end Outcome.Ensures

/-- The check passes, and what it gives satisfies `post`. -/
def Outcome.Succeeds {α : Type} (x : Outcome α) (post : α → Prop) : Prop := ∃ a, x = .ok a ∧ post a

instance {α : Type} (x : Outcome α) (post : α → Prop) [∀ a, Decidable (post a)] : Decidable (x.Succeeds post) :=
  match x with
  | .ok a => decidable_of_iff (post a) (by simp [Outcome.Succeeds])
  | .error e => .isFalse (by simp [Outcome.Succeeds])

/-! ## Checks that are refused -/

/-- The refusal is at a line of the source and, where the compiler has to be right, the fault of the
contract. -/
structure CompileError.Fair (inside : Nat → Prop) (strict : Prop) (e : CompileError) : Prop where
  atLine : inside e.line
  fault : strict → e.isInternal = false

/-- What a check gives satisfies `post`, and if it is refused, that is fair. -/
def Outcome.Within {α : Type} (inside : Nat → Prop) (strict : Prop) (x : Outcome α) (post : α → Prop) : Prop :=
  match x with
  | .ok a => post a
  | .error e => e.Fair inside strict

namespace Outcome.Within

variable {α β : Type} {inside : Nat → Prop} {strict : Prop}

theorem ok {a : α} {post : α → Prop} (holds : post a) : Outcome.Within inside strict (.ok a) post := holds

theorem error {e : CompileError} {post : α → Prop} (atLine : inside e.line) (fault : e.isInternal = false) :
    Outcome.Within inside strict (.error e) post := ⟨atLine, fun _ => fault⟩

/-- A check that a correct compiler passes. -/
theorem defect {e : CompileError} {post : α → Prop} (atLine : inside e.line) (never : ¬ strict) :
    Outcome.Within inside strict (.error e) post := ⟨atLine, fun isStrict => absurd isStrict never⟩

theorem bind {x : Outcome α} {f : α → Outcome β} {post : β → Prop}
    (within : Outcome.Within inside strict x fun a => Outcome.Within inside strict (f a) post) :
    Outcome.Within inside strict (x >>= f) post := by
  cases x with
  | ok a => exact within
  | error e => exact within

/-- A check that comes first. -/
theorem guard {c : Prop} [Decidable c] {e : CompileError} {f : PUnit → Outcome β} {post : β → Prop}
    (atLine : inside e.line) (fault : e.isInternal = false)
    (within : ¬ c → Outcome.Within inside strict (f ()) post) :
    Outcome.Within inside strict (if c then throw e >>= f else f ()) post := by
  split
  · exact bind (error atLine fault)
  · exact within ‹_›

/-- A check that comes last. -/
theorem test {c : Prop} [Decidable c] {a : α} {e : CompileError} {post : α → Prop} (holds : c → post a)
    (atLine : inside e.line) (fault : e.isInternal = false) :
    Outcome.Within inside strict (if c then .ok a else .error e) post := by
  split
  · exact holds ‹_›
  · exact error atLine fault

theorem mono {x : Outcome α} {pre post : α → Prop} (within : Outcome.Within inside strict x pre)
    (weaken : ∀ a, pre a → post a) : Outcome.Within inside strict x post := by
  cases x with
  | ok a => exact weaken a within
  | error e => exact within

theorem and {x : Outcome α} {post post' : α → Prop} (within : Outcome.Within inside strict x post)
    (ensures : Outcome.Ensures x post') : Outcome.Within inside strict x fun a => post a ∧ post' a := by
  cases x with
  | ok a => exact ⟨within, ensures a rfl⟩
  | error e => exact within

/-- What the check gives is what it gives. -/
theorem eq {x : Outcome α} (within : Outcome.Within inside strict x fun _ => True) :
    Outcome.Within inside strict x fun a => x = .ok a :=
  (within.and fun _ passes => passes).mono fun _ holds => holds.2

theorem ensures {x : Outcome α} {post : α → Prop} (within : Outcome.Within inside strict x post) :
    Outcome.Ensures x post := by
  rintro a rfl
  exact within

/-- Nothing is asked of a refusal. -/
theorem of_ensures {x : Outcome α} {post : α → Prop} (ensures : Outcome.Ensures x post) :
    Outcome.Within (fun _ => True) False x post := by
  cases x with
  | ok a => exact ensures a rfl
  | error e => exact ⟨trivial, False.elim⟩

theorem foldlM {f : β → α → Outcome β} {l : List α}
    (within : ∀ b, ∀ a ∈ l, Outcome.Within inside strict (f b a) fun _ => True) (b : β) :
    Outcome.Within inside strict (l.foldlM f b) fun _ => True := by
  induction l generalizing b with
  | nil => exact ok trivial
  | cons a l ih =>
    refine bind ((within b a List.mem_cons_self).mono fun b' _ => ?_)
    exact ih (fun b'' a' mem => within b'' a' (List.mem_cons_of_mem _ mem)) b'

end Outcome.Within

end ContractCompiler
