import ContractCompiler.Proofs.Account
import ContractCompiler.Proofs.Flow.Meets

/-!
# Proofs.Codegen.Settle — what the code of expressions does

`Does` ties an action to an account: its code calls what the account lists, and the steps that the
account leaves are the ones that are put off behind it. In a condition no step can be put off, and what
compiles there leaves none.

If every call does what the signature of the function says, the code of an expression is run from its
first line to its end, and leaves the stack as high as it found it (`Rises`). On the way it comes by one
line for each step that is done after the use of a variable, unless the step is still put off when the
code ends (`Settles`). The lines of the steps of a jump stand before the first jump out of it (`Decides`).

The lines are accounted for while no step is nested in the target of another (`Node.postDepth`). The
target of a step is evaluated twice, so that a step inside of it happens twice.
-/

namespace ContractCompiler

set_option autoImplicit false

/-! ## Code that leaves the stack higher by some words -/

/-- The labels of `exits`, met at the height `h`. -/
def exitsAt (exits : List String) (h : Int) : String → Int → Prop := fun l x => l ∈ exits ∧ x = h

/-- Control runs through the code, or leaves it to one of the labels `exits` with the stack as it was
found. At the end of the code it is higher by `gain` words. -/
structure Rises (calls : Calls) (exits : List String) (gain : Nat) (code : List Instr) : Prop where
  closed : Closed exits code
  level : ∀ (result h : Int), 0 ≤ h → Level calls result (exitsAt exits h) h code (h + gain)

namespace Rises

variable {calls : Calls} {exits exits' : List String} {gain gain' : Nat} {code rest : List Instr}

theorem of_plain (plain : ∀ i ∈ code, i.isPlain = true) : Rises calls exits 0 code where
  closed := .of_plain plain
  level result h above := by simpa using Level.of_plain plain above

theorem nil : Rises calls exits 0 [] := of_plain (by simp)

theorem label (l : String) : Rises calls exits 0 [.label l] := of_plain (by simp [Instr.isPlain])

theorem jump {i : Instr} {l : String} (target : i.target? = some l) (mem : l ∈ exits) :
    Rises calls exits 0 [i] where
  closed := .jump target mem
  level result h above := by simpa using Level.jump target above ⟨mem, rfl⟩

theorem append (first : Rises calls exits 0 code) (second : Rises calls exits gain rest) :
    Rises calls exits gain (code ++ rest) where
  closed := first.closed.append second.closed
  level result h above := by
    have level := first.level result h above
    rw [Int.natCast_zero, Int.add_zero] at level
    exact level.append (second.level result h above)

theorem levelWith (rises : Rises calls [] gain code) (exit : String → Int → Prop) (result : Int)
    {h : Int} (above : 0 ≤ h) : Level calls result exit h code (h + gain) :=
  (rises.level result h above).widen fun l _ ⟨mem, _⟩ => by cases mem

/-- Code that puts words on the stack one after the other. -/
theorem stack (first : Rises calls [] gain code) (second : Rises calls [] gain' rest) :
    Rises calls [] (gain + gain') (code ++ rest) where
  closed := first.closed.append second.closed
  level result h above := by
    rw [Int.natCast_add, ← Int.add_assoc]
    exact (first.level result h above).append (second.levelWith _ result (by omega))

theorem widen (rises : Rises calls exits' gain code) (wider : ∀ l ∈ exits', l ∈ exits) :
    Rises calls exits gain code where
  closed := rises.closed.widen wider
  level result h above := (rises.level result h above).widen fun l _ ⟨mem, same⟩ => ⟨wider l mem, same⟩

theorem ofNone (rises : Rises calls [] gain code) : Rises calls exits gain code :=
  rises.widen (by simp)

/-- A label of the code is no longer one to leave it. -/
theorem close {l : String} {before after : List Instr} (before_rises : Rises calls exits' 0 before)
    (rises : Rises calls (l :: exits) gain (before ++ .label l :: after)) :
    Rises calls exits gain (before ++ .label l :: after) where
  closed := by
    refine rises.closed.close fun l' mem => ?_
    rcases List.mem_cons.1 mem with rfl | mem
    · exact .inl (Instr.mem_labels.2 (by simp))
    · exact .inr mem
  level result h above := by
    refine (rises.level result h above).close fun l' x ⟨mem, same⟩ => ?_
    rcases List.mem_cons.1 mem with rfl | mem
    · refine .inl ?_
      have flat : h + net calls result before = h := by
        simpa using (before_rises.level result h above).ends
      rw [leveled_append, flat, same]
      exact List.mem_append_right _ List.mem_cons_self
    · exact .inr ⟨mem, same⟩

end Rises

/-! ## Accounts -/

namespace Account

/-- What is done with the steps that were put off done behind it. -/
def settle (a : Account) : Account := ⟨a.calls ++ (Node.redo a.left).calls, (Node.redo a.left).left⟩

end Account

namespace Node

/-- Settling an evaluation is doing its first two rounds. -/
theorem settle_rounds (n : Node) : (n.rounds 0).settle = n.rounds.settled 0 := by
  rw [Account.settle, ← n.rounds_succ]
  rfl

theorem settle_both (left right : Node) :
    (left.rounds 0 ++ right.rounds 0).settle = (left.rounds ++ right.rounds).settled 0 := by
  rw [Account.settle, Account.left_append, redo_append, ← left.rounds_succ, ← right.rounds_succ]
  rfl

end Node

namespace Codegen

variable {α β : Type}

/-- The code calls what the account lists, and leaves the steps put off that it lists. -/
structure Accounted (a : Account) (ctx : Context) (s : State) (code : List Instr) (s' : State) : Prop where
  calls : Instr.callees code = a.calls
  deferred : s'.deferred = s.deferred ++ a.left
  none : ctx.inCondition = true → a.left = []

def Does (a : Account) (m : Codegen α) : Prop :=
  ∀ (ctx : Context) (s : State), m.Ends ctx s fun _ code s' => Accounted a ctx s code s'

section Does

variable {a b : Account} {ctx : Context} {s s₁ s₂ : State} {code code' : List Instr}

theorem Accounted.of_same (noCall : Instr.callees code = []) (same : s₁.deferred = s.deferred) :
    Accounted .nothing ctx s code s₁ :=
  ⟨noCall, by simp [same], fun _ => rfl⟩

theorem Accounted.append (first : Accounted a ctx s code s₁) (second : Accounted b ctx s₁ code' s₂) :
    Accounted (a ++ b) ctx s (code ++ code') s₂ where
  calls := by simp [first.calls, second.calls]
  deferred := by simp [first.deferred, second.deferred]
  none inCondition := by simp [first.none inCondition, second.none inCondition]

/-- Code that calls nothing and puts nothing off, behind other code. -/
theorem Accounted.quiet (first : Accounted a ctx s code s₁) (noCall : Instr.callees code' = [])
    (same : s₂.deferred = s₁.deferred) : Accounted a ctx s (code ++ code') s₂ := by
  simpa using first.append (.of_same noCall same)

theorem Straight.accounted {m : Codegen α} (straight : Straight m) (ctx : Context) (s : State) :
    m.Ends ctx s fun _ code s' => (∀ i ∈ code, i.isPlain = true) ∧ Accounted .nothing ctx s code s' :=
  (straight.ends ctx s).mono fun _ _ _ ⟨plain, same, noCall⟩ => ⟨plain, .of_same noCall same⟩

namespace Does

variable {m : Codegen α} {f : α → Codegen β}

theorem fail (e : CompileError) : Does a (Codegen.fail e : Codegen α) := fun _ _ => .fail e

theorem of_straight (straight : Straight m) : Does .nothing m :=
  fun ctx s => (straight.accounted ctx s).mono fun _ _ _ ⟨_, accounted⟩ => accounted

theorem emit {i : Instr} (noCall : Instr.callees [i] = []) : Does .nothing (Codegen.emit i) :=
  fun _ _ => .emit (.of_same noCall rfl)

theorem bind (first : Does a m) (rest : ∀ x, Does b (f x)) : Does (a ++ b) (m >>= f) :=
  fun ctx s => .bind ((first ctx s).mono fun x _ s₁ accounted =>
    (rest x ctx s₁).mono fun _ _ _ accounted' => accounted.append accounted')

/-- An action that calls nothing and puts nothing off, behind another. -/
theorem followed (first : Does a m) (rest : ∀ x, Does .nothing (f x)) : Does a (m >>= f) := by
  simpa using first.bind rest

theorem andThen (first : Does a m) (rest : ∀ x, Straight (f x)) : Does a (m >>= f) :=
  first.followed fun x => of_straight (rest x)

/-- An action behind one that calls nothing and puts nothing off. -/
theorem behind (first : Does .nothing m) (rest : ∀ x, Does a (f x)) : Does a (m >>= f) := by
  simpa using first.bind rest

theorem after (first : Straight m) (rest : ∀ x, Does a (f x)) : Does a (m >>= f) :=
  (of_straight first).behind rest

end Does

end Does

/-! ## What is due -/

/-- The lines of put-off steps on variables. -/
def pendingLines (pending : List (Step × Node)) : List Instr :=
  pending.filterMap fun p => Node.stepLine? p.1 p.2

@[simp] theorem pendingLines_nil : pendingLines [] = [] := rfl

@[simp] theorem pendingLines_append (pending pending' : List (Step × Node)) :
    pendingLines (pending ++ pending') = pendingLines pending ++ pendingLines pending' :=
  List.filterMap_append

theorem pendingLines_singleton (step : Step) (target : Node) :
    pendingLines [(step, target)] = (Node.stepLine? step target).toList := by
  cases isLine : Node.stepLine? step target <;> simp [pendingLines, isLine]

/-- What the code of an expression is held to. -/
structure Due where
  /-- The calls are known. -/
  known : Prop
  /-- The steps are not nested. -/
  flat : Prop
  account : Account
  /-- The lines of the steps. -/
  steps : List Instr

namespace Due

def nothing : Due := ⟨True, True, .nothing, []⟩

instance : Append Due := ⟨fun p q =>
  ⟨p.known ∧ q.known, p.flat ∧ q.flat, p.account ++ q.account, p.steps ++ q.steps⟩⟩

@[simp] theorem append_nothing (p : Due) : p ++ nothing = p := by
  show Due.mk (p.known ∧ True) (p.flat ∧ True) (p.account ++ .nothing) (p.steps ++ []) = p
  simp

@[simp] theorem nothing_append (p : Due) : nothing ++ p = p := by
  show Due.mk (True ∧ p.known) (True ∧ p.flat) (.nothing ++ p.account) ([] ++ p.steps) = p
  simp

/-- The steps of the second are done on a condition only. -/
def before (p q : Due) : Due := { p ++ q with steps := p.steps }

/-- The steps that were put off are done. -/
def settle (p : Due) : Due := { p with account := p.account.settle }

theorem settle_eq {p : Due} (nothing : p.account.left = []) : p.settle = p := by
  have same : p.account.settle = p.account :=
    Account.eq_of_fields (by simp [Account.settle, nothing]) (by simp [Account.settle, nothing])
  rw [settle, same]

variable (functions : List Signature)

def ofSteps (steps : List (Step × Node)) : Due :=
  ⟨∀ p ∈ steps, p.2.CallsOf functions, ∀ p ∈ steps, p.2.postDepth = 0, Node.redo steps, pendingLines steps⟩

/-- The steps that are put off can be done. -/
structure Queued (p : Due) : Prop where
  calls : p.known → ∀ q ∈ p.account.left, q.2.CallsOf functions
  flat : p.flat → ∀ q ∈ p.account.left, q.2.postDepth = 0

variable {functions}

theorem Queued.append {p q : Due} (queued : p.Queued functions) (queued' : q.Queued functions) :
    (p ++ q).Queued functions where
  calls known := List.forall_mem_append.2 ⟨queued.calls known.1, queued'.calls known.2⟩
  flat flat := List.forall_mem_append.2 ⟨queued.flat flat.1, queued'.flat flat.2⟩

/-- Nothing is left once steps are done that are not nested. -/
theorem Queued.left_eq_nil {p : Due} (queued : p.Queued functions) (flat : p.flat) :
    p.settle.account.left = [] := by
  refine List.eq_nil_iff_forall_not_mem.2 fun r mem => ?_
  obtain ⟨q, listed, mem⟩ := Node.mem_left_redo.1 mem
  rw [Node.left_eq_nil (Nat.le_of_eq (queued.flat flat q listed))] at mem
  cases mem

end Due

end Codegen

namespace Node

open Codegen (Due)

def due (functions : List Signature) (n : Node) : Due :=
  ⟨n.CallsOf functions, n.postDepth ≤ 1, n.rounds 0, n.stepLines⟩

theorem due_queued (functions : List Signature) (n : Node) : (n.due functions).Queued functions where
  calls calls p mem := callsOf_postStep n calls p (n.mem_postSteps_of_left 0 p mem)
  flat flat p mem := by
    have below := n.postDepth_of_postStep p (n.mem_postSteps_of_left 0 p mem)
    have flat : n.postDepth ≤ 1 := flat
    omega

end Node

namespace Codegen

variable {α β : Type}

/-! ## Values -/

section Settles

variable (functions : List Signature)

/-- Code that comes by the lines `settled`, and with the steps that it leaves put off by all that is due. -/
structure Settled (p : Due) (gain : Nat) (settled code : List Instr) : Prop where
  comesBy : Meets settled code
  rises : Rises (Signature.calls functions) [] gain code
  counted : p.flat → (settled ++ pendingLines p.account.left).Perm p.steps

/-- The code does what is due. -/
structure Due.Paid (p : Due) (gain : Nat) (ctx : Context) (s : State) (code : List Instr) (s' : State) :
    Prop where
  accounted : Accounted p.account ctx s code s'
  settled : p.known → ∃ settled, Settled functions p gain settled code

/-- The action does what is due. -/
def Settles (p : Due) (gain : Nat) (m : Codegen α) : Prop :=
  ∀ (ctx : Context) (s : State), m.Ends ctx s fun _ code s' => p.Paid functions gain ctx s code s'

variable {functions} {p q : Due} {gain gain' : Nat}

theorem Settled.append {settled settled' code rest : List Instr}
    (first : Settled functions p gain settled code) (second : Settled functions q gain' settled' rest) :
    Settled functions (p ++ q) (gain + gain') (settled ++ settled') (code ++ rest) where
  comesBy := first.comesBy.append second.comesBy
  rises := first.rises.stack second.rises
  counted flat := by
    show (settled ++ settled' ++ pendingLines (p.account.left ++ q.account.left)).Perm (p.steps ++ q.steps)
    rw [pendingLines_append, List.append_assoc]
    refine .trans (.append_left _ (List.perm_append_comm_assoc ..)) ?_
    rw [← List.append_assoc]
    exact (first.counted flat.1).append (second.counted flat.2)

/-- Code without lines of its own to come by. -/
theorem Settled.before {settled code rest : List Instr} (first : Settled functions p gain settled code)
    (rises : Rises (Signature.calls functions) [] 0 rest) :
    Settled functions p gain settled (code ++ rest) where
  comesBy := by simpa using first.comesBy.append (.part rises.closed)
  rises := first.rises.stack rises
  counted := first.counted

section Paid

variable {ctx : Context} {s s₁ s₂ : State} {code code' : List Instr}

theorem Due.Paid.append (first : p.Paid functions gain ctx s code s₁)
    (second : q.Paid functions gain' ctx s₁ code' s₂) :
    (p ++ q).Paid functions (gain + gain') ctx s (code ++ code') s₂ where
  accounted := first.accounted.append second.accounted
  settled known := by
    obtain ⟨settled, holds⟩ := first.settled known.1
    obtain ⟨settled', holds'⟩ := second.settled known.2
    exact ⟨_, holds.append holds'⟩

/-- Plain code behind it. -/
theorem Due.Paid.plain (first : p.Paid functions gain ctx s code s₁) (plain : ∀ i ∈ code', i.isPlain = true)
    (accounted : Accounted .nothing ctx s₁ code' s₂) : p.Paid functions gain ctx s (code ++ code') s₂ where
  accounted := by simpa using first.accounted.append accounted
  settled known := by
    obtain ⟨settled, holds⟩ := first.settled known
    exact ⟨settled, holds.before (.of_plain plain)⟩

end Paid

namespace Settles

variable {m : Codegen α} {f : α → Codegen β}

theorem does (settles : Settles functions p gain m) : Does p.account m :=
  fun ctx s => (settles ctx s).mono fun _ _ _ holds => holds.1

theorem of_straight (straight : Straight m) : Settles functions .nothing 0 m :=
  fun ctx s => (straight.accounted ctx s).mono fun _ _ _ ⟨plain, accounted⟩ =>
    ⟨accounted, fun _ => ⟨[], .part (.of_plain plain), .of_plain plain, fun _ => .refl _⟩⟩

theorem fail (e : CompileError) : Settles functions p gain (Codegen.fail e : Codegen α) :=
  fun _ _ => .fail e

/-- The same lines are due, if more is known. -/
theorem of (settles : Settles functions p gain m) (known : q.known → p.known) (flat : q.flat → p.flat)
    (account : p.account = q.account := by rfl) (steps : q.flat → p.steps.Perm q.steps := by exact fun _ => .refl _) :
    Settles functions q gain m := by
  intro ctx s
  refine (settles ctx s).mono ?_
  rintro _ code s' ⟨accounted, holds⟩
  rw [account] at accounted
  refine ⟨accounted, fun isKnown => ?_⟩
  obtain ⟨settled, comesBy, rises, counted⟩ := holds (known isKnown)
  exact ⟨settled, comesBy, rises, fun isFlat => (account ▸ counted (flat isFlat)).trans (steps isFlat)⟩

theorem bind (first : Settles functions p gain m) (rest : ∀ a, Settles functions q gain' (f a)) :
    Settles functions (p ++ q) (gain + gain') (m >>= f) := by
  intro ctx s
  refine .bind ((first ctx s).mono ?_)
  rintro a code s₁ paid
  exact (rest a ctx s₁).mono fun _ _ _ paid' => paid.append paid'

/-- One value after the other. -/
theorem both (first : Settles functions p 0 m) (rest : ∀ a, Settles functions q 0 (f a)) :
    Settles functions (p ++ q) 0 (m >>= f) := first.bind rest

/-- An action of which nothing is due after the other. -/
theorem followed (first : Settles functions p gain m) (rest : ∀ a, Settles functions .nothing 0 (f a)) :
    Settles functions p gain (m >>= f) := by
  simpa using first.bind rest

/-- A straight action after the other. -/
theorem andThen (first : Settles functions p gain m) (rest : ∀ a, Straight (f a)) :
    Settles functions p gain (m >>= f) :=
  first.followed fun a => of_straight (rest a)

/-- A straight action before the other. -/
theorem after (first : Straight m) (rest : ∀ a, Settles functions p gain (f a)) :
    Settles functions p gain (m >>= f) := by
  have front : Settles functions .nothing 0 m := of_straight first
  simpa using front.bind rest

theorem labelId {line : Nat} {f : String → Codegen α} (rest : ∀ id, Settles functions p gain (f id)) :
    Settles functions p gain (Codegen.labelId line >>= f) :=
  fun ctx s => .bind (.of rfl ((rest _ ctx { s with labels := s.labels + 1 }).mono
    fun _ _ _ ⟨accounted, holds⟩ => ⟨⟨accounted.calls, accounted.deferred, accounted.none⟩, holds⟩))

end Settles

end Settles

/-! ## Steps that are done -/

/-- How the targets of put-off steps are evaluated. -/
structure EvalSettles (functions : List Signature) (eval : Node → Codegen Operand) : Prop where
  settles : ∀ n : Node, Settles functions (n.due functions) 0 (eval n)
  atVar : ∀ (n : Node) (x : Slot), n.var? = some x → ∀ ctx s,
    (eval n).Ends ctx s fun o code s' => o.slot = x ∧ code = [] ∧ s'.deferred = s.deferred

/-- A step on a variable is one line. -/
theorem update_ends_var {n : Node} {x : Slot} (isVar : n.var? = some x) (u : Update) (line : Nat)
    (ctx : Context) (s : State) :
    (update u x line).Ends ctx s fun _ code s' => code = [u.instr x.asmName] ∧ s' = s := by
  cases n with
  | slot y _ =>
    simp only [Node.var?, Option.ite_none_right_eq_some, Option.some.injEq, Bool.and_eq_true] at isVar
    obtain ⟨⟨direct, assignable⟩, rfl⟩ := isVar
    have writable : y.isUnwritable = false ∧ y.kind ≠ .constant := by
      unfold Node.isAssignable at assignable
      cases kind : y.kind <;> simp_all [Slot.isUnwritable, Slot.isDirect]
    have noOffset : y.offset = none := by simpa [Slot.isDirect] using direct
    have resolved : (resolve y line).Ends ctx s fun o code s' => o = ⟨y, []⟩ ∧ code = [] ∧ s' = s := by
      unfold resolve place
      simp only [writable, false_and, if_false, noOffset]
      exact .bind (.pure (.pure ⟨rfl, rfl, rfl⟩))
    unfold update
    simp only [writable, Bool.false_eq_true, if_false]
    refine .bind (resolved.mono ?_)
    rintro _ _ _ ⟨rfl, rfl, rfl⟩
    exact .bind (.emit (.pure ⟨rfl, rfl⟩))
  | _ => cases isVar

section Steps

variable {functions : List Signature} {eval : Node → Codegen Operand}
  (evalSettles : EvalSettles functions eval) (line : Nat)
include evalSettles

/-- A step is done by its line if it is on a variable. -/
theorem step_settles (step : Step) (target : Node) {q : Due} {f : Operand → Codegen Unit}
    (rest : ∀ o, Settles functions q 0 (f o)) :
    Settles functions (.ofSteps functions [(step, target)] ++ q) 0
      (eval target >>= fun o => update (.step step) o.slot line >>= fun _ => f o) := by
  cases isVar : target.var? with
  | some x =>
    intro ctx s
    refine .bind ((evalSettles.atVar target x isVar ctx s).mono ?_)
    rintro o _ s₁ ⟨rfl, rfl, same⟩
    refine .bind ((update_ends_var isVar (.step step) line ctx s₁).mono ?_)
    rintro _ _ s₂ ⟨rfl, rfl⟩
    refine (rest o ctx s₂).mono ?_
    rintro _ code s' ⟨accounted, holds⟩
    have plain : ((Update.step step).instr o.slot.asmName).isPlain = true := by cases step <;> rfl
    have noCall : Instr.callees [(Update.step step).instr o.slot.asmName] = [] := by cases step <;> rfl
    have nothing : Node.redo [(step, target)] = .nothing := by
      cases target with
      | slot _ _ => rfl
      | _ => cases isVar
    refine ⟨?_, fun known => ?_⟩
    · show Accounted (Node.redo [(step, target)] ++ q.account) ..
      rw [nothing]
      exact (Accounted.of_same noCall same).append accounted
    · obtain ⟨settled, holds⟩ := holds known.2
      have first : Settled functions (.ofSteps functions [(step, target)]) 0
          [(Update.step step).instr o.slot.asmName] [(Update.step step).instr o.slot.asmName] := by
        refine ⟨.line plain, .of_plain (by simpa using plain), fun _ => ?_⟩
        simp [Due.ofSteps, nothing, pendingLines_singleton, Node.stepLine?, isVar]
      exact ⟨_, first.append holds⟩
  | none =>
    have value : Settles functions (.ofSteps functions [(step, target)]) 0 (eval target) := by
      refine (evalSettles.settles target).of (fun known => ?_) (fun flat => ?_) (by simp [Due.ofSteps, Node.due])
        fun flat => ?_
      · exact known _ List.mem_cons_self
      · exact Nat.le_succ_of_le (Nat.le_of_eq (flat _ List.mem_cons_self))
      · show target.stepLines.Perm (pendingLines [(step, target)])
        rw [target.stepLines_eq_nil (flat _ List.mem_cons_self), pendingLines_singleton, Node.stepLine?, isVar]
        rfl
    exact value.both fun o => .after (update_straight line _ _) fun _ => rest o

/-- Steps are done one after the other. -/
theorem doSteps_settles (steps : List (Step × Node)) :
    Settles functions (.ofSteps functions steps) 0 (doSteps eval line steps) := by
  induction steps with
  | nil => exact (Settles.of_straight (.pure _)).of (fun _ => trivial) fun _ => trivial
  | cons first rest ih =>
    refine (step_settles evalSettles line first.1 first.2 fun o => .after (.release o.holds) fun _ => ih).of
      (fun known => ?_) (fun flat => ?_) ?_ fun _ => ?_
    · exact ⟨List.forall_mem_singleton.2 (known _ List.mem_cons_self), (List.forall_mem_cons.1 known).2⟩
    · exact ⟨List.forall_mem_singleton.2 (flat _ List.mem_cons_self), (List.forall_mem_cons.1 flat).2⟩
    · show Node.redo [first] ++ Node.redo rest = _
      rw [← Node.redo_append]
      rfl
    · show (pendingLines [first] ++ pendingLines rest).Perm _
      rw [← pendingLines_append]
      exact .refl _

/-- The steps put off since there were `old` of them are done. -/
theorem applyDeferred_settles {old pending : List (Step × Node)} (ctx : Context) {s : State}
    (deferred : s.deferred = old ++ pending) :
    (applyDeferred eval old.length line).Ends ctx s fun _ code s' =>
      (Due.ofSteps functions pending).Paid functions 0 ctx { s with deferred := old } code s' := by
  refine .bind (.of rfl ?_)
  rw [deferred, List.drop_left, List.take_left]
  exact doSteps_settles evalSettles line pending ctx _

/-- What was put off is done behind the code. -/
theorem applyDeferred_flushes {p : Due} (queued : p.Queued functions) {ctx : Context} {s s₁ : State}
    {code : List Instr} (paid : p.Paid functions 0 ctx s code s₁) :
    (applyDeferred eval s.deferred.length line).Ends ctx s₁ fun _ code' s' =>
      p.settle.Paid functions 0 ctx s (code ++ code') s' := by
  obtain ⟨accounted, holds⟩ := paid
  refine (applyDeferred_settles evalSettles line ctx accounted.deferred).mono ?_
  rintro _ code' s' ⟨accounted', holds'⟩
  refine ⟨⟨?_, accounted'.deferred, accounted'.none⟩, fun known => ?_⟩
  · rw [Instr.callees_append, accounted.calls, accounted'.calls]
    rfl
  · obtain ⟨settled, holds⟩ := holds known
    obtain ⟨settled', holds'⟩ := holds' (queued.calls known)
    refine ⟨settled ++ settled', holds.comesBy.append holds'.comesBy, holds.rises.append holds'.rises, fun flat => ?_⟩
    rw [List.append_assoc]
    exact ((holds'.counted (queued.flat flat)).append_left _).trans (holds.counted flat)

end Steps

/-! ## Jumps -/

section Decides

variable (functions : List Signature)

/-- The code jumps to `target` or runs to its end. It comes by the lines that are due before the first jump
to the target. -/
def Decided (p : Due) (target : String) (code : List Instr) : Prop :=
  ∃ first second settled : List Instr, code = first ++ second ∧ Meets settled first ∧
    Rises (Signature.calls functions) [] 0 first ∧ Rises (Signature.calls functions) [target] 0 second ∧
      (p.flat → settled.Perm p.steps)

def Decides (p : Due) (target : String) (m : Codegen Unit) : Prop :=
  ∀ (ctx : Context) (s : State), m.Ends ctx s fun _ code s' => Accounted p.account ctx s code s' ∧
    (p.known → Decided functions p target code)

end Decides

/-- One branch after plain lines. -/
theorem compare_branches (relation : Relation) (left : Slot) (right : Option Slot) (target : String)
    (line : Nat) (ctx : Context) (s : State) :
    (compare relation left right target line).Ends ctx s fun _ code s' => ∃ (lines : List Instr)
      (i : Instr), code = lines ++ [i] ∧ (∀ i ∈ lines, i.isPlain = true) ∧ i.target? = some target ∧
        Accounted .nothing ctx s code s' := by
  have ifZero : ∀ isZero tested, (jumpIfZero isZero tested target line).Ends ctx s fun _ code s' =>
      ∃ (lines : List Instr) (i : Instr), code = lines ++ [i] ∧ (∀ i ∈ lines, i.isPlain = true) ∧
        i.target? = some target ∧ Accounted .nothing ctx s code s' := by
    intro isZero tested
    refine .bind (((resolve_straight line tested).accounted ctx s).mono ?_)
    rintro o lines s' ⟨plain, accounted⟩
    dsimp only
    split <;> exact .bind (.emit (.release ⟨lines, _, rfl, plain, rfl, accounted.quiet rfl rfl⟩))
  have ifHolds : ∀ left right, (jumpIf relation left right target line).Ends ctx s fun _ code s' =>
      ∃ (lines : List Instr) (i : Instr), code = lines ++ [i] ∧ (∀ i ∈ lines, i.isPlain = true) ∧
        i.target? = some target ∧ Accounted .nothing ctx s code s' := by
    intro left right
    refine .bind (((resolve_straight line left).accounted ctx s).mono ?_)
    rintro l lines s₁ ⟨plain, accounted⟩
    refine .bind (.holding (((resolve_straight line right).accounted ctx s₁).mono ?_))
    rintro r lines' s₂ ⟨plain', accounted'⟩
    refine .bind (.emit (.release ⟨lines ++ lines', _, by simp; rfl, ?_, rfl,
      accounted.quiet (by simp [accounted'.calls]; rfl) (accounted'.deferred.trans (List.append_nil _))⟩))
    exact fun i mem => (List.mem_append.1 mem).elim (plain i) (plain' i)
  unfold compare
  dsimp only
  split
  · split
    · exact ifZero _ _
    · split
      · exact ifZero _ _
      · split
        · exact ifZero _ _
        · exact ifHolds _ _
  · split
    · exact ifHolds _ _
    · exact .fail _

section Jumps

variable {functions : List Signature} {eval : Node → Codegen Operand}
  (evalSettles : EvalSettles functions eval) (line : Nat) {p q : Due}

/-- A branch behind code that leaves nothing put off. -/
theorem compare_decides {relation : Relation} {left : Slot} {right : Option Slot} {target : String}
    {holds : List Slot} {ctx : Context} {s s₁ : State} {code : List Instr} (nothing : p.flat → p.account.left = [])
    (front : p.Paid functions 0 ctx s code s₁) :
    (compare relation left right target line >>= fun _ => release holds).Ends ctx s₁ fun _ code' s' =>
      Accounted p.account ctx s (code ++ code') s' ∧ (p.known → Decided functions p target (code ++ code')) := by
  refine .bind ((compare_branches relation left right target line ctx s₁).mono ?_)
  rintro _ _ s₂ ⟨lines, i, rfl, plain, isTarget, accounted⟩
  refine .release ⟨?_, fun known => ?_⟩
  · exact front.1.quiet (by simpa using accounted.calls) (accounted.deferred.trans (List.append_nil _))
  · obtain ⟨settled, comesBy, rises, counted⟩ := front.2 known
    refine ⟨code, lines ++ [i], settled, by simp, comesBy, rises,
      .append (.of_plain plain) (.jump isTarget (by simp)), fun flat => ?_⟩
    simpa [nothing flat] using counted flat

include evalSettles

/-- A jump on a value does the steps put off in it first. -/
theorem jumpOnValue_decides {value : Codegen Operand} (settles : Settles functions p 0 value)
    (queued : p.Queued functions) (target : String) (when : Bool) :
    Decides functions p.settle target (jumpOnValue eval value line target when) := by
  intro ctx s
  refine .bind (.of rfl ?_)
  refine .bind ((settles ctx s).mono ?_)
  rintro o code s₁ front
  refine .bind (.of rfl ?_)
  dsimp only
  split
  · rename_i same
    have nothing : p.account.left = [] := by simpa [front.1.deferred] using same
    rw [Due.settle_eq nothing]
    refine .bind (.pure ?_)
    simpa using compare_decides line (fun _ => nothing) front
  · refine .bind (((protect_straight line o).accounted ctx s₁).mono ?_)
    rintro o' lines s₂ ⟨plain, accounted⟩
    refine .bind ((applyDeferred_flushes evalSettles line queued (front.plain plain accounted)).mono ?_)
    rintro _ code' s₃ flushed
    refine .bind (.pure ?_)
    simpa using compare_decides line queued.left_eq_nil flushed

/-- A comparison does the steps put off in its operands first. -/
theorem jumpOnRelation_decides {relation : Relation} {left right : Codegen Operand}
    (settles : Settles functions p 0 left) (settles' : Settles functions q 0 right)
    (queued : p.Queued functions) (queued' : q.Queued functions) (target : String) (when : Bool) :
    Decides functions (p ++ q).settle target (jumpOnRelation eval relation left right line target when) := by
  intro ctx s
  refine .bind (.of rfl ?_)
  refine .bind ((settles ctx s).mono ?_)
  rintro l code s₁ paid
  refine .bind ((settles' ctx s₁).mono ?_)
  rintro r code' s₂ paid'
  have front := paid.append paid'
  refine .bind (.of rfl ?_)
  dsimp only
  split
  · rename_i same
    have nothing : (p ++ q).account.left = [] := by simpa [front.1.deferred] using same
    rw [Due.settle_eq nothing]
    refine .bind (.pure ?_)
    simpa using compare_decides line (fun _ => nothing) front
  · refine .bind (((protect_straight line l).accounted ctx s₂).mono ?_)
    rintro l' lines s₃ ⟨plain, same⟩
    refine .bind (((protect_straight line r).accounted ctx s₃).mono ?_)
    rintro r' lines' s₄ ⟨plain', same'⟩
    refine .bind ((applyDeferred_flushes evalSettles line (queued.append queued')
      ((front.plain plain same).plain plain' same')).mono ?_)
    rintro _ code'' s₅ flushed
    refine .bind (.pure ?_)
    simpa using compare_decides line (queued.append queued').left_eq_nil flushed

end Jumps

end Codegen

end ContractCompiler
