import ContractCompiler.Proofs.Bind.Calls
import ContractCompiler.Proofs.Codegen.Settle.Node
import ContractCompiler.Proofs.Sentence.Growth

/-!
# Proofs.Sentence.Balance — functions take their parameters and leave their value

The code of a sentence begins and ends with the stack as the caller left it, without the parameters
(`Balanced`): what is pushed on the way is popped again, and a return is made with the value of the
function on the stack, or with nothing if it has none.
-/

namespace ContractCompiler

set_option autoImplicit false

/-- Contents that are fixed at the start are set by directives. -/
theorem SlotTable.freeze_plain {t : SlotTable} {line : Nat} {code directives : List Instr}
    (frozen : (t.freeze line code).2 = .ok directives) : ∀ i ∈ directives, i.isPlain = true := by
  intro i mem
  obtain ⟨-, -, -, dest, hex, -, rfl⟩ := (freeze_sets frozen).2 _ mem
  rfl

namespace Codegen

/-- The function that code returns from. -/
def Context.called (ctx : Context) : Option String := ctx.function.filter (· != "main")

/-- How many words a return leaves on the stack. -/
def Context.result (ctx : Context) : Int :=
  match ctx.called with
  | some function =>
    if ((Signature.find? ctx.functions function).map Signature.returnsValue).getD false then 1 else 0
  | none => 0

/-- The labels that leave the sentences of the innermost loop. -/
def Context.loopExits (ctx : Context) : List String :=
  match ctx.loop with
  | some label => [label ++ "_break", label ++ "_continue"]
  | none => []

/-- The put-off steps call known functions. -/
def Known (functions : List Signature) (s : State) : Prop :=
  ∀ p ∈ s.deferred, p.2.CallsOf functions

variable {α β : Type}

/-- The line of every return follows one that pushes, if a return leaves a word on the stack. -/
def ReturnsPushed (result : Int) (code : List Instr) : Prop :=
  result = 1 → ∀ before after, code = before ++ .ret :: after → ∃ x, before.getLast? = some (.push x)

namespace ReturnsPushed

variable {result : Int} {code rest : List Instr}

theorem append (first : ReturnsPushed result code) (second : ReturnsPushed result rest) :
    ReturnsPushed result (code ++ rest) := by
  intro isOne before after same
  rcases List.append_eq_append_iff.1 same with ⟨between, rfl, isRest⟩ | ⟨between, rfl, isRest⟩
  · obtain ⟨x, last⟩ := second isOne between after isRest
    exact ⟨x, by rw [List.getLast?_append, last]; rfl⟩
  · cases between with
    | nil =>
      obtain ⟨x, last⟩ := second isOne [] after isRest.symm
      cases last
    | cons i between =>
      obtain ⟨rfl, rfl⟩ := List.cons.inj isRest
      exact first isOne before between rfl

theorem of_not_mem (none : .ret ∉ code) : ReturnsPushed result code := by
  rintro - before after rfl
  exact absurd (List.mem_append_right _ List.mem_cons_self) none

theorem of_closed {exits : List String} (closed : Closed exits code) : ReturnsPushed result code :=
  of_not_mem fun mem => by cases closed.stops _ mem

end ReturnsPushed

/-- Code that begins and ends with nothing on the stack, leaves to the labels `exits` in the same way,
and has the labels `defined` where nothing is on the stack. -/
structure BalancedCode (calls : Calls) (result : Int) (exits defined : List String)
    (code : List Instr) : Prop where
  level : Level calls result (exitsAt exits 0) 0 code 0
  labels : ∀ l ∈ defined, (.label l, (0 : Int)) ∈ leveled calls result 0 code
  returns : ReturnsPushed result code

namespace BalancedCode

variable {calls : Calls} {result : Int} {exits exits' defined defined' : List String}
  {code rest : List Instr}

theorem append (first : BalancedCode calls result exits defined code)
    (second : BalancedCode calls result exits defined' rest) :
    BalancedCode calls result exits (defined ++ defined') (code ++ rest) where
  level := first.level.append second.level
  labels l mem := by
    rw [leveled_append, first.level.ends, List.mem_append]
    exact (List.mem_append.1 mem).imp (first.labels l) (second.labels l)
  returns := first.returns.append second.returns

theorem of_closed (level : Level calls result (exitsAt exits 0) 0 code 0)
    (closed : Closed exits code) : BalancedCode calls result exits [] code :=
  ⟨level, by simp, .of_closed closed⟩

theorem of_plain (plain : ∀ i ∈ code, i.isPlain = true) : BalancedCode calls result exits [] code :=
  .of_closed (.of_plain plain (Int.le_refl 0)) (.of_plain plain)

theorem of_rises (rises : Rises calls exits 0 code) : BalancedCode calls result exits [] code :=
  .of_closed (by simpa using rises.level result 0 (Int.le_refl 0)) rises.closed

theorem widen (balanced : BalancedCode calls result exits' defined code)
    (wider : ∀ l ∈ exits', l ∈ exits) : BalancedCode calls result exits defined code :=
  ⟨balanced.level.widen fun l _ ⟨mem, same⟩ => ⟨wider l mem, same⟩, balanced.labels, balanced.returns⟩

/-- Labels that the code defines itself are no longer ones to leave it. -/
theorem close {own : List String} (balanced : BalancedCode calls result (own ++ exits) defined code)
    (found : ∀ l ∈ own, l ∈ defined) : BalancedCode calls result exits [] code where
  level := by
    refine balanced.level.close fun l x ⟨mem, same⟩ => ?_
    rcases List.mem_append.1 mem with mem | mem
    · exact .inl (same ▸ balanced.labels l (found l mem))
    · exact .inr ⟨mem, same⟩
  labels := by simp
  returns := balanced.returns

end BalancedCode

/-- The code of the action is balanced. -/
def Balanced (exits defined : List String) (m : Codegen α) (ctx : Context) : Prop :=
  ∀ s, Known ctx.functions s → m.Ends ctx s fun _ code s' => Known ctx.functions s' ∧
    BalancedCode (Signature.calls ctx.functions) ctx.result exits defined code

namespace Balanced

variable {exits exits' defined defined' : List String} {m : Codegen α} {f : α → Codegen β}
  {ctx : Context}

theorem bind (first : Balanced exits defined m ctx) (rest : ∀ a, Balanced exits defined' (f a) ctx) :
    Balanced exits (defined ++ defined') (m >>= f) ctx := by
  intro s known
  refine .bind ((first s known).mono ?_)
  rintro a code s₁ ⟨known₁, balanced⟩
  refine (rest a s₁ known₁).mono ?_
  rintro _ code' s₂ ⟨known₂, balanced'⟩
  exact ⟨known₂, balanced.append balanced'⟩

theorem pure (a : α) : Balanced exits [] (Codegen.pure a) ctx :=
  fun _ known => .pure ⟨known, .of_plain (by simp)⟩

theorem fail (e : CompileError) : Balanced exits defined (Codegen.fail e : Codegen α) ctx :=
  fun _ _ => .fail e

/-- Plain lines. -/
theorem of_plain (plain : ∀ s, m.Ends ctx s fun _ code s' =>
    (∀ i ∈ code, i.isPlain = true) ∧ s'.deferred = s.deferred) : Balanced exits [] m ctx := by
  intro s known
  refine (plain s).mono ?_
  rintro _ code s' ⟨plain, same⟩
  exact ⟨fun p mem => known p (same ▸ mem), .of_plain plain⟩

theorem of_straight (straight : Straight m) : Balanced exits [] m ctx :=
  of_plain fun s => (straight.ends ctx s).mono fun _ _ _ quiet => ⟨quiet.1, quiet.2.1⟩

theorem label (l : String) : Balanced exits [l] (emit (.label l)) ctx := by
  intro s known
  have plain : BalancedCode (Signature.calls ctx.functions) ctx.result exits [] [.label l] :=
    .of_plain (by simp [Instr.isPlain])
  exact .emit ⟨known, plain.level, by simp [leveled], plain.returns⟩

theorem jump {l : String} (mem : l ∈ exits) : Balanced exits [] (emit (.jump l)) ctx :=
  fun _ known => .emit ⟨known, .of_rises (.jump rfl mem)⟩

theorem widen (balanced : Balanced exits' defined m ctx) (wider : ∀ l ∈ exits', l ∈ exits) :
    Balanced exits defined m ctx :=
  fun s known => (balanced s known).mono fun _ _ _ ⟨known', inner⟩ => ⟨known', inner.widen wider⟩

theorem close (own defined : List String) (balanced : Balanced (own ++ exits) defined m ctx)
    (found : ∀ l ∈ own, l ∈ defined) : Balanced exits [] m ctx :=
  fun s known => (balanced s known).mono fun _ _ _ ⟨known', inner⟩ => ⟨known', inner.close found⟩

theorem labelId {line : Nat} {f : String → Codegen α}
    (rest : ∀ id, Balanced exits defined (f id) ctx) :
    Balanced exits defined (Codegen.labelId line >>= f) ctx :=
  fun s known => .bind (.of rfl (rest _ { s with labels := s.labels + 1 } known))

/-- The code of an expression. -/
theorem of_settles {n : Node} (calls : n.CallsOf ctx.functions)
    (settles : Settles ctx.functions (n.due ctx.functions) 0 m) : Balanced exits [] m ctx := by
  intro s known
  refine (settles ctx s).mono ?_
  rintro _ code s' ⟨accounted, holds⟩
  obtain ⟨_, holds⟩ := holds calls
  refine ⟨fun p mem => ?_, .of_rises holds.rises.ofNone⟩
  rw [accounted.deferred] at mem
  exact (List.mem_append.1 mem).elim (known p) ((n.due_queued ctx.functions).calls calls p)

end Balanced

/-! ## Phrases -/

section Phrases

variable {ctx : Context} (line : Nat)

theorem comment_ends_plain (s : State) : (comment line).Ends ctx s fun _ code s' =>
    (∀ i ∈ code, i.isPlain = true) ∧ s'.deferred = s.deferred := by
  refine .bind (.of rfl (.bind (.of rfl ?_)))
  split
  · exact .bind (.emit (.modifyState ⟨by simp [Instr.isPlain], rfl⟩))
  · exact .pure ⟨by simp, rfl⟩

theorem checkRegisters_straight : Straight (checkRegisters line) := by
  refine .bind .state fun s => ?_
  dsimp only
  split
  · exact .pure _
  · exact .fail _

/-- A line that ends the activation. -/
theorem Balanced.stop {i : Instr} (isStop : i = .finish ∨ i = .stop) (exits : List String) :
    Balanced exits [] (emit i) ctx := by
  intro s known
  have level : Level (Signature.calls ctx.functions) ctx.result (exitsAt exits 0) 0 [i]
      (0 + i.growth (Signature.calls ctx.functions)) := by
    rcases isStop with rfl | rfl <;> exact .single rfl (by simp) (Int.le_refl 0)
  refine .emit ⟨known, ?_, by simp, .of_not_mem ?_⟩ <;>
    rcases isStop with rfl | rfl <;> first | exact level | simp

/-- A return is made with as many words on the stack as the function has values. -/
theorem control_balanced (word : Control) (value : Option Slot)
    (returns : word = .return_ → ctx.called.isSome → ctx.result = if value.isSome then 1 else 0) :
    Balanced ctx.loopExits [] (control word value line) ctx := by
  have leaves : ∀ ending, ending = "_break" ∨ ending = "_continue" →
      Balanced ctx.loopExits [] (leaveLoop word ending line) ctx := by
    intro ending isEnding s known
    refine .bind (.of rfl ?_)
    split
    · rename_i label inLoop
      have mem : label ++ ending ∈ ctx.loopExits := by
        rw [Context.loopExits, inLoop]
        rcases isEnding with rfl | rfl <;> simp
      exact Balanced.jump mem s known
    · exact .fail _
  cases word with
  | break_ => exact leaves _ (.inl rfl)
  | continue_ => exact leaves _ (.inr rfl)
  | exit => exact .stop (.inl rfl) _
  | halt => exact .stop (.inr rfl) _
  | sleep =>
    cases value with
    | none => exact .fail _
    | some s => exact .of_straight (.bind (resolve_straight line s) fun _ => .bind .emit fun _ => .release _)
  | return_ =>
    intro s known
    refine .bind (.of rfl ?_)
    split
    · exact Balanced.stop (.inl rfl) _ s known
    · rename_i isCalled
      replace returns := returns rfl (Option.isSome_iff_ne_none.2 fun isNone =>
        isCalled (Option.isNone_iff_eq_none.2 isNone))
      cases value with
      | none =>
        have returns : ctx.result = 0 := returns
        rw [returns]
        exact .bind (.pure (.emit ⟨known, .ret (Int.le_refl 0), by simp, nofun⟩))
      | some slot =>
        have returns : ctx.result = 1 := returns
        rw [returns]
        refine .bind (.bind (((resolve_straight line slot).ends ctx s).mono ?_))
        rintro found lines s₁ ⟨plain, same, -⟩
        refine .bind (.emit (.release (.emit ⟨fun p mem => known p (same ▸ mem), ?_⟩)))
        have value : Level (Signature.calls ctx.functions) 1 (exitsAt ctx.loopExits 0) 0
            [.push found.slot.asmName, .ret] 0 := by
          have pushes : Level (Signature.calls ctx.functions) 1 (exitsAt ctx.loopExits 0) 0
              [.push found.slot.asmName] 1 := .push _ (Int.le_refl 0)
          exact pushes.append (.ret (by omega))
        have both : BalancedCode (Signature.calls ctx.functions) 1 ctx.loopExits [] _ :=
          .append (.of_plain plain) ⟨value, by simp, ?_⟩
        · simpa using both
        · rintro - before after same
          match before with
          | [] => cases same
          | [i] =>
            obtain ⟨rfl, -⟩ := List.cons.inj same
            exact ⟨_, rfl⟩
          | i :: i' :: before => simp at same

theorem controlValue_ends (word : Control) (value : Option Node) (s : State) :
    (controlValue word value line).Ends ctx s fun found code s' => code = [] ∧ s' = s ∧
      (∀ n, found = some n → value = some n) ∧ (word ≠ .return_ → found = value) ∧
      (word = .return_ → ctx.called.isSome → ctx.result = if found.isSome then 1 else 0) := by
  refine .bind (.of rfl ?_)
  split
  · rename_i notCalled
    refine .pure ⟨rfl, rfl, nofun, fun notReturn => absurd rfl notReturn, fun _ isCalled => ?_⟩
    simp [Context.called, notCalled] at isCalled
  · rename_i function isCalled
    refine .bind (.of rfl ?_)
    have result : ctx.result =
        if ((Signature.find? ctx.functions function).map Signature.returnsValue).getD false
          then 1 else 0 := by
      rw [Context.result, show ctx.called = some function from isCalled]
    dsimp only
    split
    · exact .fail _
    · exact .fail _
    · rename_i value _ _ noValue hasValue
      refine .pure ⟨rfl, rfl, fun _ same => same, fun _ => rfl, fun _ _ => ?_⟩
      rw [result]
      cases value with
      | none => simp [Bool.eq_false_iff.2 fun returns => hasValue returns rfl]
      | some n => simp [eq_true_of_ne_false fun isVoid => noValue n isVoid rfl]
  · rename_i notMain notReturn
    refine .pure ⟨rfl, rfl, fun _ same => same, fun _ => rfl, fun isReturn isCalled => ?_⟩
    obtain ⟨function, called⟩ := Option.isSome_iff_exists.1 isCalled
    exact (notReturn function isReturn called).elim

/-- The code of a bound phrase, without the steps put off. -/
theorem command_balanced {c : Command} (calls : c.CallsOf ctx.functions) :
    Balanced ctx.loopExits [] (command c) ctx := by
  cases c with
  | value node => exact .of_settles calls (node.code_settles _).effect
  | control word value line =>
    intro s known
    refine .bind ((controlValue_ends line word value s).mono ?_)
    rintro found _ s₁ ⟨rfl, rfl, isValue, -, returns⟩
    cases found with
    | none => exact control_balanced line word none returns s₁ known
    | some node =>
      have value : Balanced ctx.loopExits [] node.eval ctx :=
        .of_settles (calls node (isValue node rfl)) ((Node.eval_settles _).settles node)
      have whole := value.bind fun o => (control_balanced line word (some o.slot) returns).bind
        fun _ => .of_straight (.release o.holds)
      exact whole s₁ known

/-- All put-off steps are done. -/
theorem applyDeferred_balanced (exits : List String) :
    Balanced exits [] (applyDeferred Node.eval 0 line) ctx := by
  intro s known
  refine (applyDeferred_settles (Node.eval_settles ctx.functions) line ctx (List.nil_append _).symm).mono ?_
  rintro _ code s' ⟨accounted, holds⟩
  obtain ⟨_, holds⟩ := holds known
  refine ⟨fun p mem => ?_, .of_rises holds.rises.ofNone⟩
  rw [accounted.deferred] at mem
  obtain ⟨q, listed, mem⟩ := Node.mem_left_redo.1 mem
  exact (q.2.due_queued ctx.functions).calls (known q listed) p mem

theorem phrase_balanced (tokens : List Token) (isConst : Bool) :
    Balanced ctx.loopExits [] (phrase tokens isConst line) ctx := by
  intro s known
  refine .bind (.of rfl (.bind (.ofOutcome fun found isPhrase => ?_)))
  have calls := Names.phrase_callsOf tokens line found isPhrase
  cases found with
  | none => exact .pure ⟨known, .of_plain (by simp)⟩
  | some bound =>
    have inner : Balanced ctx.loopExits [] (do
        command bound
        applyDeferred Node.eval 0 bound.line
        checkRegisters bound.line) ctx :=
      (command_balanced (calls bound rfl)).bind fun _ =>
        (applyDeferred_balanced _ _).bind fun _ => .of_straight (checkRegisters_straight _)
    refine .bind ((comment_ends_plain _ s).mono ?_)
    rintro _ lines s₁ ⟨plain, same⟩
    have known₁ : Known ctx.functions s₁ := fun p mem => known p (same ▸ mem)
    refine .bind (.capture ((inner s₁ known₁).mono ?_))
    rintro _ code s₂ ⟨known₂, balanced⟩
    dsimp only
    split
    · refine .bind (.of rfl (.bind (.modifyState (.bind (.ofOutcome fun directives frozen => ?_)))))
      refine .emitAll ⟨known₂, ?_⟩
      have both : BalancedCode (Signature.calls ctx.functions) ctx.result ctx.loopExits []
          (lines ++ directives) := .append (.of_plain plain) (.of_plain (SlotTable.freeze_plain frozen))
      simpa using both
    · have both : BalancedCode (Signature.calls ctx.functions) ctx.result ctx.loopExits []
          (lines ++ code) := .append (.of_plain plain) balanced
      exact .emitAll ⟨known₂, by simpa using both⟩

theorem condition_balanced (tokens : List Token) (target : String) (when : Bool) :
    Balanced [target] [] (condition tokens target when line) ctx := by
  intro s known
  refine .bind (.of rfl (.bind (.ofOutcome fun node isNode => ?_)))
  have decides := (node.code_settles ctx.functions).jump target when
  refine .bind (.within ((decides { ctx with inCondition := true } s).mono ?_))
  rintro _ _ s₁ ⟨accounted, holds⟩
  obtain ⟨first, second, _, rfl, -, rises, rises', -⟩ := holds (Names.condition_callsOf tokens line node isNode)
  refine (checkRegisters_ends line).mono ?_
  rintro _ _ _ ⟨rfl, rfl⟩
  refine ⟨fun p mem => ?_, ?_⟩
  · rw [accounted.deferred, accounted.none rfl, List.append_nil] at mem
    exact known p mem
  · simpa using BalancedCode.of_rises (rises.ofNone.append rises')

end Phrases

/-! ## Sentences -/

theorem Woven.balanced {ofPhrase ofTest : List Token → Nat → Prop} {exits labels : List String}
    {m m' : Codegen Unit} (woven : Woven Eq ofPhrase ofTest exits labels m m') :
    ∀ ctx : Context, (∀ l ∈ ctx.loopExits, l ∈ exits) → Balanced exits labels m ctx := by
  induction woven with
  | phrase _ isConst => exact fun _ inside => (phrase_balanced _ _ isConst).widen inside
  | condition _ _ _ when mem =>
    exact fun _ _ => (condition_balanced _ _ _ when).widen (List.forall_mem_singleton.2 mem)
  | nothing => exact fun _ _ => .pure _
  | andThen _ _ ih ih' => exact fun ctx inside => .bind (ih ctx inside) fun _ => ih' ctx inside
  | labelId _ _ _ ih =>
    exact fun ctx inside => .labelId fun id => .close _ _
      (ih id id rfl ctx fun l mem => List.mem_append_right _ (inside l mem)) fun _ mem => mem
  | label _ _ _ ih => exact fun ctx inside => .bind (.label _) fun _ => ih ctx inside
  | lastLabel _ _ => exact fun _ _ => .label _
  | jump _ _ mem => exact fun _ _ => .jump mem
  | comment line => exact fun _ _ => .of_plain (comment_ends_plain line)
  | @loop _ id _ _ _ _ _ mem ih =>
    intro ctx _ s known
    refine .within (ih { ctx with loop := some ("__loop" ++ id) } ?_ s known)
    exact List.forall_mem_cons.2 ⟨mem .loopBreak (by simp),
      List.forall_mem_singleton.2 (mem .loopContinue (by simp))⟩

theorem sentences_balanced (ss : List Sentence) (ctx : Context) :
    Balanced ctx.loopExits [] (sentences ss) ctx :=
  (sentences_woven_any ctx.loopExits ss).balanced ctx fun _ mem => mem

end Codegen

end ContractCompiler
