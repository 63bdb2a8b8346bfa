import ContractCompiler.Proofs.Program
import ContractCompiler.Proofs.Machine.Moves

/-!
# Proofs.Call — how functions are called

The caller saves the registers that are held, pushes the arguments and jumps; the callee takes its
parameters from the stack; the caller takes the value and restores the registers. Both sides meet on
one stack (`Node.call_binds`): the parameters get the words of the arguments, each its own, and if the
callee leaves its value above what it found, the caller ends with the stack and the held registers as
they were and with the value in a register that was free.
-/

namespace ContractCompiler

set_option autoImplicit false

open Codegen (State Context functionLabel)

/-! ## Held registers -/

namespace Pool

variable {p : Pool} {a : Int}

/-- The slots of the held registers, the lowest first. -/
def heldSlots (p : Pool) : List Slot := (p.registers.filter (·.held)).map (·.slot)

theorem live_eq (p : Pool) : p.live = p.heldSlots.map (·.asmName) := by
  simp [live, heldSlots]

theorem heldSlots_sublist (p : Pool) : p.heldSlots.Sublist p.slots :=
  List.filter_sublist.map _

theorem mem_heldSlots : a ∈ p.heldSlots.map (·.address) ↔ p.Holds a := by
  simp only [heldSlots, Holds, List.mem_map, List.mem_filter]
  constructor
  · rintro ⟨_, ⟨r, ⟨listed, held⟩, rfl⟩, same⟩
    exact ⟨r, listed, same, held⟩
  · rintro ⟨r, listed, same, held⟩
    exact ⟨r.slot, ⟨r, ⟨listed, held⟩, rfl⟩, same⟩

end Pool

/-- The names of registers mean their addresses. -/
theorem Machine.Hosts.cell?_register {M : Machine} {st : State} {r : Slot} (hosts : M.Hosts st)
    (valid : st.Valid) (listed : r ∈ st.pool.slots) : M.cell? r.asmName = some r.address := by
  rw [valid.pool] at listed
  obtain ⟨stored, register⟩ := SlotTable.mem_registers.1 listed
  exact hosts.cell?_eq (.of_mem stored (by simp [register]))

/-- What a call leaves behind: the registers that were held have what they had, a value stands in a
register that was free, and the other cells are as the callee left them. -/
structure Machine.Returned (M : Machine) (st : State) (m m₂ : Memory) (returned : List Word)
    (result : Option Operand) (m₃ : Memory) : Prop where
  restored : ∀ a, st.pool.Holds a → m₃ a = m a
  value : ∀ w ∈ returned, ∃ r, M.IsRegister r ∧ ¬ st.pool.Holds r ∧ m₃ r = w ∧
    ∀ o ∈ result, o.slot.address = r
  others : ∀ a, ¬ M.IsRegister a → m₃ a = m₂ a

namespace Codegen

variable {ctx : Context} {st : State} {line : Nat}

/-! ## The caller -/

theorem push_ends {s : Slot} (valid : st.Valid) (usable : s.Usable st) :
    (push s line).Ends ctx st fun _ code st' => st.Takes [] [] st' ∧
      ∀ {M : Machine} {m : Memory}, M.Hosts st' → M.Fixed m → M.Clear m s →
        ∃ m', M.Moves code m [] m' [s.value m] ∧ st.Frame m m' := by
  refine .bind ((resolve_ends valid usable).mono ?_)
  rintro o c₁ s₁ ⟨takes, settled, load⟩
  refine .bind (.emit (.release ⟨takes.releaseAll, fun {M m} hosts fixed clear => ?_⟩))
  have hosts₁ : M.Hosts s₁ := hosts.of_release
  obtain ⟨m₁, leads₁, frame₁, value₁⟩ := load hosts₁ fixed clear
  have pushes := Machine.Moves.push (hosts₁.cell?_eq settled.stored) m₁
  rw [value₁] at pushes
  exact ⟨m₁, by simpa using (Machine.Moves.of_leads leads₁ []).append pushes, frame₁⟩

section Args

variable {M : Machine} {t : SlotTable} {eval : Node → Codegen Operand} {again : Node → Meaning.Deed}
  {args : List Node}

/-- The arguments are evaluated and pushed, so that the first one is on top. -/
theorem pushArgs_ends (repeats : Repeats M t ctx eval again) (contained : Meaning.Contained t again)
    (arePure : ∀ n ∈ args, n.isPure = true) (bound : ∀ n ∈ args, n.Bound t) (valid : st.Valid)
    (interns : t.Interns st.table) :
    (pushArgs line (Node.values eval args)).Ends ctx st fun _ code st' => st.Takes [] [] st' ∧
      (M.Hosts st' → ∀ {m mm : Memory} {words : List Word}, M.Ready m mm →
        args.map (·.value? M.arithmetic M.mayRead m) = words.map some →
        ∃ mm', M.Moves code mm [] mm' words ∧ M.Ready m mm' ∧ st.Keeps mm mm') := by
  induction args generalizing st with
  | nil =>
    refine .pure ⟨.refl valid, fun _ {m mm words} ready denote => ?_⟩
    obtain rfl : words = [] := by simpa using denote.symm
    exact ⟨mm, .nil mm [], ready, .refl st mm⟩
  | cons n args ih =>
    obtain ⟨isPure, arePure⟩ := List.forall_mem_cons.1 arePure
    obtain ⟨boundN, bound⟩ := List.forall_mem_cons.1 bound
    have obeys := M.obeys_rules ctx.settings.reuse
    have simulates := Node.plan_simulates obeys ctx.settings.reuse_ne_never repeats contained n boundN
    refine .bind ((ih arePure bound valid interns).mono ?_)
    rintro _ c₁ s₁ ⟨takes₁, pushRest⟩
    refine .bind ((simulates.value_none s₁ takes₁.valid (interns.trans takes₁.interns)).mono ?_)
    rintro o c₂ s₂ ⟨takes₂, fits, evaluate⟩
    rw [(Node.pending_eq_nil n isPure).1] at takes₂
    have usable := fits.usable fun _ mem => takes₂.holds_mem mem
    refine .bind ((push_ends takes₂.valid usable).mono ?_)
    rintro _ c₃ s₃ ⟨takes₃, pushThis⟩
    have takes := takes₁.trans (takes₂.append_nil takes₃).releaseAll
    refine .release ⟨takes, fun hosts {m mm words} ready denote => ?_⟩
    obtain ⟨w, words, rfl⟩ : ∃ w words', words = w :: words' := by
      cases words with
      | nil => simp at denote
      | cons w words => exact ⟨w, words, rfl⟩
    obtain ⟨denotes, denote⟩ := List.cons.inj denote
    have hosts₃ : M.Hosts s₃ := hosts.of_release
    have hosts₂ := hosts₃.earlier takes₃
    have hosts₁ := hosts₂.earlier takes₂
    obtain ⟨mm₁, moves₁, ready₁, keeps₁⟩ := pushRest hosts₁ ready denote
    have knows := hosts₁.knows (interns.trans takes₁.interns) ready.fixed ctx.settings.reuse
    obtain ⟨r, runs, value, -⟩ := (Node.gives again knows n isPure boundN w denotes).value
    obtain ⟨mm₂, leads₂, ready₂, keeps₂, rfl⟩ := evaluate hosts₂ ready₁ runs
    obtain ⟨isValue, clear⟩ := Machine.value_of_ref hosts₂ takes₂.valid ready₂ obeys usable value
    obtain ⟨mm₃, moves₃, frame₃⟩ := pushThis hosts₃ (ready₂.machine hosts₃.valid) clear
    rw [isValue] at moves₃
    refine ⟨mm₃, ?_, ready₂.frame hosts₂ takes₂.valid frame₃, ?_⟩
    · have moves₂ := Machine.Moves.of_leads leads₂ words
      simpa using moves₁.append (moves₂.append (moves₃.above words))
    · have keeps₃ := State.Keeps.of_frame frame₃
      exact keeps₁.trans ((keeps₂.trans (keeps₃.weaken takes₂)).weaken takes₁)

/-- The lines before the call leave the arguments on the stack, above what was saved. The lines after it
take the value and what was saved. -/
theorem callFunction_ends {function : String} {returns : ValueType}
    (repeats : Repeats M t ctx eval again) (contained : Meaning.Contained t again)
    (arePure : ∀ n ∈ args, n.isPure = true) (bound : ∀ n ∈ args, n.Bound t) (valid : st.Valid)
    (interns : t.Interns st.table) :
    (callFunction function (Node.values eval args) returns line).Ends ctx st fun result code st' =>
      ∃ front back, code = front ++ .call (functionLabel function) :: back ∧
        st.table.Interns st'.table ∧
        (M.Hosts st' → ∀ {m : Memory} {words : List Word}, M.Fixed m →
          args.map (·.value? M.arithmetic M.mayRead m) = words.map some →
          ∃ saved m₁, M.Moves front m [] m₁ (words ++ saved) ∧ M.Ready m m₁ ∧
            ∀ (m₂ : Memory) (returned : List Word),
              returned.length = (if returns = .void then 0 else 1) →
              ∃ m₃, M.Moves back m₂ (returned ++ saved) m₃ [] ∧
                M.Returned st m m₂ returned result m₃) := by
  let held := st.pool.heldSlots
  have nodup : (held.map (·.address)).Nodup :=
    ((Pool.heldSlots_sublist _).map _).nodup valid.addresses_nodup
  have known : M.Hosts st → ∀ r ∈ held, M.cell? r.asmName = some r.address := fun hosts r mem =>
    hosts.cell?_register valid ((Pool.heldSlots_sublist _).subset mem)
  have saves : st.pool.live.map Instr.push = held.map fun r => .push r.asmName := by
    rw [Pool.live_eq, List.map_map]
    rfl
  have restores : st.pool.live.reverse.map Instr.pop = held.reverse.map fun r => .pop r.asmName := by
    rw [Pool.live_eq, ← List.map_reverse, List.map_map]
    rfl
  refine .bind (.of rfl (.bind (.emitAll ?_)))
  refine .bind ((pushArgs_ends repeats contained arePure bound valid interns).mono ?_)
  rintro _ args₁ s₁ ⟨takes₁, pushAll⟩
  -- The lines before the call are the same whether the function has a value or not.
  have before : M.Hosts s₁ → ∀ {m : Memory} {words : List Word}, M.Fixed m →
      args.map (·.value? M.arithmetic M.mayRead m) = words.map some →
      ∃ m₁, M.Moves (st.pool.live.map .push ++ args₁) m [] m₁
        (words ++ (held.map fun r => m r.address).reverse) ∧ M.Ready m m₁ := by
    intro hosts m words fixed denote
    have pushes := Machine.Moves.pushes (known (hosts.earlier takes₁)) m
    obtain ⟨m₁, moves, ready, -⟩ := pushAll hosts ⟨fixed, fun _ _ => rfl⟩ denote
    rw [saves]
    exact ⟨m₁, pushes.append (moves.above _), ready⟩
  refine .bind (.emit ?_)
  by_cases isVoid : returns = .void
  · rw [if_pos isVoid]
    refine .bind (.pure (.bind (.emitAll (.pure ⟨st.pool.live.map .push ++ args₁,
      st.pool.live.reverse.map .pop, by simp, takes₁.interns, ?_⟩))))
    intro hosts m words fixed denote
    obtain ⟨m₁, moves₁, ready⟩ := before hosts fixed denote
    refine ⟨_, m₁, moves₁, ready, fun m₂ returned count => ?_⟩
    rw [if_pos isVoid] at count
    obtain rfl := List.length_eq_zero_iff.1 count
    obtain ⟨m₃, moves₃, back, others⟩ :=
      Machine.Moves.restores (known (hosts.earlier takes₁)) nodup m m₂
    refine ⟨m₃, restores ▸ moves₃, fun a isHeld => ?_, by simp, fun a notRegister => ?_⟩
    · obtain ⟨r, mem, rfl⟩ := List.mem_map.1 (Pool.mem_heldSlots.2 isHeld)
      exact back r mem
    · refine others a fun mem => notRegister ?_
      exact ((hosts.earlier takes₁).isRegister_iff valid).2 (Pool.mem_heldSlots.1 mem).isRegister
  · rw [if_neg isVoid]
    refine .bind ((allocate_ends takes₁.valid).mono ?_)
    rintro r _ s₂ ⟨takes₂, rfl, -⟩
    have takes := takes₁.trans takes₂
    have mem : r ∈ [] ++ [r] := List.mem_singleton.2 rfl
    refine .bind (.emit (.bind (.pure (.bind (.emitAll (.pure ⟨st.pool.live.map .push ++ args₁,
      .pop r.asmName :: st.pool.live.reverse.map .pop, by simp, takes.interns, ?_⟩))))))
    intro hosts m words fixed denote
    have hosts₁ := hosts.earlier takes₂
    have hosts₀ := hosts₁.earlier takes₁
    obtain ⟨m₁, moves₁, ready⟩ := before hosts₁ fixed denote
    refine ⟨_, m₁, moves₁, ready, fun m₂ returned count => ?_⟩
    rw [if_neg isVoid] at count
    obtain ⟨w, rfl⟩ := List.length_eq_one_iff.1 count
    have pop := Machine.Moves.pop (hosts.cell?_register takes.valid (takes.listed r mem)) m₂ w
    obtain ⟨m₃, moves₃, back, others⟩ :=
      Machine.Moves.restores (known hosts₀) nodup m (m₂.set r.address w)
    have isRegister : M.IsRegister r.address :=
      (hosts.isRegister_iff takes.valid).2 (takes.holds_mem mem).isRegister
    have notHeld := takes.fresh r mem
    refine ⟨m₃, ?_, fun a isHeld => ?_, ?_, fun a notRegister => ?_⟩
    · rw [restores]
      exact (pop.above _).append moves₃
    · obtain ⟨r, mem, rfl⟩ := List.mem_map.1 (Pool.mem_heldSlots.2 isHeld)
      exact back r mem
    · intro w' mem'
      obtain rfl := List.mem_singleton.1 mem'
      refine ⟨r.address, isRegister, notHeld, ?_, by simp⟩
      rw [others _ fun listed => notHeld (Pool.mem_heldSlots.1 listed), Memory.set_self]
    · rw [others, Memory.set_of_ne fun same : a = r.address => notRegister (same ▸ isRegister)]
      exact fun listed => notRegister
        ((hosts₀.isRegister_iff valid).2 (Pool.mem_heldSlots.1 listed).isRegister)

end Args

/-! ## The callee -/

/-- The block of a function takes the parameters from the stack. -/
theorem functionBlock_begins {f : FunctionDef} {g : Signature}
    (found : Signature.find? ctx.functions f.name = some g) :
    (functionBlock f).Ends ctx st fun block _ _ =>
      ∃ rest, block = .label (functionLabel f.name) :: g.params.map .pop ++ rest := by
  refine .bind (.modifyState (.bind (.of rfl (.bind fun (_, body) _ _ _ => .pure ?_))))
  rw [found]
  dsimp only [Option.map_some, Option.getD_some]
  split
  · exact ⟨body, rfl⟩
  · exact ⟨body ++ [.ret], List.append_assoc _ _ _⟩

end Codegen

/-- The code of an expression, for its value or where the value is not used. -/
def Node.Emits (n : Node) (ctx : Context) (st : State) :
    Option Operand → List Instr → State → Prop
  | some o, code, st' => n.eval ctx st = .done o code st'
  | none, code, st' => n.code.effect ctx st = .done () code st'

theorem Node.Emits.tame {n : Node} {ctx : Context} {st st' : State} {want : Option Operand}
    {code : List Instr} (emits : n.Emits ctx st want code st') (valid : st.Valid) :
    Numbered ctx.settings ctx.randomId st.labels code st'.labels := by
  cases want with
  | some o => exact (n.eval_tame ctx st valid o code st' emits).numbered
  | none => exact (n.code_tame.effect ctx st valid () code st' emits).numbered

/-- A call is compiled to the same lines whether its value is used or not. -/
theorem Node.Emits.called {function : String} {args : List Node} {returns : ValueType} {line : Nat}
    {ctx : Context} {st st' : State} {want : Option Operand} {code : List Instr}
    (emits : (Node.call function args returns line).Emits ctx st want code st') :
    ∃ depth result s, Codegen.callFunction function (Node.values (Node.evalBelow depth) args) returns
      line ctx st = .done result code s ∧ s.table = st'.table ∧ ∀ o ∈ want, result = some o := by
  let operands := Node.values (Node.evalBelow (Node.call function args returns line).postDepth) args
  refine ⟨(Node.call function args returns line).postDepth, ?_⟩
  cases want with
  | some o =>
    rw [Emits, Node.eval, Node.code, Node.plan] at emits
    have ends : (Codegen.callValue function operands returns line).Ends ctx st fun o code st' =>
        ∃ result s, Codegen.callFunction function operands returns line ctx st =
          .done result code s ∧ s.table = st'.table ∧ ∀ o' ∈ some o, result = some o' := by
      refine .bind fun result c s called => ?_
      cases result with
      | some o => exact .pure ⟨some o, s, by simpa using called, rfl, by simp⟩
      | none => exact .fail _
    exact ends o code st' emits
  | none =>
    rw [Emits, Node.code, Node.plan] at emits
    have ends : (Codegen.callEffect function operands returns line).Ends ctx st fun _ code st' =>
        ∃ result s, Codegen.callFunction function operands returns line ctx st =
          .done result code s ∧ s.table = st'.table ∧ ∀ o' ∈ none, result = some o' := by
      refine .bind fun result c s called => ?_
      cases result with
      | some o => exact .release ⟨some o, s, by simpa using called, rfl, by simp⟩
      | none => exact .pure ⟨none, s, by simpa using called, rfl, by simp⟩
    exact ends () code st' emits

/-- The body of a function is entered with words for its parameters, and with the other cells as they
were, but for registers. -/
structure Machine.Entered (M : Machine) (f : FunctionDef) (m : Memory) (words : List Word)
    (c : Machine.Config) : Prop where
  params : (f.params.map fun p => M.get? c (SlotTable.storedName p.name f.name)) = words.map some
  others : ∀ a, ¬ M.IsRegister a →
    (∀ p ∈ f.params, M.cell? (SlotTable.storedName p.name f.name) ≠ some a) → c.memory a = m a

section Entering

variable {M : Machine} {f : FunctionDef} {rs : List Slot} {m m₁ : Memory} {words : List Word}
  (known : ∀ r ∈ rs, M.cell? r.asmName = some r.address) (count : rs.length = words.length)
include known count

/-- A call goes to the label of the function, where the parameters are taken from the stack. -/
theorem Machine.reaches_body {label : String} {rest : List Instr} {site entry : Nat}
    (isCall : M.code[site]? = some (.call label))
    (callee : M.Placed entry (.label label :: (rs.map (·.asmName)).map .pop ++ rest))
    (stack : List Word) (positions : List Nat) :
    M.Reaches 0 M.code.length ⟨site, m, words ++ stack, positions⟩
      ⟨entry + 1 + rs.length, m.setAll (rs.map (·.address)) words, stack, (site + 1) :: positions⟩ := by
  obtain ⟨here, isEntry, placedRest⟩ := callee
  have jump : M.step ⟨site, m, words ++ stack, positions⟩ =
      some ⟨entry, m, words ++ stack, (site + 1) :: positions⟩ := by
    simp [Machine.step, isCall, Machine.perform, isEntry label rfl]
  have pass : M.step ⟨entry, m, words ++ stack, (site + 1) :: positions⟩ =
      some ⟨entry + 1, m, words ++ stack, (site + 1) :: positions⟩ := by
    simp [Machine.step, here, Machine.perform, Machine.Config.next]
  have placedPops := (Machine.placed_append.1 placedRest).1
  rw [List.map_map] at placedPops
  have pops := Machine.Moves.pops known count m (entry + 1) stack ((site + 1) :: positions) placedPops
  rw [List.length_map] at pops
  exact .trans (Machine.Reaches.single (Nat.le_refl site) (Nat.lt_succ_self site) jump).whole
    (.trans (Machine.Reaches.single (Nat.le_refl entry) (Nat.lt_succ_self entry) pass).whole pops.whole)

/-- The words that were taken from the stack are those of the parameters. -/
theorem Machine.entered_of_pops (areParams : rs.map (·.asmName) =
      f.params.map fun p => SlotTable.storedName p.name f.name)
    (nodup : (rs.map (·.address)).Nodup) (ready : M.Ready m m₁) {pc : Nat} {stack : List Word}
    {positions : List Nat} :
    M.Entered f m words ⟨pc, m₁.setAll (rs.map (·.address)) words, stack, positions⟩ where
  params := by
    have holds := congrArg (List.map some)
      (Memory.map_setAll (m := m₁) nodup (by simpa using count) : _ = words)
    rw [← holds, List.map_map, List.map_map, ← Function.comp_def (M.get? _), ← List.map_map, ← areParams,
      List.map_map]
    refine List.map_congr_left fun r mem => ?_
    simp [Machine.get?, known r mem]
  others a notRegister other := by
    refine (Memory.setAll_of_not_mem fun listed => ?_).trans (ready.agrees a notRegister)
    obtain ⟨r, mem, rfl⟩ := List.mem_map.1 listed
    have isParam : r.asmName ∈ f.params.map fun p => SlotTable.storedName p.name f.name :=
      areParams ▸ List.mem_map_of_mem mem
    obtain ⟨p, isP, same⟩ := List.mem_map.1 isParam
    exact other p isP (same ▸ known r mem)

end Entering

/-- A call enters the body of the function with the words of the arguments in its parameters, each in its
own. If the body comes back with the stack as it found it, and with a value above if the function has
one, then the call ends with the stack as it was, the held registers as they were, and the value in a
register that was free. -/
theorem Node.call_binds {p : Program} {settings : Settings} {l : Layout} {f : FunctionDef}
    {own ctx : Context} {s₁ s₂ st st' : State} {M : Machine} {block lines before code after : List Instr}
    {entry line : Nat} {args : List Node} {returns : ValueType} {want : Option Operand} {m : Memory}
    {words : List Word} (isLayout : Layout.ofProgram p settings = .ok l) (defined : f ∈ p.functions)
    (functions : own.functions = l.functions)
    (isBlock : Codegen.functionBlock f own s₁ = .done block lines s₂) (callee : M.Placed entry block)
    (count : args.length = f.params.length) (isType : f.returnType = .ok returns)
    (arePure : ∀ n ∈ args, n.isPure = true) (bound : ∀ n ∈ args, n.Bound st.table) (valid : st.Valid)
    (grows : l.table.Grows st.table)
    (emits : (Node.call f.name args returns line).Emits ctx st want code st')
    (installed : M.Installed ctx st' before code after) (fixed : M.Fixed m)
    (denote : args.map (·.value? M.arithmetic M.mayRead m) = words.map some) (stack : List Word)
    (positions : List Nat) :
    ∃ (c : Machine.Config) (saved : List Word) (back : Nat),
      M.Reaches 0 M.code.length ⟨before.length, m, stack, positions⟩ c ∧ M.Entered f m words c ∧
      c.pc = entry + 1 + f.params.length ∧ c.stack = saved ++ stack ∧ c.returns = back :: positions ∧
      ∀ (m₂ : Memory) (returned : List Word), returned.length = (if f.returnType = .ok .void then 0 else 1) →
        M.Reaches 0 M.code.length c ⟨back, m₂, returned ++ c.stack, positions⟩ →
        ∃ m₃, M.Reaches 0 M.code.length ⟨before.length, m, stack, positions⟩
            ⟨before.length + code.length, m₃, stack, positions⟩ ∧
          M.Returned st m m₂ returned want m₃ := by
  obtain ⟨signed, hasParams⟩ := Layout.ofProgram_describes p settings l isLayout
  obtain ⟨g, found, describes⟩ := signed f defined
  obtain ⟨rest, rfl⟩ := Codegen.functionBlock_begins (functions ▸ found) _ _ _ isBlock
  have hosts := installed.hosts
  obtain ⟨depth, result, s, called, sameTable, wanted⟩ := emits.called
  have hosts' : M.Hosts s := ⟨hosts.valid, sameTable ▸ hosts.grows⟩
  have obeys := M.obeys_rules ctx.settings.reuse
  obtain ⟨repeats, contained⟩ := evalBelow_repeats (t := st.table) obeys ctx.settings.reuse_ne_never depth
  obtain ⟨front, rear, rfl, internsCall, run⟩ := Codegen.callFunction_ends repeats contained arePure bound
    valid (.refl _) _ _ _ called
  obtain ⟨saved, m₁, moves, ready, finish⟩ := run hosts' fixed denote
  -- The parameters of the callee, as slots of the machine.
  obtain ⟨rs, areNames, nodup, stored⟩ := (hasParams g (List.mem_of_find?_eq_some found)).slots
    (Layout.ofProgram_laid p settings l isLayout).valid
  have known : ∀ r ∈ rs, M.cell? r.asmName = some r.address := by
    intro r mem
    obtain ⟨r', stored', becomes⟩ := grows.slots r (stored r mem).1
    rw [← becomes.asmName, ← becomes.address]
    exact hosts'.cell?_eq (.of_mem (internsCall.mem stored') (becomes.kind ▸ (stored r mem).2))
  have counts : rs.length = f.params.length := by
    rw [← describes.count, ← areNames, List.length_map]
  have countWords : rs.length = words.length := by
    have := congrArg List.length denote
    simp only [List.length_map] at this
    omega
  have placed := installed.placed (emits.tame valid)
  obtain ⟨placedFront, isCall, -, placedRear⟩ := Machine.placed_append.1 placed
  have start := (moves before.length stack positions placedFront).whole
  rw [List.append_assoc] at start
  have enter := Machine.reaches_body known countWords (m := m₁) isCall (areNames ▸ callee)
    (saved ++ stack) positions
  refine ⟨_, saved, before.length + front.length + 1, start.trans enter,
    Machine.entered_of_pops known countWords (areNames.trans describes.params) nodup ready,
    by rw [counts], rfl, rfl, fun m₂ returned count₂ comesBack => ?_⟩
  simp only [isType, Except.ok.injEq] at count₂
  obtain ⟨m₃, movesRear, kept⟩ := finish m₂ returned count₂
  have last := (movesRear (before.length + front.length + 1) stack positions placedRear).whole
  rw [List.append_assoc] at last
  refine ⟨m₃, ?_, ⟨kept.restored, fun w mem => ?_, kept.others⟩⟩
  · have sameEnd : before.length + (front ++ Instr.call (functionLabel f.name) :: rear).length =
        before.length + front.length + 1 + rear.length := by
      simp only [List.length_append, List.length_cons]
      omega
    rw [sameEnd]
    exact start.trans (enter.trans (comesBack.trans last))
  · obtain ⟨r, isRegister, notHeld, value, isResult⟩ := kept.value w mem
    exact ⟨r, isRegister, notHeld, value, fun o mem => isResult o (wanted o mem)⟩

namespace Sample

/-- A function that gives its second argument. -/
def choosing : String :=
  "long x, y; long second(long a, long b) \x7b return b; \x7d void main(void) \x7b \x7d"

def choosingTable : SlotTable :=
  ⟨[r0, r1, r2, x, y, ⟨5, "a", "second_a", .long, "second", .long, 1, none, none⟩,
    ⟨6, "b", "second_b", .long, "second", .long, 1, none, none⟩], 7, []⟩

/-- The function is compiled to this block, and has two parameters. -/
theorem choosing_compiles : (Contract.read choosing {}).Succeeds fun c => ∃ f ∈ c.program.functions,
    (Codegen.functionBlock f).Succeeds (context c) (.ofLayout c.layout) fun block _ _ => block =
          [.label "__fn_second", .pop "second_a", .pop "second_b", .push "second_b", .ret] ∧
        c.layout.table = choosingTable ∧ f.name = "second" ∧
        f.params = [⟨.long, false, "a", 1⟩, ⟨.long, false, "b", 1⟩] ∧ f.returnType = .ok .long := by
  decide +kernel

end Sample

/-- `second(x, y - x)` is 8, in a register other than the one in use, which is restored. What `y` holds was
fixed by a phrase before the call. -/
theorem Node.call_binds_second :
    let code : List Instr := [.push "r0", .set "r1" "y", .binary .sub "r1" "x", .push "r1", .push "x",
      .call "__fn_second", .pop "r1", .pop "r0"]
    let block : List Instr :=
      [.label "__fn_second", .pop "second_a", .pop "second_b", .push "second_b", .ret]
    let table := Sample.choosingTable.setContents "y" (some "0000000000000009")
    let M : Machine := ⟨Sample.arithmetic, table, code ++ block⟩
    ∃ m', M.Reaches 0 13 ⟨0, Sample.memory, [], []⟩ ⟨8, m', [], []⟩ ∧ m' 0 = Sample.memory 0 ∧
      m' 1 = 8 := by
  intro code block table M
  obtain ⟨c, isContract, f, listed, _, lines, s, isBlock, rfl, isTable, name, params, returns⟩ :=
    Sample.choosing_compiles
  let y : Slot := { Sample.y with contents := some "0000000000000009" }
  let args : List Node := [.slot Sample.x 1, .binary .sub (.slot y 1) (.slot Sample.x 1) 1]
  let ctx := Sample.context c
  let st (held : List Slot) : State := { Sample.state 0 held with table := table }
  have emits : (Node.call f.name args .long 1).Emits ctx (st [Sample.r0])
      (some (.ofRegister Sample.r1)) code (st [Sample.r0, Sample.r1]) := by
    rw [name]
    rfl
  have installed : M.Installed ctx (st [Sample.r0, Sample.r1]) [] code block :=
    ⟨rfl, by simp [Instr.labels], LabelId.scrambled_distinct _ 0 (by decide), by decide, .refl _⟩
  have whole : M.code = code ++ (block ++ []) := rfl
  have callee : M.Placed 8 block := Machine.placed_of_fresh whole (by decide) (by decide)
  have grows : c.layout.table.Grows (st [Sample.r0]).table := by
    rw [isTable]
    exact SlotTable.grows_setContents rfl (by decide) rfl _
  have count : args.length = f.params.length := by
    rw [params]
    rfl
  have denote : args.map (·.value? M.arithmetic M.mayRead Sample.memory) =
      ([1, 8] : List Word).map some := by decide
  obtain ⟨⟨pc, m, stack, positions⟩, saved, back, reaches, entered, isPc, isStack, isReturns,
    finish⟩ := Node.call_binds (Contract.layout_of_read isContract)
    listed rfl isBlock callee count returns
    (by decide) (by decide) (by decide) grows emits installed (by decide) denote [] []
  -- The body pushes its second parameter and returns.
  have holds : M.get? ⟨pc, m, stack, positions⟩ "second_b" = some 8 := by
    have both := entered.params
    rw [params, name] at both
    exact (List.cons.inj (List.cons.inj both).2).1
  obtain rfl : pc = 11 := by
    rw [params] at isPc
    exact isPc
  obtain rfl : positions = [back] := isReturns
  have push : M.step ⟨11, m, stack, [back]⟩ = some ⟨12, m, 8 :: stack, [back]⟩ := by
    have line : M.code[11]? = some (.push "second_b") := rfl
    simp [Machine.step, line, Machine.perform, holds, Machine.Config.next]
  have ret : M.step ⟨12, m, 8 :: stack, [back]⟩ = some ⟨back, m, 8 :: stack, []⟩ := rfl
  have body : M.Reaches 0 M.code.length ⟨11, m, stack, [back]⟩ ⟨back, m, [8] ++ stack, []⟩ :=
    .trans (Machine.Reaches.single (Nat.le_refl 11) (Nat.lt_succ_self 11) push).whole
      (Machine.Reaches.single (Nat.le_refl 12) (Nat.lt_succ_self 12) ret).whole
  obtain ⟨m', run, returned⟩ := finish m [8] (by simp [returns]) body
  obtain ⟨r, -, -, value, isResult⟩ := returned.value 8 List.mem_cons_self
  refine ⟨m', run, returned.restored 0 ⟨⟨Sample.r0, true⟩, by decide, rfl, rfl⟩, ?_⟩
  obtain rfl : 1 = r := isResult _ rfl
  exact value

end ContractCompiler
