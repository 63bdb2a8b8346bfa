import ContractCompiler.Proofs.Machine.Leads

/-!
# Proofs.Machine.Moves — what a piece of code does to the stack

`Machine.Moves code m top m' top'` says of code that is placed anywhere: it runs from its first line to
its end, takes the memory `m` to `m'`, and replaces the words `top` on top of the stack by `top'`,
whatever lies below. Slots that are pushed one after the other are taken from the stack in the opposite
order (`Moves.pushes`, `Moves.pops`).
-/

namespace ContractCompiler

set_option autoImplicit false

namespace Memory

variable {m : Memory} {cells : List Int} {words : List Word} {a : Int}

/-- The memory with some cells changed one after the other. -/
def setAll (m : Memory) : List Int → List Word → Memory
  | a :: cells, w :: words => (m.set a w).setAll cells words
  | _, _ => m

theorem setAll_of_not_mem (other : a ∉ cells) : m.setAll cells words a = m a := by
  induction cells generalizing m words with
  | nil => rfl
  | cons b cells ih =>
    rw [List.mem_cons, not_or] at other
    obtain ⟨ne, other⟩ := other
    cases words with
    | nil => rfl
    | cons w words => rw [setAll, ih other, set_of_ne ne]

/-- Where no cell is changed twice, every cell holds its word. -/
theorem map_setAll (nodup : cells.Nodup) (count : cells.length = words.length) :
    cells.map (m.setAll cells words) = words := by
  induction cells generalizing m words with
  | nil => exact (List.length_eq_zero_iff.1 count.symm).symm
  | cons a cells ih =>
    obtain ⟨notMem, nodup⟩ := List.nodup_cons.1 nodup
    cases words with
    | nil => cases count
    | cons w words =>
      rw [setAll, List.map_cons, setAll_of_not_mem notMem, set_self,
        ih nodup (Nat.succ.inj count)]

end Memory

namespace Machine

variable {M : Machine} {code rest : List Instr} {m m' m'' : Memory} {top top' top'' : List Word}

variable (M) in
/-- The code, wherever it is placed, leads from its first line to its end, from one memory to another,
and from some words on top of the stack to others. -/
def Moves (code : List Instr) (m : Memory) (top : List Word) (m' : Memory) (top' : List Word) : Prop :=
  ∀ (pos : Nat) (stack : List Word) (returns : List Nat), M.Placed pos code →
    M.Reaches pos (pos + code.length) ⟨pos, m, top ++ stack, returns⟩
      ⟨pos + code.length, m', top' ++ stack, returns⟩

namespace Moves

theorem nil (m : Memory) (top : List Word) : M.Moves [] m top m top :=
  fun _ _ _ _ => .refl _

theorem append (first : M.Moves code m top m' top') (second : M.Moves rest m' top' m'' top'') :
    M.Moves (code ++ rest) m top m'' top'' := by
  intro pos stack returns placed
  obtain ⟨placedCode, placedRest⟩ := placed_append.1 placed
  rw [List.length_append, ← Nat.add_assoc]
  exact .trans ((first pos stack returns placedCode).widen (Nat.le_refl _) (by omega))
    ((second _ stack returns placedRest).widen (by omega) (Nat.le_refl _))

/-- Words below stay where they are. -/
theorem above (moves : M.Moves code m top m' top') (below : List Word) :
    M.Moves code m (top ++ below) m' (top' ++ below) := by
  intro pos stack returns placed
  rw [List.append_assoc, List.append_assoc]
  exact moves pos (below ++ stack) returns placed

/-- Code that leaves the stack alone. -/
theorem of_leads (leads : M.Leads code none m m') (top : List Word) : M.Moves code m top m' top :=
  fun pos stack returns placed => leads pos _ (top ++ stack) returns placed rfl

/-! ## Slots on the stack -/

theorem push {name : String} {a : Int} (known : M.cell? name = some a) (m : Memory) :
    M.Moves [.push name] m [] m [m a] := by
  intro pos stack returns placed
  refine .single (Nat.le_refl _) (by simp) ?_
  simp [step, placed.1, perform, get?, known, Config.next]

theorem pop {name : String} {a : Int} (known : M.cell? name = some a) (m : Memory) (w : Word) :
    M.Moves [.pop name] m [w] (m.set a w) [] := by
  intro pos stack returns placed
  refine .single (Nat.le_refl _) (by simp) ?_
  simp [step, placed.1, perform, known, Config.write]

variable {rs : List Slot} {words : List Word}

/-- What slots hold is pushed, so that the word of the last one is on top. -/
theorem pushes (known : ∀ r ∈ rs, M.cell? r.asmName = some r.address) (m : Memory) :
    M.Moves (rs.map fun r => .push r.asmName) m [] m (rs.map fun r => m r.address).reverse := by
  induction rs with
  | nil => exact .nil m []
  | cons r rs ih =>
    obtain ⟨here, known⟩ := List.forall_mem_cons.1 known
    rw [List.map_cons, List.map_cons, List.reverse_cons]
    exact (push here m).append ((ih known).above [m r.address])

/-- Words are taken from the stack into slots, the word on top into the first one. -/
theorem pops (known : ∀ r ∈ rs, M.cell? r.asmName = some r.address)
    (count : rs.length = words.length) (m : Memory) :
    M.Moves (rs.map fun r => .pop r.asmName) m words (m.setAll (rs.map (·.address)) words) [] := by
  induction rs generalizing m words with
  | nil =>
    obtain rfl := List.length_eq_zero_iff.1 count.symm
    exact .nil m []
  | cons r rs ih =>
    obtain ⟨here, known⟩ := List.forall_mem_cons.1 known
    cases words with
    | nil => cases count
    | cons w words =>
      exact ((pop here m w).above words).append (ih known (Nat.succ.inj count) (m.set r.address w))

/-- Slots that were pushed get back what they held, if they are taken from the stack in the opposite
order. -/
theorem restores (known : ∀ r ∈ rs, M.cell? r.asmName = some r.address)
    (nodup : (rs.map (·.address)).Nodup) (m m' : Memory) :
    ∃ m'', M.Moves (rs.reverse.map fun r => .pop r.asmName) m' (rs.map fun r => m r.address).reverse
        m'' [] ∧ (∀ r ∈ rs, m'' r.address = m r.address) ∧
      ∀ a, a ∉ rs.map (·.address) → m'' a = m' a := by
  have known' : ∀ r ∈ rs.reverse, M.cell? r.asmName = some r.address := by simpa using known
  have nodup' : (rs.reverse.map (·.address)).Nodup :=
    ((List.reverse_perm rs).map _).nodup_iff.2 nodup
  have count : rs.reverse.length = (rs.reverse.map fun r => m r.address).length := by simp
  rw [← List.map_reverse]
  refine ⟨_, pops known' count m', fun r mem => ?_, fun a other => ?_⟩
  · have words : (rs.reverse.map (·.address)).map (m'.setAll (rs.reverse.map (·.address))
        (rs.reverse.map fun r => m r.address)) = rs.reverse.map fun r => m r.address :=
      Memory.map_setAll nodup' (by simp)
    rw [List.map_map] at words
    exact List.map_inj_left.1 words r (List.mem_reverse.2 mem)
  · exact Memory.setAll_of_not_mem (by simpa using other)

end Moves

end Machine

end ContractCompiler
