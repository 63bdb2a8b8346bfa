import ContractCompiler.Proofs.Program
import ContractCompiler.Proofs.Variation.Sentence

/-!
# Proofs.Registers — more registers than needed

A contract that takes no address cannot tell where its cells are. With more registers its variables move
up, and its code takes the same registers as before, since the lowest free one is always taken: what
compiles with some registers compiles to the same blocks with more (`Assembly.ofProgram_more_registers`).
What differs is the memory: there are more registers in it, and the rest is moved.
-/

namespace ContractCompiler

set_option autoImplicit false

/-- More registers, and the same labels. -/
def Variation.moreRegisters (few many : Nat) : Variation := ⟨few, many - few, Eq⟩

namespace Assembly

open SlotTable (registerSlot)

variable {p : Program} {l : Layout} {a : Assembly} {few many : Nat}

/-- A contract that takes no address and compiles with some registers compiles with more, into the same
blocks. In memory the registers are followed by the same slots, moved by the registers that were added.
That addresses are words with a sign is the one limit. -/
theorem ofProgram_more_registers (settings : Settings) (randomId : Nat → String) (more : few ≤ many)
    (noAddress : p.takesAddress = false)
    (isLayout : Layout.ofProgram p { settings with maxAuxVars := few } = .ok l)
    (assembled : ofProgram p l { settings with maxAuxVars := few } randomId = .ok a)
    (small : ∀ l', Layout.ofProgram p { settings with maxAuxVars := many } = .ok l' → l'.table.Small) :
    ∃ l' a', Layout.ofProgram p { settings with maxAuxVars := many } = .ok l' ∧
      ofProgram p l' { settings with maxAuxVars := many } randomId = .ok a' ∧
      a'.blocks = a.blocks ∧
      ∃ rest, a.table.slots = (List.range few).map registerSlot ++ rest ∧
        a'.table.slots = (List.range many).map registerSlot ++
          rest.map (Variation.moreRegisters few many).slot := by
  let v : Pairing := ⟨Variation.moreRegisters few many, false, False⟩
  have registers : v.registers + v.extra = many := Nat.add_sub_of_le more
  have layouts : v.Outcomes v.Layouts (Layout.ofProgram p { settings with maxAuxVars := few })
      (Layout.ofProgram p { settings with maxAuxVars := many }) :=
    Variation.Layouts.ofProgram p rfl registers.symm
  rw [isLayout] at layouts
  obtain ⟨l', isLayout', layouts⟩ := layouts
  have inside : v.Small l.table := by
    refine .inr fun s stored isLong => ?_
    have below := (Layout.ofProgram_laid _ _ l isLayout).valid.address_lt stored (by simp [isLong])
    have bound : l'.table.next ≤ 9223372036854775808 := small l' isLayout'
    rw [layouts.tables.next] at bound
    omega
  have contexts : v.Contexts ⟨{ settings with maxAuxVars := few }, l.functions, randomId, none, none, false⟩
      ⟨{ settings with maxAuxVars := many }, l'.functions, randomId, none, none, false⟩ :=
    ⟨rfl, rfl, (Bool.and_true _).symm, layouts.functions, rfl, .none, rfl, fun _ _ => rfl⟩
  have assemblies := Pairing.assembly_agrees id rfl layouts inside (.inr noAddress) contexts
  rw [assembled] at assemblies
  obtain ⟨a', assembled', blocks, tables⟩ := assemblies
  have same : a.blocks = a'.blocks :=
    List.forall₂_eq_eq_eq ▸ blocks.imp fun _ _ => Variation.Lines.eq fun _ _ same => same
  obtain ⟨rest, slots, slots', -⟩ := tables.slots
  rw [registers] at slots'
  exact ⟨l', a', isLayout', assembled', same.symm, rest, slots, slots'⟩

end Assembly

namespace Sample

/-- A loop, elements, and a call that saves a register. -/
def tight : String :=
  "long a[4], i, s; long f(long n) \x7b return a[n] * 2; \x7d " ++
    "void main(void) \x7b for (i = 0; i < 4; i++) s = s + (s * a[1] - f(i)) * a[i]; \x7d"

/-- The contract takes no address and compiles with two registers. -/
theorem tight_compiles : (Contract.read tight { maxAuxVars := 2 }).Succeeds fun c =>
    (Assembly.ofProgram c.program c.layout c.settings (LabelId.scrambled 0)).Succeeds fun _ =>
      (Layout.ofProgram c.program { c.settings with maxAuxVars := 8 }).Succeeds fun l =>
        c.settings.maxAuxVars = 2 ∧ c.program.takesAddress = false ∧ l.table.Small := by
  decide +kernel

end Sample

/-- With eight registers in place of two the blocks are the same. -/
theorem Assembly.ofProgram_more_registers_tight : ∃ (c : Contract) (a a' : Assembly) (l : Layout),
    Contract.read Sample.tight { maxAuxVars := 2 } = .ok c ∧ c.settings.maxAuxVars = 2 ∧
    c.program.takesAddress = false ∧
    ofProgram c.program c.layout c.settings (LabelId.scrambled 0) = .ok a ∧
    Layout.ofProgram c.program { c.settings with maxAuxVars := 8 } = .ok l ∧ l.table.Small ∧
    ofProgram c.program l { c.settings with maxAuxVars := 8 } (LabelId.scrambled 0) = .ok a' ∧
    a'.blocks = a.blocks := by
  obtain ⟨c, isContract, a, assembled, l, isLayout, two, noAddress, small⟩ := Sample.tight_compiles
  have same : { c.settings with maxAuxVars := 2 } = c.settings := by rw [← two]
  obtain ⟨l', a', isLayout', assembled', blocks, -⟩ :=
    ofProgram_more_registers c.settings (LabelId.scrambled 0) (by decide : 2 ≤ 8) noAddress
      (same.symm ▸ Contract.layout_of_read isContract) (same.symm ▸ assembled) (by
        intro l' isLayout'
        rw [← Except.ok.inj (isLayout.symm.trans isLayout')]
        exact small)
  obtain rfl := Except.ok.inj (isLayout.symm.trans isLayout')
  exact ⟨c, a, a', l, isContract, two, noAddress, assembled, isLayout, small, assembled', blocks⟩

end ContractCompiler
