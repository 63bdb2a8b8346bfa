import ContractCompiler.Proofs.Anchor
import ContractCompiler.Proofs.Assembly
import ContractCompiler.Proofs.Name
import ContractCompiler.Proofs.Program
import ContractCompiler.Proofs.Sentence.Refers

/-!
# Proofs.OperandClosure — every operand is declared

The header of a compiled contract declares the cells of the final table, each under a name of its own
that is not empty. The code names cells of that table (`Codegen.blocks_refer`), and fixes variables that
are no arrays and no constants, which the header fixes. So the output is closed under its operands, and
fixes no cell twice (`compile_operands_declared`).
-/

namespace ContractCompiler

set_option autoImplicit false

open Outcome (Ensures)

/-! ## Names of cells -/

namespace SlotTable

variable {t t' : SlotTable}

/-- Every slot has a name that may stand in a line, and so has every member of a struct. -/
structure AllNamed (t : SlotTable) : Prop where
  slots : ∀ s ∈ t.slots, Text.isName s.asmName = true
  members : ∀ entry ∈ t.structs, ∀ m ∈ entry.2, Text.isName m.name = true

theorem isName_storedName {name scope : String} (named : Text.isName name = true)
    (place : scope = Slot.globalScope ∨ Text.isName scope = true) : Text.isName (storedName name scope) = true := by
  unfold storedName
  split
  · exact named
  · rename_i notGlobal
    exact Text.isName_joined (place.resolve_left notGlobal) named

theorem AllNamed.of_member (allNamed : t.AllNamed) {tag : String} {m : Member}
    (isMember : m ∈ (t.members? tag).getD []) : Text.isName m.name = true := by
  cases found : t.members? tag with
  | none => simp [found] at isMember
  | some members =>
    rw [found] at isMember
    obtain ⟨before, after, split, -⟩ := List.lookup_eq_some_iff.1 found
    exact allNamed.members (tag, members) (by simp [split]) m isMember

theorem AllNamed.parts (allNamed : t.AllNamed) {s : Slot} (named : Text.isName s.asmName = true) :
    ∀ part ∈ t.parts s, Text.isName part.1 = true := by
  intro part mem
  unfold SlotTable.parts at mem
  split at mem
  · obtain ⟨i, -, rfl⟩ := List.mem_map.1 mem
    exact Text.isName_joined named (Text.isName_toString i)
  · obtain ⟨m, isMember, rfl⟩ := List.mem_map.1 mem
    exact Text.isName_joined named (allNamed.of_member isMember)
  · cases mem

theorem AllNamed.stores {scope : String} {s : Slot} (allNamed : t.AllNamed) (named : Text.isName s.name = true)
    (place : scope = Slot.globalScope ∨ Text.isName scope = true) (stores : t.Stores scope s t') :
    t'.AllNamed := by
  have stored : Text.isName s.asmName = true := by
    rw [stores.asmName]
    exact isName_storedName named place
  refine ⟨?_, by rw [stores.table]; exact allNamed.members⟩
  rw [stores.slots]
  refine List.forall_mem_append.2 ⟨allNamed.slots, List.forall_mem_cons.2 ⟨?_, fun e mem => ?_⟩⟩
  · rwa [place_asmName]
  · obtain ⟨i, part, listed, rfl⟩ := mem_partSlots.1 mem
    exact allNamed.parts stored part (List.mem_of_getElem? listed)

end SlotTable

/-- If the names of a contract may stand in a line, those of the slots may. -/
theorem Layout.ofProgram_allNamed {p : Program} {inside : Nat → Prop}
    (within : p.Within inside fun name => TokenKind.identifier.Lexical name.toList) (settings : Settings) :
    Ensures (ofProgram p settings) fun l => l.table.AllNamed := by
  refine ofProgram_keeps (fun structs named => ⟨fun s stored => ?_, fun entry listed m isMember => ?_⟩)
    fun declared stores allNamed => allNamed.stores (within.variables _ declared.1).isName ?_ stores
  · obtain ⟨-, i, -, name⟩ := (SlotTable.ofRegisters_valid settings.maxAuxVars).2 s stored
    rw [name]
    exact Text.isName_append rfl (Text.isName_toString i)
  · obtain ⟨s, isStruct, d, declares, name⟩ := named entry listed m isMember
    rw [name]
    exact ((within.structs s isStruct).members d declares).name.isName
  · refine declared.2.imp_right ?_
    rintro ⟨f, isFunction, rfl⟩
    exact (within.functions f isFunction).name.isName

theorem SlotTable.Derives.allNamed {t t' : SlotTable} (derives : t.Derives t') (allNamed : t.AllNamed) :
    ∀ s ∈ t'.slots, Text.isName s.asmName = true := by
  intro s stored
  rcases derives.origin s stored with ⟨s₀, stored₀, becomes⟩ | ⟨value, -, name, -⟩
  · rw [becomes.asmName]
    exact allNamed.slots s₀ stored₀
  · rw [name]
    exact Text.isName_append rfl (Text.isName_toString _)

/-! ## The header -/

namespace Assembly

variable {a : Assembly} (valid : a.table.Valid)
include valid

theorem nodup_declared_header : (Instr.declared a.header).Nodup := by
  rw [declared_header]
  exact (List.filter_sublist.map _).nodup valid.names

/-- A cell of the final table is declared. -/
theorem mem_declared_header {name : String} (has : a.table.HasName name) :
    name ∈ Instr.declared a.header := by
  obtain ⟨s, stored, hasCell, rfl⟩ := has
  have somewhere := (valid.address_lt stored hasCell).1
  rw [declared_header]
  exact List.mem_map_of_mem (List.mem_filter.2 ⟨stored, decide_eq_true somewhere⟩)

omit valid in
/-- What the header fixes is an array or a constant. -/
theorem kept_of_fixes_header {name : String} (fixed : name ∈ Instr.fixes a.header) :
    ∃ s ∈ a.table.slots, s.asmName = name ∧ (s.kind = .array ∨ s.kind = .constant) := by
  rw [fixes_header] at fixed
  obtain ⟨s, listed, rfl⟩ := List.mem_map.1 fixed
  obtain ⟨stored, passes⟩ := List.mem_filter.1 listed
  simp only [Bool.and_eq_true, Bool.or_eq_true, beq_iff_eq] at passes
  exact ⟨s, stored, rfl, passes.1.2⟩

/-- The header fixes no cell twice, and none that the code fixes. -/
theorem nodup_fixes_lines {t : SlotTable} (once : t.FixesOnce a.blocks.flatten a.table) :
    (Instr.fixes a.lines).Nodup := by
  rw [lines, Instr.fixes_append]
  refine List.nodup_append.2 ⟨?_, once.1, ?_⟩
  · rw [fixes_header]
    exact (List.filter_sublist.map _).nodup valid.names
  · intro name inHeader name' inCode same
    obtain ⟨s, stored, isName, kind⟩ := kept_of_fixes_header inHeader
    obtain ⟨s', stored', isName', -, notArray, notConstant⟩ := (once.2 name' inCode).2
    obtain rfl := valid.eq_of_asmName stored stored' (isName.trans (same.trans isName'.symm))
    rcases kind with array | constant
    · exact notArray array
    · exact notConstant constant

end Assembly

/-! ## Compiled contracts -/

theorem Assembly.ofProgram_eq_ok {p : Program} {l : Layout} {settings : Settings} {randomId : Nat → String}
    {a : Assembly} (assembled : Assembly.ofProgram p l settings randomId = .ok a) :
    ∃ blocks code s, Codegen.blocks p ⟨settings, l.functions, randomId, none, none, false⟩ (.ofLayout l) =
      .done blocks code s ∧ a = ⟨settings, s.table, blocks⟩ := by
  unfold ofProgram at assembled
  split at assembled
  · rename_i blocks code s done
    cases assembled
    exact ⟨blocks, code, s, done, rfl⟩
  · cases assembled

theorem compile_eq_ok {source text : String} {settings : Settings} {randomId : Nat → String}
    (compiled : compile source settings randomId = .ok text) :
    ∃ c a, Contract.read source settings = .ok c ∧
      Assembly.ofProgram c.program c.layout c.settings randomId = .ok a ∧ text = a.render := by
  unfold compile at compiled
  cases isContract : Contract.read source settings with
  | error e => simp [isContract, bind, Except.bind] at compiled
  | ok c =>
    cases assembled : Assembly.ofProgram c.program c.layout c.settings randomId with
    | error e => simp [isContract, assembled, bind, Except.bind] at compiled
    | ok a =>
      have rendered : a.render = text := by
        simpa [isContract, assembled, bind, Except.bind, pure, Except.pure] using compiled
      exact ⟨c, a, rfl, assembled, rendered.symm⟩

/-- The code of a compiled contract names cells of the final table, which is made from the one that the
contract is laid out in. -/
theorem Contract.refers {source : String} {settings : Settings} {randomId : Nat → String} {c : Contract}
    {a : Assembly} (isContract : Contract.read source settings = .ok c)
    (assembled : Assembly.ofProgram c.program c.layout c.settings randomId = .ok a) :
    c.layout.table.Laid ∧ ∃ blocks code s, Codegen.blocks c.program
      ⟨c.settings, c.layout.functions, randomId, none, none, false⟩ (.ofLayout c.layout) = .done blocks code s ∧
      a = ⟨c.settings, s.table, blocks⟩ ∧ (Codegen.State.ofLayout c.layout).Refers blocks.flatten s := by
  obtain ⟨blocks, code, s, done, rfl⟩ := Assembly.ofProgram_eq_ok assembled
  have isLayout := Contract.layout_of_read isContract
  have laid := Layout.ofProgram_laid c.program c.settings c.layout isLayout
  have params := (Layout.ofProgram_describes c.program c.settings c.layout isLayout).2
  have isCell : ∀ f ∈ c.layout.functions, ∀ x ∈ f.params, c.layout.table.HasName x := by
    intro f isFunction x isParam
    obtain ⟨s, stored, rfl, kind⟩ := (params f isFunction).stored x isParam
    refine ⟨s, stored, ?_, rfl⟩
    rcases kind with kind | kind <;> simp [kind]
  exact ⟨laid, blocks, code, s, done, rfl, Codegen.blocks_refer laid isCell c.program _ _ _ _ done (.refl _)
    ⟨Codegen.State.ofLayout_valid laid.valid, nofun⟩⟩

/-- Every line of a compiled contract is a fact or legible. -/
theorem Contract.lines_legible {source : String} {settings : Settings} {randomId : Nat → String}
    {c : Contract} {a : Assembly} (isContract : Contract.read source settings = .ok c)
    (assembled : Assembly.ofProgram c.program c.layout c.settings randomId = .ok a) :
    ∀ i ∈ a.lines, i ∈ Assembly.facts c.settings ∨ i.isLegible = true := by
  obtain ⟨laid, blocks, code, s, -, rfl, refers⟩ := Contract.refers isContract assembled
  refine List.forall_mem_append.2 ⟨List.forall_mem_append.2 ⟨fun i => .inl, fun i declared => .inr ?_⟩,
    fun i mem => .inr (refers.legible i mem)⟩
  obtain ⟨e, stored, isLine⟩ := List.mem_flatMap.1 declared
  rcases Assembly.eq_of_mem_declaration isLine with rfl | ⟨hex, rfl, contents, kind⟩
  · rfl
  · obtain ⟨w, isWord⟩ := laid.contents_eq refers.derives stored kind
    obtain rfl := Option.some.inj (contents.symm.trans isWord)
    exact Word.isText_toHex w

/-- The operands of a compiled contract. The declared names are different. Every operand of a line, in the
header or in the code, is one of them; it is not empty, and no struct variable has that name. No cell is
fixed twice in the whole output. -/
theorem compile_operands_declared (source : String) (settings : Settings) (randomId : Nat → String)
    {text : String} (compiled : compile source settings randomId = .ok text) :
    ∃ (c : Contract) (a : Assembly), Contract.read source settings = .ok c ∧
      Assembly.ofProgram c.program c.layout c.settings randomId = .ok a ∧ text = a.render ∧
      (Instr.declared a.lines).Nodup ∧
      (∀ i ∈ a.lines, ∀ name ∈ i.operands, name ∈ Instr.declared a.lines ∧ name ≠ "" ∧
        ∀ s ∈ a.table.slots, s.asmName = name → s.kind ≠ .struct) ∧
      (Instr.fixes a.lines).Nodup := by
  obtain ⟨c, a, isContract, assembled, rendered⟩ := compile_eq_ok compiled
  refine ⟨c, a, isContract, assembled, rendered, ?_⟩
  obtain ⟨-, blocks, code, s, -, rfl, refers⟩ := Contract.refers isContract assembled
  have allNamed := Layout.ofProgram_allNamed (Contract.read_names source settings c isContract) c.settings
    c.layout (Contract.layout_of_read isContract)
  have valid : s.table.Valid := refers.ready.valid.table
  have declared : Instr.declared (Assembly.lines ⟨c.settings, s.table, blocks⟩) =
      Instr.declared (Assembly.header ⟨c.settings, s.table, blocks⟩) := by
    rw [Assembly.lines, Instr.declared_append, refers.declares, List.append_nil]
  rw [declared]
  refine ⟨Assembly.nodup_declared_header valid, ?_, Assembly.nodup_fixes_lines valid refers.fixes⟩
  intro i mem name isOperand
  have has : s.table.HasName name := by
    rcases List.mem_append.1 mem with inHeader | inCode
    · obtain ⟨e, stored, rfl, kind⟩ :=
        Assembly.kept_of_fixes_header (Assembly.mem_fixes_header inHeader isOperand)
      refine ⟨e, stored, ?_, rfl⟩
      rcases kind with kind | kind <;> simp [kind]
    · exact refers.operands i inCode name isOperand
  refine ⟨Assembly.mem_declared_header valid has, ?_, ?_⟩
  · obtain ⟨e, stored, -, rfl⟩ := has
    exact (Text.isName_iff.1 (refers.derives.allNamed allNamed e stored)).1
  · intro e stored isName
    obtain ⟨e', stored', hasCell, isName'⟩ := has
    obtain rfl := valid.eq_of_asmName stored stored' (isName.trans isName'.symm)
    exact hasCell

namespace Sample

/-- A member, elements, a constant that is kept, contents that are fixed, and a call. -/
def mixed : String :=
  "#pragma maxConstVars 1\nstruct P \x7b long x; \x7d; struct P p; long a[2]; const long k = 7; " ++
    "long f(long n) \x7b return a[n]; \x7d void main(void) \x7b p.x = f(k) + 5; \x7d"

/-- The contract is compiled, and fixes an array, a constant and a variable. -/
theorem mixed_fixes : (Contract.read mixed settings).Succeeds fun c =>
    (Assembly.ofProgram c.program c.layout c.settings (LabelId.scrambled 0)).Succeeds fun a =>
      (∃ s ∈ a.table.slots, s.kind = .struct) ∧ (Instr.declared a.lines).length = 10 ∧
        Instr.fixes a.lines = ["a", "n5", "k"] := by
  decide +kernel

end Sample

/-- An array, a constant and a variable are fixed, each once. The struct variable is not declared, but the
ten cells are. -/
theorem compile_operands_declared_mixed : ∃ (c : Contract) (a : Assembly),
    Contract.read Sample.mixed Sample.settings = .ok c ∧
    Assembly.ofProgram c.program c.layout c.settings (LabelId.scrambled 0) = .ok a ∧
    (∃ s ∈ a.table.slots, s.kind = .struct) ∧ (Instr.declared a.lines).length = 10 ∧
    Instr.fixes a.lines = ["a", "n5", "k"] ∧ (Instr.declared a.lines).Nodup ∧
    (Instr.fixes a.lines).Nodup ∧
    ∀ i ∈ a.lines, ∀ name ∈ i.operands, name ∈ Instr.declared a.lines ∧ name ≠ "" := by
  obtain ⟨c, isContract, a, assembled, isStruct, count, fixed⟩ := Sample.mixed_fixes
  have compiled : compile Sample.mixed Sample.settings = .ok a.render := by
    simp [compile, isContract, assembled, bind, Except.bind, pure, Except.pure]
  obtain ⟨c', a', isContract', assembled', -, nodup, operands, once⟩ :=
    compile_operands_declared Sample.mixed Sample.settings (LabelId.scrambled 0) compiled
  obtain rfl := Except.ok.inj (isContract.symm.trans isContract')
  obtain rfl := Except.ok.inj (assembled.symm.trans assembled')
  refine ⟨c, a, isContract, assembled, isStruct, count, fixed, nodup, once, fun i mem name isOperand => ?_⟩
  obtain ⟨declared, named, -⟩ := operands i mem name isOperand
  exact ⟨declared, named⟩

end ContractCompiler
