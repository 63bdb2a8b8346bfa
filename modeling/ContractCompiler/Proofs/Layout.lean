import ContractCompiler.Layout
import ContractCompiler.Proofs.Outcome
import ContractCompiler.Proofs.SlotTable
import ContractCompiler.Proofs.Word

/-!
# Proofs.Layout — what the layout of a contract provides

To lay out a contract is to store one variable after the other, each with the slots of its parts behind
it (`SlotTable.Stores`, `SlotTable.Runs`). What storing a variable keeps holds of the table of every
contract (`Layout.ofProgram_keeps`). So the table is `Laid`: it is valid, holds no constants yet, and
every array and every struct variable has the slots of its parts. The parts of a variable follow each
other, those of different variables stand apart, and an array holds the address of the first of its elements
(`SlotTable.Partitioned`).
-/

namespace ContractCompiler

set_option autoImplicit false

open Outcome (Ensures)

/-! ## Names of variables -/

def Declaration.names (d : Declaration) : List String := d.declarators.map (·.name)

/-- The names of the variables that are declared anywhere in some sentences. -/
def Sentence.variables (ss : List Sentence) : List String :=
  (Sentence.allDeclarations ss).flatMap Declaration.names

def FunctionDef.variables (f : FunctionDef) : List String :=
  f.params.map (·.name) ++ Sentence.variables f.body

def Program.variables (p : Program) : List String :=
  Sentence.variables p.globals ++ p.functions.flatMap FunctionDef.variables

namespace SlotTable

variable {t t' : SlotTable} {s : Slot}

/-! ## Registers -/

theorem registerName_inj {i j : Nat} (same : registerName i = registerName j) : i = j :=
  Numeral.toString_inj (String.append_right_inj "r" |>.1 same)

/-- The slot of the register with that number. -/
def registerSlot (number : Nat) : Slot :=
  { Slot.fresh (registerName number) (registerName number) .register Slot.globalScope .long with
    address := number }

theorem ofRegisters_eq (count : Nat) :
    ofRegisters count = ⟨(List.range count).map registerSlot, count, []⟩ := by
  induction count with
  | zero => rfl
  | succ count ih =>
    unfold ofRegisters at ih ⊢
    rw [List.range_succ, List.foldl_append, ih]
    simp [push, place, registerSlot, Slot.fresh]

/-- The registers of a table that holds nothing else. -/
theorem ofRegisters_valid (count : Nat) : (ofRegisters count).Valid ∧
    ∀ s ∈ (ofRegisters count).slots, s.kind = .register ∧ ∃ i < count, s.asmName = registerName i := by
  induction count with
  | zero => exact ⟨⟨rfl, by simp [ofRegisters], by simp [ofRegisters], by simp [ofRegisters]⟩,
      by simp [ofRegisters]⟩
  | succ count ih =>
    obtain ⟨valid, registers⟩ := ih
    have next : ofRegisters (count + 1) = (ofRegisters count).push (Slot.fresh (registerName count)
        (registerName count) .register Slot.globalScope .long) := by
      simp [ofRegisters, List.range_succ]
    have free : (ofRegisters count).find? (registerName count) = none := by
      refine find?_eq_none_iff.2 fun listed => ?_
      obtain ⟨s, stored, same⟩ := List.mem_map.1 listed
      obtain ⟨-, i, below, name⟩ := registers s stored
      have := registerName_inj (name.symm.trans same)
      omega
    rw [next]
    refine ⟨valid.push free rfl (by simp [Slot.fresh]), fun s stored => ?_⟩
    rcases List.mem_append.1 stored with old | new
    · obtain ⟨register, i, below, name⟩ := registers s old
      exact ⟨register, i, by omega, name⟩
    · obtain rfl := List.mem_singleton.1 new
      exact ⟨by rw [place_kind]; rfl, count, by omega, by rw [place_asmName]; rfl⟩

/-! ## Storing variables -/

theorem place_contents (t : SlotTable) (s : Slot) : (t.place s).contents = s.contents := by
  unfold place
  split <;> rfl

theorem place_size (t : SlotTable) (s : Slot) : (t.place s).size = s.size := by
  unfold place
  split <;> rfl

theorem place_type (t : SlotTable) (s : Slot) : (t.place s).type = s.type := by
  unfold place
  split <;> rfl

end SlotTable

/-- The slot is a variable of the scope or a part of one, under a name that is free for variables. -/
structure Slot.Declared (scope : String) (s : Slot) : Prop where
  scope : s.scope = scope
  kind : s.kind ≠ .register
  name : SlotTable.isReservedName s.asmName = false

namespace SlotTable

variable {t t' t'' : SlotTable} {s : Slot} {scope : String} {ss ss' : List Slot}

/-- A slot that can be stored as a variable of the scope. -/
structure Fits (t : SlotTable) (scope : String) (s : Slot) : Prop where
  free : t.find? s.asmName = none
  isNew : t.inScope? s.name scope = none
  asmName : s.asmName = storedName s.name scope
  declared : s.Declared scope
  direct : s.offset = none
  nowhere : s.address = Slot.nowhere
  notConstant : s.kind ≠ .constant

def partSlot (scope : String) (address : Nat) (part : String × ValueType) : Slot :=
  { Slot.fresh part.1 part.1 .long scope part.2 with address := address }

/-- The slots of the parts of a variable, from an address on. -/
def partSlots (scope : String) (first : Nat) (parts : List (String × ValueType)) : List Slot :=
  parts.mapIdx fun i => partSlot scope (first + i)

theorem mem_partSlots {first : Nat} {parts : List (String × ValueType)} {e : Slot} :
    e ∈ partSlots scope first parts ↔ ∃ i part, parts[i]? = some part ∧ partSlot scope (first + i) part = e := by
  simp only [partSlots, List.mem_mapIdx, List.getElem?_eq_some_iff]
  constructor
  · rintro ⟨i, below, same⟩
    exact ⟨i, _, ⟨below, rfl⟩, same⟩
  · rintro ⟨i, _, ⟨below, rfl⟩, same⟩
    exact ⟨i, below, same⟩

theorem kind_of_mem_partSlots {first : Nat} {parts : List (String × ValueType)} {e : Slot}
    (mem : e ∈ partSlots scope first parts) : e.kind = .long := by
  obtain ⟨i, part, -, rfl⟩ := mem_partSlots.1 mem
  rfl

/-- A variable of a scope is stored, and the slots of its parts behind it. -/
structure Stores (t : SlotTable) (scope : String) (s : Slot) (t' : SlotTable) : Prop extends
    Fits t scope s where
  array : s.kind = .array → s.contents = some (Word.toHex (UInt64.ofNat (t.next + 1)))
  table : t' = ⟨t.slots ++ t.place s :: partSlots scope (t.push s).next (t.parts s),
    (t.push s).next + (t.parts s).length, t.structs⟩
  parts : ∀ part ∈ t.parts s, isReservedName part.1 = false
  valid : t.Valid → t'.Valid

theorem Stores.slots (stores : t.Stores scope s t') :
    t'.slots = t.slots ++ t.place s :: partSlots scope (t.push s).next (t.parts s) := by
  rw [stores.table]

/-- All that is stored is declared in the scope. -/
theorem Stores.all_declared (stores : t.Stores scope s t') :
    ∀ e ∈ t.place s :: partSlots scope (t.push s).next (t.parts s), e.Declared scope := by
  refine List.forall_mem_cons.2 ⟨⟨?_, ?_, ?_⟩, fun e mem => ?_⟩
  · rw [place_scope, stores.declared.scope]
  · exact place_kind t s ▸ stores.declared.kind
  · exact place_asmName t s ▸ stores.declared.name
  · obtain ⟨i, part, listed, rfl⟩ := mem_partSlots.1 mem
    exact ⟨rfl, by simp [partSlot, Slot.fresh], stores.parts part (List.mem_of_getElem? listed)⟩

theorem checkName_ensures (name asmName : String) (line : Nat) :
    Ensures (t.checkName name asmName line) fun _ =>
      t.find? asmName = none ∧ isReservedName asmName = false := by
  unfold checkName
  split
  · exact .error
  · rename_i unreserved
    split
    · exact .error
    · rename_i free
      exact .ok ⟨by simpa using free, by simpa using unreserved⟩

/-- The parts of a variable become slots one after the other. -/
theorem pushParts_ensures (d : Declarator) (scope : String) (parts : List (String × ValueType))
    (t : SlotTable) : Ensures (pushParts d scope parts t) fun t' =>
      t' = ⟨t.slots ++ partSlots scope t.next parts, t.next + parts.length, t.structs⟩ ∧
        (∀ part ∈ parts, isReservedName part.1 = false) ∧ (t.Valid → t'.Valid) := by
  induction parts generalizing t with
  | nil => exact .ok ⟨by simp [partSlots], by simp, id⟩
  | cons part parts ih =>
    refine .bind ((t.checkName_ensures _ _ _).mono ?_)
    rintro _ ⟨free, unreserved⟩
    let e := Slot.fresh part.1 part.1 .long scope part.2
    refine (ih (t.push e)).mono ?_
    rintro t' ⟨rfl, rest, valid⟩
    refine ⟨?_, List.forall_mem_cons.2 ⟨unreserved, rest⟩, fun validT => valid (validT.push free rfl nofun)⟩
    have next : (t.push e).next = t.next + 1 := rfl
    have shift : (fun i => partSlot scope (t.next + 1 + i)) = fun i => partSlot scope (t.next + (i + 1)) := by
      funext i
      rw [Nat.add_assoc, Nat.add_comm 1]
    simp only [next, partSlots, List.mapIdx_cons, List.length_cons, shift, Nat.add_zero, mk.injEq]
    exact ⟨by simp [push, place, e, partSlot, Slot.fresh], by omega, rfl⟩

/-- What the shape of a declared name can be. -/
theorem slotShape_ensures (type : TypeName) (d : Declarator) :
    Ensures (t.slotShape type d) fun (kind, valueType, _) =>
      kind = .long ∨ kind = .structRef ∨ (kind = .array ∧ d.array.isSome = true) ∨
        kind = .struct ∧ d.pointer = false ∧ ∃ tag, type = .struct tag ∧ valueType = .struct tag := by
  unfold slotShape
  split
  · exact .error
  · exact .ok (.inl rfl)
  · exact .ok (.inl rfl)
  · exact .ok (.inl rfl)
  · rename_i isArray
    split
    · exact .error
    · exact .ok (.inr (.inr (.inl ⟨rfl, by simp [isArray]⟩)))
  · split
    · exact .error
    · split
      · exact .ok (.inr (.inl rfl))
      · rename_i notPointer
        exact .ok (.inr (.inr (.inr ⟨rfl, by simp_all, _, rfl, rfl⟩)))
  · exact .error

theorem slotFor_ensures (type : TypeName) (d : Declarator) (scope : String) :
    Ensures (t.slotFor type d scope) fun s => t.Fits scope s ∧ s.name = d.name ∧
      (s.kind = .long ∨ s.kind = .structRef ∨ (s.kind = .array ∧ d.array.isSome = true) ∨
        s.kind = .struct ∧ d.pointer = false ∧ ∃ tag, type = .struct tag ∧ s.type = .struct tag) := by
  unfold slotFor
  refine .guard fun isNew => .guard fun _ => .bind ((t.checkName_ensures _ _ _).mono ?_)
  rintro _ ⟨free, unreserved⟩
  refine .bind ((t.slotShape_ensures type d).mono ?_)
  rintro ⟨kind, valueType, size⟩ shape
  have isVariable : kind ≠ .register ∧ kind ≠ .constant := by
    rcases shape with rfl | rfl | ⟨rfl, -⟩ | ⟨rfl, -⟩ <;> simp
  exact .ok ⟨⟨free, by simpa [Slot.fresh] using isNew, rfl, ⟨rfl, isVariable.1, unreserved⟩, rfl, rfl, isVariable.2⟩,
    rfl, shape⟩

theorem Fits.stores (fits : t.Fits scope s)
    (array : s.kind = .array → s.contents = some (Word.toHex (UInt64.ofNat (t.next + 1))))
    (d : Declarator) : Ensures (pushParts d scope (t.parts s) (t.push s)) (t.Stores scope s) := by
  refine (pushParts_ensures d scope _ _).mono ?_
  rintro t' ⟨table, parts, valid⟩
  refine ⟨fits, array, ?_, parts, fun validT => valid (validT.push fits.free fits.direct fun _ => fits.nowhere)⟩
  simpa [push] using table

theorem declareVariable_stores (t : SlotTable) (type : TypeName) (scope : String) (d : Declarator) :
    Ensures (t.declareVariable type scope d) fun t' => ∃ s, s.name = d.name ∧ t.Stores scope s t' := by
  unfold declareVariable
  refine .guard fun _ => .bind ((t.slotFor_ensures type d scope).mono ?_)
  rintro s ⟨fits, name, -⟩
  dsimp only
  split
  · let e : Slot := { s with contents := some (Word.toHex (UInt64.ofNat (t.next + 1))) }
    have fits : t.Fits scope e := ⟨fits.free, fits.isNew, fits.asmName,
      ⟨fits.declared.scope, fits.declared.kind, fits.declared.name⟩, fits.direct, fits.nowhere,
      fits.notConstant⟩
    exact (fits.stores (fun _ => rfl) d).mono fun _ stores => ⟨e, name, stores⟩
  · rename_i notArray
    exact (fits.stores (fun array => absurd array notArray) d).mono fun _ stores => ⟨s, name, stores⟩

/-- A parameter becomes one slot. -/
theorem declareParam_stores (t : SlotTable) (function : String) (p : Param) :
    Ensures (t.declareParam function p) fun r => ∃ s, s.name = p.name ∧ s.asmName = r.2 ∧
      (s.kind = .long ∨ s.kind = .structRef) ∧ t.Stores function s r.1 := by
  have declares : ∀ type, (∀ tag, type = .struct tag → p.pointer = true) →
      Ensures (t.slotFor type ⟨p.name, p.pointer, none, none, p.line⟩ function >>= fun s =>
        .ok (t.push s, s.asmName)) fun r => ∃ s, s.name = p.name ∧ s.asmName = r.2 ∧
          (s.kind = .long ∨ s.kind = .structRef) ∧ t.Stores function s r.1 := by
    intro type pointer
    refine .bind ((t.slotFor_ensures _ _ _).mono ?_)
    rintro s ⟨fits, name, shape⟩
    have plain : s.kind = .long ∨ s.kind = .structRef := by
      rcases shape with kind | kind | ⟨-, isArray⟩ | ⟨-, notPointer, tag, isStruct, -⟩
      · exact .inl kind
      · exact .inr kind
      · cases isArray
      · simp [pointer tag isStruct] at notPointer
    have none : t.parts s = [] := by rcases plain with kind | kind <;> simp [parts, kind]
    refine .ok ⟨s, name, rfl, plain, fits, ?_, ?_, by simp [none], fun valid =>
      valid.push fits.free fits.direct fun _ => fits.nowhere⟩
    · rcases plain with kind | kind <;> simp [kind]
    · simp [none, push, partSlots]
  unfold declareParam
  dsimp only
  split
  · exact .bind .error
  · exact .bind .error
  · rename_i notStruct
    refine declares p.type fun tag isStruct => ?_
    cases pointer : p.pointer with
    | true => rfl
    | false => exact absurd pointer (notStruct tag isStruct)

/-! ## Runs -/

/-- Variables of a scope are stored one after the other. -/
inductive Runs (scope : String) : List Slot → SlotTable → SlotTable → Prop where
  | refl (t : SlotTable) : Runs scope [] t t
  | step {s : Slot} {ss : List Slot} {t t₁ t₂ : SlotTable} (stores : t.Stores scope s t₁)
    (rest : Runs scope ss t₁ t₂) : Runs scope (s :: ss) t t₂

namespace Runs

theorem trans (first : Runs scope ss t t') (second : Runs scope ss' t' t'') :
    Runs scope (ss ++ ss') t t'' := by
  induction first with
  | refl t => exact second
  | step stores _ ih => exact .step stores (ih second)

/-- What every step keeps, a run keeps. -/
theorem keeps {P : SlotTable → Prop} (runs : Runs scope ss t t')
    (step : ∀ {t t' : SlotTable} {s : Slot}, s ∈ ss → t.Stores scope s t' → P t → P t') (holds : P t) :
    P t' := by
  induction runs with
  | refl t => exact holds
  | step stores _ ih =>
    exact ih (fun mem => step (List.mem_cons_of_mem _ mem)) (step List.mem_cons_self stores holds)

theorem asmName (runs : Runs scope ss t t') : ∀ s ∈ ss, s.asmName = storedName s.name scope := by
  induction runs with
  | refl t => simp
  | step stores _ ih => exact List.forall_mem_cons.2 ⟨stores.asmName, ih⟩

theorem subset (runs : Runs scope ss t t') : t.slots ⊆ t'.slots :=
  runs.keeps (P := fun t' => t.slots ⊆ t'.slots) (fun _ stores grows => List.Subset.trans grows
    (stores.slots ▸ List.subset_append_left _ _)) (List.Subset.refl _)

theorem foldlM {α : Type} {f : SlotTable → α → Outcome SlotTable} {named : α → List String}
    (step : ∀ t a, Ensures (f t a) fun t' => ∃ ss, ss.map (·.name) = named a ∧ Runs scope ss t t')
    (l : List α) (t : SlotTable) : Ensures (l.foldlM f t) fun t' =>
      ∃ ss, ss.map (·.name) = l.flatMap named ∧ Runs scope ss t t' := by
  induction l generalizing t with
  | nil => exact .ok ⟨[], rfl, .refl t⟩
  | cons a l ih =>
    rw [List.foldlM_cons]
    refine .bind ((step t a).mono ?_)
    rintro t₁ ⟨ss, names, first⟩
    refine (ih t₁).mono ?_
    rintro t₂ ⟨ss', names', second⟩
    exact ⟨ss ++ ss', by rw [List.map_append, names, names', List.flatMap_cons], first.trans second⟩

end Runs

theorem declareAll_runs (t : SlotTable) (scope : String) (ds : List Declaration) :
    Ensures (t.declareAll scope ds) fun t' =>
      ∃ ss, ss.map (·.name) = ds.flatMap Declaration.names ∧ Runs scope ss t t' := by
  refine Runs.foldlM (fun t d => ?_) ds t
  have named : d.names = d.declarators.flatMap fun v => [v.name] := List.map_eq_flatMap
  rw [named]
  refine Runs.foldlM (fun t v => (t.declareVariable_stores d.type scope v).mono ?_) d.declarators t
  rintro t' ⟨s, name, stores⟩
  exact ⟨[s], by rw [List.map_singleton, name], .step stores (.refl t')⟩

theorem declareParams_runs (function : String) (ps : List Param) (t : SlotTable) :
    Ensures (t.declareParams function ps) fun r => ∃ ss, ss.map (·.name) = ps.map (·.name) ∧
      ss.map (·.asmName) = r.2 ∧ (∀ s ∈ ss, s.kind = .long ∨ s.kind = .structRef) ∧
      Runs function ss t r.1 := by
  induction ps generalizing t with
  | nil => exact .ok ⟨[], rfl, rfl, by simp, .refl t⟩
  | cons p ps ih =>
    refine .bind ((t.declareParam_stores function p).mono ?_)
    rintro ⟨t₁, _⟩ ⟨s, name, rfl, plain, stores⟩
    refine .bind ((ih t₁).mono ?_)
    rintro ⟨t₂, _⟩ ⟨ss, names, rfl, allPlain, runs⟩
    exact .ok ⟨s :: ss, by rw [List.map_cons, List.map_cons, name, names], rfl,
      List.forall_mem_cons.2 ⟨plain, allPlain⟩, .step stores runs⟩

/-- The members of a struct have the names of their declarators. -/
theorem membersOf_ensures (ds : List Declarator) :
    Ensures (membersOf ds) fun members => ∀ m ∈ members, ∃ d ∈ ds, m.name = d.name := by
  refine .foldlM _ ds (fun members d listed named => ?_) (by simp)
  split
  · exact .error
  · split
    · exact .error
    · exact .ok (List.forall_mem_append.2 ⟨named, List.forall_mem_singleton.2 ⟨d, listed, rfl⟩⟩)

/-- The structs are declared before any variable. -/
theorem declareStruct_ensures (t : SlotTable) (s : StructDef) :
    Ensures (t.declareStruct s) fun t' => ∃ members, (∀ m ∈ members, ∃ d ∈ s.members, m.name = d.name) ∧
      t' = { t with structs := t.structs ++ [(s.tag, members)] } := by
  refine .bind ((membersOf_ensures s.members).mono fun members named => ?_)
  split
  · rename_i defined
    unfold defineStruct? at defined
    split at defined
    · cases defined
    · cases defined
      exact .ok ⟨members, named, rfl⟩
  · exact .error

end SlotTable

/-- The members of the structs have the names that the contract gives them. -/
def Program.NamesMembers (p : Program) (structs : List (String × List Member)) : Prop :=
  ∀ entry ∈ structs, ∀ m ∈ entry.2, ∃ s ∈ p.structs, ∃ d ∈ s.members, m.name = d.name

namespace Layout

open SlotTable (Runs)

/-- A function that is declared under a new name: its parameters are stored, and then its variables. -/
theorem declareFunction_runs (l : Layout) (f : FunctionDef) :
    Ensures (l.declareFunction f) fun l' => Signature.find? l.functions f.name = none ∧
      ∃ ss ss' returns t, f.returnType = .ok returns ∧
        l'.functions = l.functions ++ [⟨f.name, ss.map (·.asmName), returns, f.line⟩] ∧
        ss.map (·.name) = f.params.map (·.name) ∧ (∀ s ∈ ss, s.kind = .long ∨ s.kind = .structRef) ∧
        Runs f.name ss l.table t ∧ ss'.map (·.name) = Sentence.variables f.body ∧
        Runs f.name ss' t l'.table := by
  unfold declareFunction
  refine .guard fun isNew => .guard fun _ => .bind ((SlotTable.declareParams_runs _ _ _).mono ?_)
  rintro ⟨t, _⟩ ⟨ss, names, rfl, plain, runs⟩
  refine .bind ((t.declareAll_runs _ _).mono ?_)
  rintro t' ⟨ss', names', runs'⟩
  exact .bind fun returns isType => .ok ⟨by simpa using isNew, ss, ss', returns, t, isType, rfl, names,
    plain, runs, names', runs'⟩

/-- What holds of the registers and is kept by storing a variable of the contract, holds of the table
that the contract is laid out in. -/
theorem ofProgram_keeps {P : SlotTable → Prop} {p : Program} {settings : Settings}
    (registers : ∀ structs, p.NamesMembers structs →
      P { SlotTable.ofRegisters settings.maxAuxVars with structs := structs })
    (step : ∀ {t t' : SlotTable} {scope : String} {s : Slot}, s.name ∈ p.variables ∧
      (scope = Slot.globalScope ∨ ∃ f ∈ p.functions, scope = f.name) →
      t.Stores scope s t' → P t → P t') : Ensures (ofProgram p settings) fun l => P l.table := by
  have run : ∀ {t t' : SlotTable} {scope : String} {ss : List Slot}, Runs scope ss t t' →
      (scope = Slot.globalScope ∨ ∃ f ∈ p.functions, scope = f.name) →
      ss.map (·.name) ⊆ p.variables → P t → P t' :=
    fun runs place named => runs.keeps fun mem => step ⟨named (List.mem_map_of_mem mem), place⟩
  have structs : Ensures (p.structs.foldlM SlotTable.declareStruct (.ofRegisters settings.maxAuxVars))
      fun t => ∃ structs, p.NamesMembers structs ∧
        t = { SlotTable.ofRegisters settings.maxAuxVars with structs := structs } := by
    refine .foldlM _ p.structs (fun t s listed made => (t.declareStruct_ensures s).mono ?_)
      ⟨[], by simp [Program.NamesMembers], by rw [SlotTable.ofRegisters_eq]⟩
    rintro t' ⟨members, named, rfl⟩
    obtain ⟨structs, all, rfl⟩ := made
    exact ⟨_, List.forall_mem_append.2 ⟨all, List.forall_mem_singleton.2 fun m mem =>
      ⟨s, listed, named m mem⟩⟩, rfl⟩
  refine .bind (structs.mono ?_)
  rintro t ⟨structs, named, rfl⟩
  refine .bind ((SlotTable.declareAll_runs _ _ _).mono ?_)
  rintro t' ⟨ss, names, runs⟩
  refine .foldlM (fun l : Layout => P l.table) p.functions (fun l f defined holds => ?_)
    (run runs (.inl rfl) (names ▸ List.subset_append_left _ _) (registers structs named))
  refine (l.declareFunction_runs f).mono ?_
  rintro l' ⟨-, ss, ss', _, t, -, -, names, -, runs, names', runs'⟩
  have named : f.variables ⊆ p.variables := fun name mem =>
    List.mem_append_right _ (List.mem_flatMap.2 ⟨f, defined, mem⟩)
  rw [FunctionDef.variables, ← names, ← names', List.append_subset] at named
  have place : f.name = Slot.globalScope ∨ ∃ g ∈ p.functions, f.name = g.name := .inr ⟨f, defined, rfl⟩
  exact run runs' place named.2 (run runs place named.1 holds)

end Layout

/-! ## Laid out tables -/

/-- The slot of a part of the variable `s`. -/
structure Slot.IsPart (s : Slot) (name : String) (place : Nat) (e : Slot) : Prop where
  asmName : e.asmName = name
  kind : e.kind = .long
  scope : e.scope = s.scope
  address : e.address = Int.ofNat place

namespace SlotTable

variable {t t' : SlotTable} {s : Slot} {scope : String} {first : String → Nat}

/-- The parts of each variable stand one after the other from some address on, and those of different
variables stand apart. -/
structure Partitioned (t : SlotTable) (first : String → Nat) : Prop where
  part : ∀ s ∈ t.slots, ∀ k p, (t.parts s)[k]? = some p →
    ∃ e ∈ t.slots, s.IsPart p.1 (first s.asmName + k) e
  array : ∀ s ∈ t.slots, s.kind = .array →
    s.contents = some (Word.toHex (UInt64.ofNat (first s.asmName)))
  apart : ∀ s ∈ t.slots, ∀ s' ∈ t.slots, s.asmName ≠ s'.asmName →
    ∀ k < (t.parts s).length, ∀ k' < (t.parts s').length, first s.asmName + k ≠ first s'.asmName + k'

theorem parts_place (t : SlotTable) (s : Slot) : t.parts (t.place s) = t.parts s := by
  unfold parts
  rw [place_kind, place_type, place_size, place_asmName]

/-- A slot was there before, or it is the new variable, or it has no parts. -/
theorem Stores.sorts (stores : t.Stores scope s t') {e : Slot} (stored : e ∈ t'.slots) :
    e ∈ t.slots ∨ e = t.place s ∨ e.kind = .long := by
  rw [stores.slots] at stored
  rcases List.mem_append.1 stored with old | isNew
  · exact .inl old
  · exact .inr ((List.mem_cons.1 isNew).imp_right kind_of_mem_partSlots)

theorem Partitioned.lt_next (parted : t.Partitioned first) (valid : t.Valid) (stored : s ∈ t.slots)
    {k : Nat} (below : k < (t.parts s).length) : first s.asmName + k < t.next := by
  obtain ⟨e, storedE, isPart⟩ := parted.part s stored k _ (List.getElem?_eq_getElem below)
  have low := (valid.address_lt storedE (by simp [isPart.kind])).2
  rw [isPart.address] at low
  exact Int.ofNat_lt.1 low

/-- The parts of a new variable stand behind all others. -/
theorem Partitioned.stores (parted : t.Partitioned first) (valid : t.Valid)
    (stores : t.Stores scope s t') : ∃ first', t'.Partitioned first' := by
  have sameParts : t'.parts = t.parts := by
    funext e
    simp only [parts, members?, stores.table]
  have otherName : ∀ e ∈ t.slots, e.asmName ≠ s.asmName := fun e stored same =>
    find?_eq_none_iff.1 stores.free (List.mem_map.2 ⟨e, stored, same⟩)
  have behind : t.next ≤ (t.push s).next := by
    rw [push]
    dsimp only
    split <;> omega
  let first' : String → Nat := fun name => if name = s.asmName then (t.push s).next else first name
  have firstOld : ∀ e ∈ t.slots, first' e.asmName = first e.asmName :=
    fun e stored => if_neg (otherName e stored)
  have firstNew : first' (t.place s).asmName = (t.push s).next := if_pos (place_asmName t s)
  refine ⟨first', fun e stored k p listed => ?_, fun e stored array => ?_,
    fun e stored e' stored' other k below k' below' => ?_⟩
  · rw [sameParts] at listed
    rcases stores.sorts stored with old | rfl | long
    · obtain ⟨x, storedX, isPart⟩ := parted.part e old k p listed
      rw [firstOld e old, stores.slots]
      exact ⟨x, List.mem_append_left _ storedX, isPart⟩
    · rw [parts_place] at listed
      rw [firstNew, stores.slots]
      refine ⟨_, List.mem_append_right _ (List.mem_cons_of_mem _ (mem_partSlots.2 ⟨k, p, listed, rfl⟩)),
        rfl, rfl, ?_, rfl⟩
      rw [place_scope, stores.declared.scope]
      rfl
    · simp [parts, long] at listed
  · rcases stores.sorts stored with old | rfl | long
    · rw [firstOld e old]
      exact parted.array e old array
    · rw [place_kind] at array
      rw [firstNew, place_contents, stores.array array]
      simp [push, array]
    · simp [long] at array
  · rw [sameParts] at below below'
    rcases stores.sorts stored with old | rfl | long
    · have low := parted.lt_next valid old below
      rcases stores.sorts stored' with old' | rfl | long
      · rw [firstOld e old, firstOld e' old']
        exact parted.apart e old e' old' other k below k' below'
      · rw [firstOld e old, firstNew]
        omega
      · simp [parts, long] at below'
    · rcases stores.sorts stored' with old' | rfl | long
      · have low := parted.lt_next valid old' below'
        rw [firstOld e' old', firstNew]
        omega
      · exact absurd rfl other
      · simp [parts, long] at below'
    · simp [parts, long] at below

/-- The slots of the parts of an array: the elements follow each other in its scope, and the array holds
the address of the first. -/
def HasElements (t : SlotTable) (s : Slot) : Prop :=
  ∃ first : Nat, s.contents = some (Word.toHex (UInt64.ofNat first)) ∧
    ∀ i < s.size, ∃ e ∈ t.slots, e.kind = .long ∧ e.scope = s.scope ∧ e.address = Int.ofNat (first + i)

def HasMembers (t : SlotTable) (s : Slot) : Prop :=
  ∀ tag members, s.type = .struct tag → t.members? tag = some members →
    ∀ m ∈ members, ∃ e ∈ t.slots, e.kind = .long ∧ e.asmName = s.asmName ++ "_" ++ m.name

/-- A table as the layout of a contract leaves it. -/
structure Laid (t : SlotTable) : Prop where
  valid : t.Valid
  noConstants : ∀ s ∈ t.slots, s.kind ≠ .constant
  arrays : ∀ s ∈ t.slots, s.kind = .array → t.HasElements s
  structVariables : ∀ s ∈ t.slots, s.kind = .struct → t.HasMembers s

theorem parts_member {tag : String} {members : List Member} {i : Nat} {m : Member}
    (isStruct : s.kind = .struct) (type : s.type = .struct tag) (known : t.members? tag = some members)
    (listed : members[i]? = some m) : (t.parts s)[i]? = some (s.asmName ++ "_" ++ m.name, m.type) := by
  simp [parts, isStruct, type, known, listed]

theorem Partitioned.laid (parted : t.Partitioned first) (valid : t.Valid)
    (noConstants : ∀ s ∈ t.slots, s.kind ≠ .constant) : t.Laid where
  valid := valid
  noConstants := noConstants
  arrays s stored array := by
    refine ⟨first s.asmName, parted.array s stored array, fun i below => ?_⟩
    have listed : (t.parts s)[i]? = some (s.asmName ++ "_" ++ toString i, .long) := by
      simp [parts, array, below]
    obtain ⟨e, storedE, isPart⟩ := parted.part s stored i _ listed
    exact ⟨e, storedE, isPart.kind, isPart.scope, isPart.address⟩
  structVariables s stored isStruct tag members type known m listed := by
    obtain ⟨i, isMember⟩ := List.mem_iff_getElem?.1 listed
    obtain ⟨e, storedE, isPart⟩ := parted.part s stored i _ (parts_member isStruct type known isMember)
    exact ⟨e, storedE, isPart.kind, isPart.asmName⟩

end SlotTable

theorem Layout.ofProgram_partitioned (p : Program) (settings : Settings) :
    Ensures (ofProgram p settings) fun l => l.table.Valid ∧ (∀ s ∈ l.table.slots, s.kind ≠ .constant) ∧
      ∃ first, l.table.Partitioned first := by
  obtain ⟨valid, registers⟩ := SlotTable.ofRegisters_valid settings.maxAuxVars
  refine ofProgram_keeps (P := fun t => t.Valid ∧ (∀ s ∈ t.slots, s.kind ≠ .constant) ∧
    ∃ first, t.Partitioned first) (fun structs _ => ?_) fun _ stores holds => ?_
  · have none : ∀ s ∈ (SlotTable.ofRegisters settings.maxAuxVars).slots,
        ({ SlotTable.ofRegisters settings.maxAuxVars with structs := structs } : SlotTable).parts s = [] := by
      intro s stored
      simp [SlotTable.parts, (registers s stored).1]
    refine ⟨⟨valid.addresses, valid.nowhere, valid.names, valid.direct⟩, fun s stored => ?_, fun _ => 0,
      fun s stored k p listed => ?_, fun s stored array => ?_, fun s stored _ _ _ k below => ?_⟩
    · simp [(registers s stored).1]
    · simp [none s stored] at listed
    · simp [(registers s stored).1] at array
    · simp [none s stored] at below
  · obtain ⟨valid, noConstants, first, parted⟩ := holds
    refine ⟨stores.valid valid, ?_, parted.stores valid stores⟩
    rw [stores.slots]
    refine List.forall_mem_append.2 ⟨noConstants, List.forall_mem_cons.2 ⟨?_, fun e isPart => ?_⟩⟩
    · rw [SlotTable.place_kind]
      exact stores.notConstant
    · simp [SlotTable.kind_of_mem_partSlots isPart]

/-- The table of a contract is laid out. -/
theorem Layout.ofProgram_laid (p : Program) (settings : Settings) :
    Ensures (ofProgram p settings) fun l => l.table.Laid := by
  refine (ofProgram_partitioned p settings).mono ?_
  rintro l ⟨valid, noConstants, first, parted⟩
  exact parted.laid valid noConstants

/-! ## Functions -/

/-- The signature says what the definition of the function says. -/
structure Signature.Describes (g : Signature) (f : FunctionDef) : Prop where
  name : g.name = f.name
  params : g.params = f.params.map fun p => SlotTable.storedName p.name f.name
  returns : f.returnType = .ok g.returns

theorem Signature.Describes.count {g : Signature} {f : FunctionDef} (describes : g.Describes f) :
    g.params.length = f.params.length := by
  rw [describes.params, List.length_map]

namespace SlotTable

variable {t t' : SlotTable} {names : List String}

/-- The slots of parameters: variables that all have their own names. -/
structure HasParams (t : SlotTable) (names : List String) : Prop where
  nodup : names.Nodup
  stored : ∀ name ∈ names, ∃ s ∈ t.slots, s.asmName = name ∧ (s.kind = .long ∨ s.kind = .structRef)

theorem HasParams.mono (has : t.HasParams names) (grows : t.slots ⊆ t'.slots) : t'.HasParams names where
  nodup := has.nodup
  stored name listed := by
    obtain ⟨s, stored, rest⟩ := has.stored name listed
    exact ⟨s, grows stored, rest⟩

/-- The slots that the names of parameters stand for lie apart. -/
theorem HasParams.slots (has : t.HasParams names) (valid : t.Valid) :
    ∃ rs : List Slot, rs.map (·.asmName) = names ∧ (rs.map (·.address)).Nodup ∧
      ∀ r ∈ rs, r ∈ t.slots ∧ r.kind ≠ .struct := by
  obtain ⟨rs, areNames, stored⟩ : ∃ rs : List Slot, rs.map (·.asmName) = names ∧
      ∀ r ∈ rs, r ∈ t.slots ∧ r.kind ≠ .struct := by
    have stored := has.stored
    clear has
    induction names with
    | nil => exact ⟨[], rfl, by simp⟩
    | cons name names ih =>
      obtain ⟨⟨s, mem, isName, plain⟩, stored⟩ := List.forall_mem_cons.1 stored
      obtain ⟨rs, areNames, stored⟩ := ih stored
      refine ⟨s :: rs, by rw [List.map_cons, isName, areNames], List.forall_mem_cons.2 ⟨⟨mem, ?_⟩, stored⟩⟩
      rcases plain with kind | kind <;> simp [kind]
  refine ⟨rs, areNames, ?_, stored⟩
  have apart : rs.Nodup := .of_map _ (areNames ▸ has.nodup)
  refine List.Nodup.map_on (fun r mem r' mem' same => ?_) apart
  exact valid.eq_of_address (stored r mem).1 (stored r mem).2 (stored r' mem').1 (stored r' mem').2 same

/-- The parameters of a function get slots under names that were free. -/
theorem Runs.hasParams {scope : String} {ss : List Slot} (runs : Runs scope ss t t')
    (plain : ∀ s ∈ ss, s.kind = .long ∨ s.kind = .structRef) :
    t'.HasParams (ss.map (·.asmName)) ∧ ∀ s ∈ ss, t.find? s.asmName = none := by
  induction runs with
  | refl t => exact ⟨⟨List.nodup_nil, by simp⟩, by simp⟩
  | @step s ss t t₁ t₂ stores rest ih =>
    obtain ⟨isPlain, plain⟩ := List.forall_mem_cons.1 plain
    obtain ⟨has, unused⟩ := ih plain
    have placed : t.place s ∈ t₁.slots := by simp [stores.slots]
    refine ⟨⟨List.nodup_cons.2 ⟨fun again => ?_, has.nodup⟩, ?_⟩, ?_⟩
    · obtain ⟨s', listed, same⟩ := List.mem_map.1 again
      exact find?_eq_none_iff.1 (unused s' listed)
        (List.mem_map.2 ⟨_, placed, (place_asmName t s).trans same.symm⟩)
    · exact List.forall_mem_cons.2 ⟨⟨t.place s, rest.subset placed, place_asmName t s,
        place_kind t s ▸ isPlain⟩, has.stored⟩
    · refine List.forall_mem_cons.2 ⟨stores.free, fun s' listed => ?_⟩
      refine find?_eq_none_iff.2 fun stored => find?_eq_none_iff.1 (unused s' listed) ?_
      exact List.map_subset _ (stores.slots ▸ List.subset_append_left _ _) stored

end SlotTable

namespace Layout

/-- A declared function is found by its name, and so are those that were declared before. -/
theorem declareFunction_describes (l : Layout) (f : FunctionDef) :
    Ensures (l.declareFunction f) fun l' =>
      (∀ name g, Signature.find? l.functions name = some g →
        Signature.find? l'.functions name = some g) ∧
      (∃ g, Signature.find? l'.functions f.name = some g ∧ g.Describes f) ∧
      ((∀ g ∈ l.functions, l.table.HasParams g.params) →
        ∀ g ∈ l'.functions, l'.table.HasParams g.params) := by
  refine (l.declareFunction_runs f).mono ?_
  rintro l' ⟨isNew, ss, ss', returns, t, isType, functions, names, plain, runs, -, runs'⟩
  obtain ⟨has, -⟩ := runs.hasParams plain
  rw [functions]
  refine ⟨fun name g found => ?_, ?_, fun old => List.forall_mem_append.2 ⟨fun g listed => ?_, ?_⟩⟩
  · rw [Signature.find?, List.find?_append, show l.functions.find? (·.name == name) = some g from found]
    rfl
  · have missing : l.functions.find? (·.name == f.name) = none := isNew
    refine ⟨⟨f.name, ss.map (·.asmName), returns, f.line⟩, ?_, ⟨rfl, ?_, isType⟩⟩
    · rw [Signature.find?, List.find?_append, missing]
      simp
    · have stored := congrArg (List.map (SlotTable.storedName · f.name)) names
      rw [List.map_map, List.map_map] at stored
      exact (List.map_congr_left runs.asmName).trans stored
  · exact (old g listed).mono (List.Subset.trans runs.subset runs'.subset)
  · rw [List.forall_mem_singleton]
    exact has.mono runs'.subset

/-- Every function of a contract has its signature, and its parameters have their slots. -/
theorem ofProgram_describes (p : Program) (settings : Settings) :
    Ensures (ofProgram p settings) fun l =>
      (∀ f ∈ p.functions, ∃ g, Signature.find? l.functions f.name = some g ∧ g.Describes f) ∧
      ∀ g ∈ l.functions, l.table.HasParams g.params := by
  have all : ∀ (fs : List FunctionDef) (l : Layout), (∀ g ∈ l.functions, l.table.HasParams g.params) →
      Ensures (fs.foldlM declareFunction l) fun l' =>
      (∀ name g, Signature.find? l.functions name = some g →
        Signature.find? l'.functions name = some g) ∧
      (∀ f ∈ fs, ∃ g, Signature.find? l'.functions f.name = some g ∧ g.Describes f) ∧
      ∀ g ∈ l'.functions, l'.table.HasParams g.params := by
    intro fs
    induction fs with
    | nil => exact fun l has => .ok ⟨fun _ _ found => found, by simp, has⟩
    | cons f fs ih =>
      intro l has
      rw [List.foldlM_cons]
      refine .bind ((declareFunction_describes l f).mono ?_)
      rintro l₁ ⟨kept, ⟨g, found, describes⟩, has₁⟩
      refine (ih l₁ (has₁ has)).mono ?_
      rintro l₂ ⟨kept', others, has₂⟩
      refine ⟨fun name g found => kept' name g (kept name g found), ?_, has₂⟩
      exact List.forall_mem_cons.2 ⟨⟨g, kept' _ _ found, describes⟩, others⟩
  exact .bind fun t _ => .bind fun t' _ => (all p.functions _ (by simp)).mono fun _ holds => holds.2

theorem declareFunction_names (l : Layout) (f : FunctionDef) :
    Ensures (l.declareFunction f) fun l' =>
      l'.functions.map (·.name) = l.functions.map (·.name) ++ [f.name] ∧
      f.name ∉ l.functions.map (·.name) := by
  refine (l.declareFunction_runs f).mono ?_
  rintro l' ⟨isNew, _, _, _, _, -, functions, -⟩
  exact ⟨by simp [functions], by simpa [Signature.find?] using isNew⟩

/-- The signatures are those of the functions in their order, and no two have one name. -/
theorem ofProgram_names (p : Program) (settings : Settings) :
    Ensures (ofProgram p settings) fun l =>
      l.functions.map (·.name) = p.functions.map (·.name) ∧ (p.functions.map (·.name)).Nodup := by
  have all : ∀ (fs : List FunctionDef) (l : Layout), (l.functions.map (·.name)).Nodup →
      Ensures (fs.foldlM declareFunction l) fun l' =>
        l'.functions.map (·.name) = l.functions.map (·.name) ++ fs.map (·.name) ∧
        (l'.functions.map (·.name)).Nodup := by
    intro fs
    induction fs with
    | nil => exact fun l nodup => .ok ⟨by simp, nodup⟩
    | cons f fs ih =>
      intro l nodup
      rw [List.foldlM_cons]
      refine .bind ((l.declareFunction_names f).mono ?_)
      intro l₁ ⟨names, isNew⟩
      have nodup₁ : (l₁.functions.map (·.name)).Nodup := by
        rw [names, List.nodup_append]
        refine ⟨nodup, List.nodup_singleton _, ?_⟩
        intro a old b new same
        exact isNew (List.mem_singleton.1 new ▸ same ▸ old)
      refine (ih l₁ nodup₁).mono ?_
      intro l₂ ⟨names₂, nodup₂⟩
      refine ⟨?_, nodup₂⟩
      rw [names₂, names]
      simp
  refine .bind fun t _ => .bind fun t' _ => (all p.functions _ (by simp)).mono ?_
  intro l ⟨names, nodup⟩
  have same : l.functions.map (·.name) = p.functions.map (·.name) := by simpa using names
  exact ⟨same, same ▸ nodup⟩

end Layout

end ContractCompiler
