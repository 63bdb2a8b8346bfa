import ContractCompiler.Proofs.Variation.Table

/-!
# Proofs.Variation.Layout — a contract laid out with more registers

A declaration is checked against names and structs, which more registers do not change, and its slots are
stored behind the others. So a contract that can be laid out can be laid out with more registers, and the
two tables belong together (`Variation.Layouts`).
-/

namespace ContractCompiler

set_option autoImplicit false

namespace Variation

open SlotTable (registerName isReservedName)

variable {v : Variation}

namespace Tables

variable {t t' : SlotTable} {s : Slot} (tables : v.Tables t t')
include tables

omit tables in
theorem ne_registerName {name : String} (free : isReservedName name = false) (n : Nat) :
    name ≠ registerName n := by
  rintro rfl
  rw [SlotTable.isReservedName_iff.2 (.inl (SlotTable.registerName_isNumbered n))] at free
  cases free

theorem checkName (name asmName : String) (line : Nat) :
    v.Outcomes (fun _ _ => isReservedName asmName = false) (t.checkName name asmName line)
      (t'.checkName name asmName line) := by
  unfold SlotTable.checkName
  by_cases reserved : isReservedName asmName = true
  · rw [if_pos reserved, if_pos reserved]
    exact .error _
  · have free : isReservedName asmName = false := by simpa using reserved
    rw [if_neg reserved, if_neg reserved, tables.find? (ne_registerName free), Option.isSome_map]
    split
    · exact .error _
    · exact .ok free

theorem slotShape (type : TypeName) (d : Declarator) : t'.slotShape type d = t.slotShape type d := by
  unfold SlotTable.slotShape
  simp only [tables.members?]

theorem parts (s : Slot) : t'.parts s = t.parts s := by
  unfold SlotTable.parts
  simp only [tables.members?]

omit tables in
theorem parts_withContents (contents : Option String) :
    t.parts { s with contents := contents } = t.parts s := rfl

theorem slotFor (type : TypeName) (d : Declarator) (scope : String) :
    v.Outcomes Eq (t.slotFor type d scope) (t'.slotFor type d scope) := by
  unfold SlotTable.slotFor
  rw [tables.inScope?, Option.isSome_map, tables.slotShape]
  refine .guard (.guard (.bind (tables.checkName _ _ _) fun _ _ _ => ?_))
  exact .bind (.refl _) fun _ _ same => same ▸ .refl _

/-- A slot that is about to be stored, and its image. -/
theorem push_fresh (nowhere : s.address = Slot.nowhere) (direct : s.offset = none)
    (notRegister : s.kind ≠ .register) (free : isReservedName s.asmName = false)
    (contents : s.kind = .array → s.contents.isSome = true) :
    v.Tables (t.push s) (t'.push { s with contents := (v.slot s).contents }) := by
  refine tables.push ?_ ⟨?_, ?_, ?_, ?_⟩
  · have stays : v.address Slot.nowhere = Slot.nowhere := address_eq_nowhere.2 rfl
    have behind : v.address t.next = (t.next : Int) + v.extra :=
      address_of_le (Int.ofNat_le.2 tables.reached)
    by_cases isStruct : s.kind = .struct
    · simp [SlotTable.place, slot, isStruct, nowhere, stays, direct]
    · simp [SlotTable.place, slot, isStruct, behind, tables.next, direct]
  · rwa [SlotTable.place_kind]
  · rw [SlotTable.place_asmName]
    exact ne_registerName free
  · unfold SlotTable.place
    split
    · exact .inl nowhere
    · exact .inr (Int.ofNat_le.2 tables.reached)
  · rw [SlotTable.place_kind, SlotTable.place_contents]
    exact contents

/-- A slot that holds no address is stored in both tables. -/
theorem push_same (nowhere : s.address = Slot.nowhere) (direct : s.offset = none)
    (notRegister : s.kind ≠ .register) (free : isReservedName s.asmName = false)
    (notArray : s.kind ≠ .array) : v.Tables (t.push s) (t'.push s) := by
  have pushed := tables.push_fresh nowhere direct notRegister free fun isArray => absurd isArray notArray
  rwa [v.slot_contents notArray] at pushed

theorem pushParts (d : Declarator) (scope : String) (parts : List (String × ValueType)) :
    v.Outcomes v.Tables (SlotTable.pushParts d scope parts t) (SlotTable.pushParts d scope parts t') := by
  induction parts generalizing t t' with
  | nil => exact .ok tables
  | cons part parts ih =>
    obtain ⟨asmName, type⟩ := part
    refine .bind (tables.checkName _ _ _) fun _ _ free => ih ?_
    exact tables.push_same rfl rfl (by simp [Slot.fresh]) free (by simp [Slot.fresh])

theorem declareVariable (type : TypeName) (scope : String) (d : Declarator) :
    v.Outcomes v.Tables (t.declareVariable type scope d) (t'.declareVariable type scope d) := by
  unfold SlotTable.declareVariable
  refine .guard (.bind ((tables.slotFor type d scope).ensured (t.slotFor_ensures type d scope)) ?_)
  rintro s _ ⟨rfl, ⟨-, -, -, declared, direct, nowhere, -⟩, -⟩
  dsimp only
  by_cases isArray : s.kind = .array
  · rw [if_pos isArray, if_pos isArray, tables.parts, parts_withContents, parts_withContents]
    let e : Slot := { s with contents := some (Word.toHex (UInt64.ofNat (t.next + 1))) }
    have sum : UInt64.ofNat (t.next + 1) + UInt64.ofNat v.extra = UInt64.ofNat (t'.next + 1) := by
      rw [← UInt64.ofNat_add, tables.next, Nat.add_right_comm]
    have image : (v.slot e).contents = some (Word.toHex (UInt64.ofNat (t'.next + 1))) := by
      simp only [e, slot, isArray, if_true, Option.map_some, first, Word.ofHex?_toHex, sum]
    have pushed := tables.push_fresh (s := e) nowhere direct declared.kind declared.name fun _ => rfl
    rw [image] at pushed
    exact pushed.pushParts d scope _
  · rw [if_neg isArray, if_neg isArray, tables.parts]
    exact (tables.push_same nowhere direct declared.kind declared.name isArray).pushParts d scope _

theorem declareAll (scope : String) (ds : List Declaration) :
    v.Outcomes v.Tables (t.declareAll scope ds) (t'.declareAll scope ds) :=
  .foldlM ds (fun _ _ d tables =>
    .foldlM d.declarators (fun _ _ each tables => tables.declareVariable d.type scope each) tables) tables

theorem declareStruct (s : StructDef) : v.Outcomes v.Tables (t.declareStruct s) (t'.declareStruct s) := by
  unfold SlotTable.declareStruct
  refine .bind (.refl _) ?_
  rintro members _ rfl
  unfold SlotTable.defineStruct?
  rw [tables.members?, tables.structs]
  cases t.members? s.tag with
  | some _ => exact fun _ => rfl
  | none => exact .ok ⟨tables.slots, tables.next, tables.reached, rfl⟩

theorem declareParam (function : String) (p : Param) :
    v.Outcomes (fun r r' => v.Tables r.1 r'.1 ∧ r'.2 = r.2) (t.declareParam function p)
      (t'.declareParam function p) := by
  obtain ⟨type, pointer, name, line⟩ := p
  have declares : v.Outcomes (fun r r' => v.Tables r.1 r'.1 ∧ r'.2 = r.2)
      (t.slotFor type ⟨name, pointer, none, none, line⟩ function >>= fun s => .ok (t.push s, s.asmName))
      (t'.slotFor type ⟨name, pointer, none, none, line⟩ function >>= fun s => .ok (t'.push s, s.asmName)) := by
    refine .bind ((tables.slotFor _ _ _).ensured (t.slotFor_ensures _ _ _)) ?_
    rintro s _ ⟨rfl, ⟨-, -, -, declared, direct, nowhere, -⟩, -, shape⟩
    have notArray : s.kind ≠ .array := by
      rcases shape with kind | kind | ⟨-, isArray⟩ | ⟨kind, -⟩
      · simp [kind]
      · simp [kind]
      · cases isArray
      · simp [kind]
    exact .ok ⟨tables.push_same nowhere direct declared.kind declared.name notArray, rfl⟩
  cases type with
  | void => exact fun _ => rfl
  | long => exact declares
  | struct tag =>
    cases pointer with
    | false => exact fun _ => rfl
    | true => exact declares

theorem declareParams (function : String) (ps : List Param) :
    v.Outcomes (fun r r' => v.Tables r.1 r'.1 ∧ r'.2 = r.2) (t.declareParams function ps)
      (t'.declareParams function ps) := by
  induction ps generalizing t t' with
  | nil => exact .ok ⟨tables, rfl⟩
  | cons p ps ih =>
    refine .bind (tables.declareParam function p) ?_
    rintro ⟨t₁, name⟩ ⟨t₁', _⟩ ⟨tables₁, rfl⟩
    refine .bind (ih tables₁) ?_
    rintro ⟨t₂, names⟩ ⟨t₂', _⟩ ⟨tables₂, rfl⟩
    exact .ok ⟨tables₂, rfl⟩

end Tables

/-- A layout of the first compilation and that of the second. -/
structure Layouts (v : Variation) (l l' : Layout) : Prop where
  tables : v.Tables l.table l'.table
  functions : l'.functions = l.functions

theorem Layouts.declareFunction {l l' : Layout} (layouts : v.Layouts l l') (f : FunctionDef) :
    v.Outcomes v.Layouts (l.declareFunction f) (l'.declareFunction f) := by
  unfold Layout.declareFunction
  rw [layouts.functions]
  refine .guard (.guard (.bind (layouts.tables.declareParams f.name f.params) ?_))
  rintro ⟨t, params⟩ ⟨t', _⟩ ⟨tables, rfl⟩
  refine .bind (tables.declareAll f.name _) fun t₁ t₁' tables₁ => .bind (.refl _) ?_
  rintro returns _ rfl
  exact .ok ⟨tables₁, rfl⟩

/-- The layout of a contract with more registers. -/
theorem Layouts.ofProgram (p : Program) {settings settings' : Settings}
    (registers : settings.maxAuxVars = v.registers)
    (registers' : settings'.maxAuxVars = v.registers + v.extra) :
    v.Outcomes v.Layouts (Layout.ofProgram p settings) (Layout.ofProgram p settings') := by
  unfold Layout.ofProgram
  rw [registers, registers']
  refine .bind (.foldlM p.structs (fun _ _ s tables => Tables.declareStruct tables s) (Tables.ofRegisters v))
    fun t t' tables => ?_
  refine .bind (tables.declareAll _ _) fun t₁ t₁' tables₁ => ?_
  exact .foldlM p.functions (fun _ _ f layouts => declareFunction layouts f) ⟨tables₁, rfl⟩

end Variation

end ContractCompiler
