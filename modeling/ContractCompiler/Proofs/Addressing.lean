import ContractCompiler.Proofs.PostStep

/-!
# Proofs.Addressing — one address for each part of a variable

The parts of a variable are reached in several ways: by their names, by an index or a member that is
known, by an index that is computed, and through an address. They stay where the layout has put them in
every table that code leaves (`SlotTable.Partitioned.derives`). What is reached by an index is never a
variable that a value could be computed in, so that its code does the same with all settings
(`Codegen.sets`). Hence all ways lead to one slot (`Layout.addressing_agrees`).
-/

namespace ContractCompiler

set_option autoImplicit false

open Outcome (Ensures)

/-! ## Parts of variables -/

theorem Word.toSigned_ofNat_add {a b : Nat} (small : a + b < 9223372036854775808) :
    Word.toSigned (UInt64.ofNat a + UInt64.ofNat b) = Int.ofNat (a + b) := by
  have isSum : (UInt64.ofNat a + UInt64.ofNat b).toNat = a + b := by
    rw [← UInt64.ofNat_add, UInt64.toNat_ofNat']
    omega
  rw [Word.toSigned_of_lt (by omega), isSum]

theorem Slot.IsPart.becomes {s s' e e' : Slot} {name : String} {place : Nat} (isPart : s.IsPart name place e)
    (becomes : s.Becomes s') (becomesE : e.Becomes e') : s'.IsPart name place e' where
  asmName := becomesE.asmName.trans isPart.asmName
  kind := becomesE.kind.trans isPart.kind
  scope := by rw [becomesE.scope, becomes.scope, isPart.scope]
  address := becomesE.address.trans isPart.address

namespace SlotTable

variable {t t' : SlotTable} {first : String → Nat}

/-- A slot with parts was there before. -/
theorem Derives.parts_eq (derives : t.Derives t') {s' : Slot} (stored : s' ∈ t'.slots) :
    t'.parts s' = [] ∨ ∃ s ∈ t.slots, s.Becomes s' ∧ t'.parts s' = t.parts s := by
  rcases derives.origin s' stored with ⟨s, stored, becomes⟩ | kept
  · refine .inr ⟨s, stored, becomes, ?_⟩
    simp only [parts, members?, becomes.kind, becomes.type, becomes.size, becomes.asmName,
      derives.grows.structs]
  · simp [parts, kept.kind]

/-- The parts stay where they are when contents are fixed and constants are stored. -/
theorem Partitioned.derives (parted : t.Partitioned first) (derives : t.Derives t') :
    t'.Partitioned first where
  part s' stored k p listed := by
    rcases derives.parts_eq stored with none | ⟨s, stored, becomes, same⟩
    · simp [none] at listed
    · obtain ⟨e, storedE, isPart⟩ := parted.part s stored k p (same ▸ listed)
      obtain ⟨e', storedE', becomesE⟩ := derives.grows.slots e storedE
      rw [becomes.asmName]
      exact ⟨e', storedE', isPart.becomes becomes becomesE⟩
  array s' stored array := by
    rcases derives.origin s' stored with ⟨s, stored, becomes⟩ | kept
    · rw [becomes.asmName]
      exact becomes.kept _ (parted.array s stored (becomes.kind ▸ array))
    · simp [kept.kind] at array
  apart e storedE e' storedE' other k below k' below' := by
    rcases derives.parts_eq storedE with none | ⟨s, stored, becomes, same⟩
    · simp [none] at below
    · rcases derives.parts_eq storedE' with none | ⟨s', stored', becomes', same'⟩
      · simp [none] at below'
      · rw [becomes.asmName, becomes'.asmName] at other ⊢
        exact parted.apart s stored s' stored' other k (same ▸ below) k' (same' ▸ below')

/-- The address of a part is not negative as a word. -/
theorem Partitioned.toSigned (parted : t.Partitioned first) (valid : t.Valid) (small : t.Small)
    (derives : t.Derives t') : ∀ s' ∈ t'.slots, ∀ k < (t'.parts s').length,
    Word.toSigned (UInt64.ofNat (first s'.asmName) + UInt64.ofNat k) = Int.ofNat (first s'.asmName + k) := by
  intro s' stored k below
  rcases derives.parts_eq stored with none | ⟨s, stored, becomes, same⟩
  · simp [none] at below
  · have low := parted.lt_next valid stored (same ▸ below)
    rw [becomes.asmName]
    exact Word.toSigned_ofNat_add (Nat.lt_of_lt_of_le low small)

end SlotTable

/-! ## Accesses -/

/-- A variable denotes what its cell holds. -/
theorem Slot.value?_direct {s : Slot} {allowed : Int → Bool} {m : Memory} (notLiteral : s.literal? = none)
    (direct : s.offset = none) : s.value? allowed m = some (m s.address) := by
  simp [value?, isView, direct, value_of_not_literal notLiteral, cell_direct direct]

namespace Node

variable {base index n : Node} {type : ValueType} {line : Nat} {e : Environment} {m : Memory}
  {b i : Word}

/-- An offset tells what the index denotes. -/
theorem value?_of_offset? {offset : Offset} (isOffset : index.offset? = some offset)
    (isIndex : index.value? e.arithmetic e.canRead m = some i) :
    offset = .fixed i ∨ ∃ a, offset = .dynamic a ∧ m a = i := by
  unfold offset? at isOffset
  split at isOffset
  · rename_i value isLiteral
    obtain rfl := value?_of_literal? isLiteral isIndex
    exact .inl (Option.some.inj isOffset).symm
  · rename_i s _ notLiteral
    split at isOffset
    · rename_i plain
      simp only [Bool.and_eq_true] at plain
      have direct : s.offset = none := by simpa [Slot.isDirect] using plain.1
      have notLiteral : s.literal? = none := notLiteral
      refine .inr ⟨s.address, (Option.some.inj isOffset).symm, ?_⟩
      exact Option.some.inj ((Slot.value?_direct notLiteral direct).symm.trans isIndex)
    · cases isOffset
  · cases isOffset

/-- The node of an index is a view of a variable where base and index are plain, and else it is looked up. -/
inductive IsIndexed (base index : Node) (type : ValueType) (line : Nat) : Node → Prop
  | view {s : Slot} {line' : Nat} {offset : Offset} (isBase : base = slot s line')
      (notLiteral : s.literal? = none) (direct : s.offset = none) (isOffset : index.offset? = some offset)
      (inside : ∀ i, offset = .fixed i → s.kind = .array → i.toNat < s.size) :
      IsIndexed base index type line (slot (s.withOffset offset type) line)
  | lookup : IsIndexed base index type line (lookup base index type line)

theorem indexed_ensures (base index : Node) (type : ValueType) (line : Nat) :
    Ensures (base.indexed index type line) (IsIndexed base index type line) := by
  refine .bind fun viewed isViewed => ?_
  dsimp only
  split
  · rename_i s offset isOffset
    obtain ⟨line', isBase, notLiteral, direct⟩ := base?_eq isViewed
    unfold viewOf
    split
    · split
      · exact .error
      · refine .ok (.view isBase notLiteral direct isOffset ?_)
        rintro _ ⟨⟩ -
        omega
    · rename_i notElement
      exact .ok (.view isBase notLiteral direct isOffset fun i fixed array => (notElement i array fixed).elim)
  · exact .ok .lookup

namespace IsIndexed

variable (indexed : IsIndexed base index type line n) {t : SlotTable}
include indexed

/-- Whatever is indexed, the cell is found at the index behind the address that the base denotes. -/
theorem cell? (isBase : base.value? e.arithmetic e.canRead m = some b)
    (isIndex : index.value? e.arithmetic e.canRead m = some i)
    (anchored : ∀ s line, base = slot s line → s.kind = .array → m s.address = s.initial) :
    n.cell? e m = some (Word.toSigned (b + i)) := by
  cases indexed with
  | @view s line' offset same notLiteral direct isOffset inside =>
    subst same
    obtain rfl : m s.address = b :=
      Option.some.inj ((Slot.value?_direct notLiteral direct).symm.trans isBase)
    have isCell : (slot (s.withOffset offset type) line).cell? e m =
        some ((s.withOffset offset type).cell m) := by
      have stays : (s.withOffset offset type).literal? = s.literal? := rfl
      simp [Node.cell?, stays, notLiteral]
    rw [isCell]
    rcases value?_of_offset? isOffset isIndex with rfl | ⟨a, rfl, rfl⟩
    · have isFixed : (s.withOffset (.fixed i) type).offset = some (.fixed i) := rfl
      by_cases array : s.kind = .array
      · rw [Slot.cell_element isFixed array, anchored s line' rfl array]
        rfl
      · rw [Slot.cell_fixed isFixed array]
        rfl
    · have isDynamic : (s.withOffset (.dynamic a) type).offset = some (.dynamic a) := rfl
      rw [Slot.cell_dynamic isDynamic]
      rfl
  | lookup => simp [Node.cell?, isBase, isIndex]

theorem bound (complete : t.Complete) (boundB : base.Bound t) (boundI : index.Bound t) : n.Bound t := by
  cases indexed with
  | view same notLiteral direct isOffset inside =>
    subst same
    have isVariable := Or.resolve_left boundB (by simp [notLiteral])
    refine .inr (complete.view isVariable _ type inside fun a isDynamic => ?_)
    exact offset?_index (fun _ => boundI) (isDynamic ▸ isOffset)
  | lookup => exact ⟨boundB, boundI⟩

theorem isAssignable (boundB : base.Bound t) : n.isAssignable = true := by
  cases indexed with
  | @view s line' offset same notLiteral direct isOffset inside =>
    subst same
    have isVariable := Or.resolve_left boundB (by simp [notLiteral])
    have hasCell : s.kind ≠ .struct := by
      obtain ⟨s₀, -, hasCell, same⟩ := isVariable.stored
      rwa [same]
    have notConstant := isVariable.notConstant
    cases kind : s.kind <;> simp_all [Node.isAssignable, Slot.withOffset]
  | lookup => rfl

theorem isPure (pureB : base.isPure = true) (pureI : index.isPure = true) : n.isPure = true := by
  cases indexed with
  | view => rfl
  | lookup => simp [Node.isPure, pureB, pureI]

theorem right?_eq_none : n.right? = none := by cases indexed <;> rfl

/-- What is reached by an index is no variable that a value could be computed in. -/
theorem ne_cell {rules : Rules} {again : Node → Meaning.Deed} {m' : Memory} {r : Ref} {a : Int}
    (runs : (n.meaning rules again).value none m = some (r, m')) : r ≠ .cell a := by
  have through : ∀ (source : Source) (distance : Word), source.through distance ≠ .cell a := by
    intro source distance
    cases source <;> simp [Source.through]
  cases indexed with
  | @view s line' offset same notLiteral direct isOffset inside =>
    have stays : (s.withOffset offset type).literal? = none := notLiteral
    simp only [meaning, stays] at runs
    obtain ⟨rfl, -⟩ := Effect.pure_eq_some.1 runs
    cases offset with
    | fixed distance => exact through _ distance
    | dynamic a => simp [Slot.leaf, Slot.withOffset]
  | lookup =>
    obtain ⟨_, _, -, runs⟩ := Effect.bind_eq_some.1 runs
    obtain ⟨source, _, -, runs⟩ := Effect.bind_eq_some.1 runs
    cases isLiteral : index.literal? with
    | some distance =>
      rw [isLiteral] at runs
      obtain ⟨rfl, -⟩ := Effect.pure_eq_some.1 runs
      exact through source distance
    | none =>
      rw [isLiteral] at runs
      obtain ⟨_, _, -, runs⟩ := Effect.bind_eq_some.1 runs
      obtain ⟨_, _, -, runs⟩ := Effect.bind_eq_some.1 runs
      obtain ⟨rfl, -⟩ := Effect.pure_eq_some.1 runs
      simp

end IsIndexed

end Node

/-! ## What a contract starts with -/

namespace Machine

/-- A line of the header that fixes what a cell holds is obeyed. -/
def isSet (M : Machine) (m : Memory) : Instr → Bool
  | .constSet name hex => (M.cell? name).map m == Word.ofHex? hex
  | _ => true

/-- The table of the machine was made from `t`, and its header has been carried out. -/
structure LoadedFrom (M : Machine) (t : SlotTable) (m : Memory) : Prop where
  valid : M.table.Valid
  derives : t.Derives M.table
  set : ∀ i ∈ M.table.slots.flatMap Assembly.declaration, M.isSet m i = true

namespace LoadedFrom

variable {M : Machine} {t : SlotTable} {m : Memory} {s : Slot} (loaded : M.LoadedFrom t m)
  (complete : t.Complete)
include loaded complete

/-- Constants and arrays are fixed by lines of the header. -/
theorem fixed : M.Fixed m := by
  have completeM := complete.derives loaded.derives loaded.valid
  intro s stored kind
  have hasCell : s.kind ≠ .struct := by rcases kind with kind | kind <;> simp [kind]
  have isSome : s.contents.isSome = true := by
    rcases kind with constant | array
    · exact completeM.constants s stored constant
    · exact (completeM.isVariable stored hasCell (by simp [array]) (by simp [array])).array array
  obtain ⟨hex, contents⟩ := Option.isSome_iff_exists.1 isSome
  have somewhere := (loaded.valid.address_lt stored hasCell).1
  have listed : .constSet s.asmName hex ∈ Assembly.declaration s := by
    unfold Assembly.declaration
    rw [if_neg (by omega), if_pos kind.symm, contents]
    simp
  have isSet := loaded.set _ (List.mem_flatMap.2 ⟨s, stored, listed⟩)
  have isCell : M.cell? s.asmName = some s.address := by
    simp [cell?, loaded.valid.find?_eq stored, loaded.valid.address_ne_nowhere stored hasCell]
  simp only [Machine.isSet, isCell, Option.map_some, beq_iff_eq] at isSet
  simp [Slot.initial, contents, ← isSet]

/-- An array holds the address that it was declared with. -/
theorem array (stored : s ∈ t.slots) (array : s.kind = .array) : m s.address = s.initial := by
  obtain ⟨s', stored', becomes⟩ := loaded.derives.grows.slots s stored
  obtain ⟨first, isFirst, -⟩ := complete.arrays s stored array
  obtain ⟨hex, contents, -⟩ := Option.bind_eq_some_iff.1 isFirst
  rw [← becomes.address, loaded.fixed complete s' stored' (.inr (becomes.kind.trans array)),
    Slot.initial, Slot.initial, contents, becomes.kept hex contents]

end LoadedFrom

end Machine

/-! ## Code that reaches a cell -/

namespace Codegen

variable (t : SlotTable) (ctx : Context) (M : Machine) (m : Memory)

/-- The code of an assignment, made in any state whose table has grown from `t`, sets the cell and nothing
else that is not a register. -/
def Sets (target value : Node) (c : Int) (w : Word) : Prop :=
  ∀ line st o code st', st.Valid → t.Interns st.table →
    (Node.assign none target value line).eval ctx st = .done o code st' → M.Hosts st' →
    ∃ mm, M.Leads code none m mm ∧ ∀ a, ¬ M.IsRegister a → mm a = m.set c w a

/-- For the code of assignments the node is the cell of the slot `e`. -/
structure Accesses (n : Node) (e : Slot) : Prop where
  written : ∀ value w, value.Bound t → value.isPure = true →
    value.value? M.arithmetic M.mayRead m = some w → Sets t ctx M m n value e.address w
  read : ∀ target x, target.Bound t → target.var? = some x →
    Sets t ctx M m target n x.address (m e.address)

variable {t ctx M m} {base index n target value : Node} {type : ValueType} {line : Nat} {c : Int} {w : Word}
  {e : Slot}

theorem sets (boundT : target.Bound t) (isPureT : target.isPure = true)
    (assignable : target.isAssignable = true) (boundV : value.Bound t) (isPureV : value.isPure = true)
    (fixed : M.Fixed m) (isCell : target.cell? M.environment m = some c)
    (isOpen : ∀ st : State, M.Hosts st → t.Interns st.table → M.Open c)
    (denotes : ∀ st : State, M.Hosts st → t.Interns st.table →
      value.value? M.arithmetic M.mayRead m = some w)
    (late : ∀ rules again (r : Ref) a, (target.meaning rules again).value none m = some (r, m) →
      r = .cell a → value.right? = none) : Sets t ctx M m target value c w := by
  intro line st o code st' valid interns done hosts
  have bound : (Node.assign none target value line).Bound t := ⟨boundT, boundV⟩
  obtain ⟨takes, -, run⟩ :=
    (Node.code_simulates_rules M ctx bound).value_none st valid interns o code st' done
  have interns' := interns.trans takes.interns
  obtain ⟨r, runs⟩ := Node.assign_stores_late _ (hosts.knows interns' fixed ctx.settings.reuse) isPureT boundT
    assignable isPureV boundV (denotes st' hosts interns')
    ((Node.access_of_cell? isCell).2 (decide_eq_true (isOpen st' hosts interns')) w) fun r runs => by
      refine Option.eq_none_iff_forall_ne_some.2 fun a isEarly => ?_
      obtain ⟨-, isCell, right, isRight, -⟩ := Meaning.early_eq_some isEarly
      rw [late _ _ r a runs isCell] at isRight
      cases isRight
  obtain ⟨mm, leads, ready, -⟩ := run hosts ⟨fixed, fun _ _ => rfl⟩ runs
  exact ⟨mm, leads, ready.agrees⟩

/-- What is reached by an index is read and written at the cell that the index denotes. -/
theorem accesses (complete : t.Complete) (loaded : M.LoadedFrom t m) (boundB : base.Bound t)
    (isPureB : base.isPure = true) (boundI : index.Bound t) (isPureI : index.isPure = true)
    (indexed : Node.IsIndexed base index type line n) (stored : e ∈ t.slots) (long : e.kind = .long)
    (isCell : n.cell? M.environment m = some e.address) : Accesses t ctx M m n e := by
  have opens : ∀ {x : Slot} (st : State), x.StoredIn t → x.kind = .long ∨ x.kind = .structRef →
      M.Hosts st → t.Interns st.table → M.Open x.address := fun _ stored kind hosts interns =>
    hosts.open_of_kind (stored.mono interns) kind
  have storedE : e.StoredIn t := .of_mem stored (by simp [long])
  have fixed := loaded.fixed complete
  have bound := indexed.bound complete boundB boundI
  have isPure := indexed.isPure isPureB isPureI
  refine ⟨fun value w boundV isPureV isValue => ?_, fun target x boundT isVar => ?_⟩
  · exact sets bound isPure (indexed.isAssignable boundB) boundV isPureV fixed isCell
      (fun st => opens st storedE (.inl long)) (fun _ _ _ => isValue)
      fun _ _ r a runs same => absurd same (indexed.ne_cell runs)
  · obtain ⟨isVariable, kind⟩ := Node.kind_of_var? isVar boundT
    obtain ⟨line, rfl, direct, notLiteral, -, assignable⟩ := Node.var?_eq_some isVar
    refine sets boundT rfl assignable bound isPure fixed ?_ (fun st => opens st isVariable.stored kind)
      (fun st hosts interns => ?_) fun _ _ _ _ _ _ => indexed.right?_eq_none
    · simp [Node.cell?, notLiteral, Slot.cell_direct direct]
    · exact (Node.access_of_cell? isCell).1
        (decide_eq_true (opens st storedE (.inl long) hosts interns).not_isRegister)

end Codegen

/-! ## One slot for a part -/

section

open Codegen (Accesses)

variable (ctx : Codegen.Context) (t : SlotTable)

/-- Every way to an element of the array `s` that is known as `a` leads to one slot: its name, an index
that is known, one that is computed behind what the header sets the array to, and its address. -/
structure ElementAgrees (a : String) (nameLine : Nat) (s : Slot) (k : Word) (e : Slot) : Prop where
  named : t.find? (s.asmName ++ "_" ++ toString k.toNat) = some e
  set : Assembly.declaration s = [.declare s.asmName, .constSet s.asmName s.initial.toHex]
  address : e.address = Word.toSigned (s.initial + k)
  known : ∀ i ib line, i.bind (ctx.names t) = .ok ib → ib.literal? = some k →
    ∃ v, (Expr.index line (.name a nameLine) i).bind (ctx.names t) = .ok (.slot v line) ∧
      ∀ ctx (st : Codegen.State), st.Valid → t.Interns st.table →
        Codegen.place v line ctx st = .done (.direct e) [] st
  computed : ∀ i ib n line (M : Machine) (m : Memory), i.bind (ctx.names t) = .ok ib → ib.Bound t →
    ib.isPure = true → (Expr.index line (.name a nameLine) i).bind (ctx.names t) = .ok n →
    M.LoadedFrom t m → ib.value? M.arithmetic M.mayRead m = some k → Accesses t ctx M m n e
  folded : ∀ i ib line line', i.bind (ctx.names t) = .ok ib → ib.literal? = some k →
    (Expr.prefixed .addressOf line (.index line' (.name a nameLine) i)).bind (ctx.names t) =
      .ok (.literal (UInt64.ofNat e.address.toNat) line)

/-- Every way to a member of the struct variable `s` that is known as `v` leads to one slot: its name,
its place behind the address of the variable, and a pointer that holds this address. -/
structure MemberAgrees (v : String) (nameLine : Nat) (s : Slot) (tag field : String) (j first : Nat)
    (e : Slot) : Prop where
  named : t.find? (s.asmName ++ "_" ++ field) = some e
  address : e.address = Int.ofNat (first + j)
  bound : ∀ line,
    (Expr.member line false (.name v nameLine) field).bind (ctx.names t) = .ok (.slot e line)
  folded : ∀ line, (Expr.prefixed .addressOf line (.name v nameLine)).bind (ctx.names t) =
    .ok (.literal (UInt64.ofNat first) line)
  through : ∀ p pb n line (M : Machine) (m : Memory), p.bind (ctx.names t) = .ok pb → pb.Bound t →
    pb.isPure = true → pb.type = .structPtr tag →
    (Expr.member line true p field).bind (ctx.names t) = .ok n → M.LoadedFrom t m →
    pb.value? M.arithmetic M.mayRead m = some (UInt64.ofNat first) → Accesses t ctx M m n e

end

theorem Names.bind_index {names : Names} {a : String} {nameLine : Nat} {s : Slot} {i : Expr} {ib : Node}
    (resolved : names.resolveVariable a nameLine = .ok s) (hasCell : s.kind ≠ .struct)
    (isIndex : i.bind names = .ok ib) (line : Nat) :
    (Expr.index line (.name a nameLine) i).bind names = (Node.slot s nameLine).indexed ib .long line := by
  simp [Expr.bind, valueOf, resolved, hasCell, isIndex, bind, Except.bind, pure, Except.pure]

namespace SlotTable

variable {t : SlotTable} {s : Slot}

/-- An index that is known is a view, or it is refused. -/
theorem Valid.indexed_array (valid : t.Valid) {ib : Node} {k : Word} (stored : s ∈ t.slots)
    (array : s.kind = .array) (isLiteral : ib.literal? = some k) (nameLine line : Nat) :
    (Node.slot s nameLine).indexed ib .long line =
      if s.size ≤ k.toNat then .error (.misuse line (.indexOutOfBounds k.toNat s.name s.size))
      else .ok (.slot (s.withOffset (.fixed k) .long) line) := by
  have somewhere := valid.address_ne_nowhere stored (by simp [array])
  have direct := valid.direct s stored
  have isBase : (Node.slot s nameLine).base? line = .ok (some s) := by
    simp [Node.base?, Slot.isDirect, direct, somewhere, array]
  have isOffset : ib.offset? = some (.fixed k) := by simp [Node.offset?, isLiteral]
  simp [Node.indexed, isBase, isOffset, Node.viewOf, array, bind, Except.bind]

/-- The members of a struct variable have names of their own. -/
theorem Partitioned.find?_member {first : String → Nat} (parted : t.Partitioned first) (valid : t.Valid)
    {tag : String} {members : List Member} {j : Nat} {m : Member} (stored : s ∈ t.slots)
    (isStruct : s.kind = .struct) (type : s.type = .struct tag) (known : t.members? tag = some members)
    (listed : members[j]? = some m) : Member.find? m.name members = some (j, m.type) := by
  have unique : ∀ i m', members[i]? = some m' → m'.name = m.name → i = j := by
    intro i m' listed' same
    obtain ⟨e, storedE, isPart⟩ := parted.part s stored _ _ (parts_member isStruct type known listed)
    obtain ⟨e', storedE', isPart'⟩ := parted.part s stored _ _ (parts_member isStruct type known listed')
    obtain rfl := valid.eq_of_asmName storedE storedE' (by rw [isPart.asmName, isPart'.asmName, same])
    have atOne := Int.ofNat.inj (isPart'.address.symm.trans isPart.address)
    omega
  clear known
  induction members generalizing j with
  | nil => cases listed
  | cons m₀ members ih =>
    rw [Member.find?]
    cases j with
    | zero =>
      obtain rfl : m₀ = m := by simpa using listed
      rw [if_pos rfl]
    | succ j =>
      have other : m₀.name ≠ m.name := fun same => by
        have := unique 0 m₀ rfl same
        omega
      rw [if_neg other, ih (by simpa using listed) fun i m' listed' same => ?_]
      · rfl
      · have := unique (i + 1) m' (by simpa using listed') same
        omega

end SlotTable

/-- The place of an element that is known is the slot at its address. -/
theorem Codegen.place_element {s e : Slot} {w k : Word} {st : State} (array : s.kind = .array)
    (contents : s.contents = some w.toHex) (found : st.table.get? (Word.toSigned (w + k)) = some e)
    (long : e.kind = .long) (scope : e.scope = s.scope) (line : Nat) (ctx : Context) :
    place (s.withOffset (.fixed k) .long) line ctx st = .done (.direct e) [] st := by
  simp [place, element, table, state, Slot.withOffset, array, contents, found, long, scope, bind,
    Bind.bind, pure, Pure.pure]

section

variable {t : SlotTable} {first : String → Nat} (complete : t.Complete) (parted : t.Partitioned first)
  (low : ∀ s ∈ t.slots, ∀ k < (t.parts s).length,
    Word.toSigned (UInt64.ofNat (first s.asmName) + UInt64.ofNat k) = Int.ofNat (first s.asmName + k))
  {ctx : Codegen.Context} {a : String} {nameLine : Nat} {s : Slot}

include complete parted low in
theorem SlotTable.Partitioned.array_agrees
    (resolved : (ctx.names t).resolveVariable a nameLine = .ok s) (array : s.kind = .array)
    {k : Word} (inside : k.toNat < s.size) : ∃ e, ElementAgrees ctx t a nameLine s k e := by
  have valid := complete.valid
  obtain ⟨stored, -⟩ := (ctx.names t).resolveVariable_ensures a nameLine s resolved
  have stored : s ∈ t.slots := stored
  have contents := parted.array s stored array
  have notStruct : s.kind ≠ .struct := by simp [array]
  have listed : (t.parts s)[k.toNat]? = some (s.asmName ++ "_" ++ toString k.toNat, .long) := by
    simp [SlotTable.parts, array, inside]
  obtain ⟨e, storedE, isPart⟩ := parted.part s stored _ _ listed
  have initial : s.initial = UInt64.ofNat (first s.asmName) := by simp [Slot.initial, contents]
  have isAddress : e.address = Word.toSigned (s.initial + k) := by
    rw [initial, ← UInt64.ofNat_toNat (x := k), isPart.address,
      low s stored _ (List.getElem?_eq_some_iff.1 listed).1]
  have viewed : ∀ {i ib} (line : Nat), i.bind (ctx.names t) = .ok ib → ib.literal? = some k →
      (Expr.index line (.name a nameLine) i).bind (ctx.names t) =
        .ok (.slot (s.withOffset (.fixed k) .long) line) := by
    intro i ib line isIndex isLiteral
    rw [Names.bind_index resolved notStruct isIndex, valid.indexed_array stored array isLiteral,
      if_neg (Nat.not_le.2 inside)]
  refine ⟨e, ?_, ?_, isAddress, ?_, ?_, ?_⟩
  · rw [← valid.find?_eq storedE, isPart.asmName]
  · have somewhere := (valid.address_lt stored notStruct).1
    unfold Assembly.declaration
    rw [if_neg (by omega), if_pos (.inl array), contents, initial]
  · intro i ib line isIndex isLiteral
    refine ⟨_, viewed line isIndex isLiteral, fun ctx st validS interns => ?_⟩
    have found : st.table.get? (Word.toSigned (UInt64.ofNat (first s.asmName) + k)) = some e := by
      rw [← initial, ← isAddress]
      exact validS.table.get?_address (interns.mem storedE) (by simp [isPart.kind])
    exact Codegen.place_element array contents found isPart.kind isPart.scope line ctx
  · intro i ib n line M m isIndex boundI isPureI isNode loaded value
    rw [Names.bind_index resolved notStruct isIndex] at isNode
    have indexed := Node.indexed_ensures _ _ _ _ n isNode
    have boundB : (Node.slot s nameLine).Bound t :=
      Or.inr (complete.isVariable stored notStruct (by simp [array]) (by simp [array]))
    have anchored := loaded.array complete stored array
    have isBase : (Node.slot s nameLine).value? M.arithmetic M.mayRead m = some s.initial := by
      rw [← anchored]
      exact Slot.value?_direct (by simp [Slot.literal?, Slot.constant?, array]) (valid.direct s stored)
    refine Codegen.accesses complete loaded boundB rfl boundI isPureI indexed storedE isPart.kind ?_
    rw [indexed.cell? isBase value, isAddress]
    rintro _ _ ⟨⟩ -
    exact anchored
  · intro i ib line line' isIndex isLiteral
    have isKnown : (ctx.names t).addressOf? (s.withOffset (.fixed k) .long) = some e.address := by
      rw [isAddress, initial]
      simp [Names.addressOf?, Slot.withOffset, array, contents]
    have isPlace : (0 : Int) ≤ e.address := isPart.address ▸ Int.natCast_nonneg _
    rw [Expr.bind]
    simp [Expr.name?, viewed line' isIndex isLiteral, Node.slotOf, Names.addressLiteral, isKnown,
      isPlace, bind, Except.bind]

include complete parted low in
theorem SlotTable.Partitioned.struct_agrees
    (resolved : (ctx.names t).resolveVariable a nameLine = .ok s) (isStruct : s.kind = .struct)
    {tag : String} {members : List Member} {j : Nat} {m : Member} (type : s.type = .struct tag)
    (known : t.members? tag = some members) (listed : members[j]? = some m) :
    ∃ e, MemberAgrees ctx t a nameLine s tag m.name j (first s.asmName) e := by
  have valid := complete.valid
  obtain ⟨stored, -⟩ := (ctx.names t).resolveVariable_ensures a nameLine s resolved
  have stored : s ∈ t.slots := stored
  have known' : (ctx.names t).table.members? tag = some members := known
  have isMember : ∀ line, (ctx.names t).memberOf tag m.name line = .ok (j, m.type) := by
    intro line
    simp [Names.memberOf, known', parted.find?_member valid stored isStruct type known listed]
  have isListed := SlotTable.parts_member isStruct type known listed
  obtain ⟨e, storedE, isPart⟩ := parted.part s stored _ _ isListed
  have found : t.find? (s.asmName ++ "_" ++ m.name) = some e := by
    rw [← valid.find?_eq storedE, isPart.asmName]
  have address := low s stored _ (List.getElem?_eq_some_iff.1 isListed).1
  refine ⟨e, found, isPart.address, fun line => ?_, fun line => ?_, ?_⟩
  · have found' : (ctx.names t).table.find? (s.asmName ++ "_" ++ m.name) = some e := found
    simp [Expr.bind, Expr.name?, Names.memberSlot, resolved, type, isStruct, isMember, found', bind,
      Except.bind, pure, Except.pure]
  · cases members with
    | nil => cases listed
    | cons m₀ members =>
      obtain ⟨e₀, stored₀, isHead⟩ :=
        parted.part s stored _ _ (SlotTable.parts_member (i := 0) isStruct type known rfl)
      have foundHead : (ctx.names t).table.find? (s.asmName ++ "_" ++ m₀.name) = some e₀ := by
        rw [← valid.find?_eq stored₀, isHead.asmName]
        rfl
      have isKnown : (ctx.names t).addressOf? s = some (Int.ofNat (first s.asmName)) := by
        simp [Names.addressOf?, isStruct, type, known', foundHead, isHead.address]
      rw [Expr.bind]
      simp [Expr.name?, resolved, Names.addressLiteral, isKnown, bind, Except.bind]
  · intro p pb n line M mem isPointer boundP isPureP isType isNode loaded value
    have isNode : pb.indexed (.literal (UInt64.ofNat j) line) m.type line = .ok n := by
      rw [← isNode]
      simp [Expr.bind, isPointer, Node.throughPointer, isType, isMember, bind, Except.bind]
    have indexed := Node.indexed_ensures _ _ _ _ n isNode
    have isIndex : (Node.literal (UInt64.ofNat j) line).value? M.arithmetic M.mayRead mem =
        some (UInt64.ofNat j) := by
      have isLiteral := Slot.literal?_literal (UInt64.ofNat j)
      simp [Node.value?, Node.literal, Slot.value?, isLiteral, Slot.value_of_literal isLiteral]
    have boundI : (Node.literal (UInt64.ofNat j) line).Bound t := Slot.literal_bound t _
    refine Codegen.accesses complete loaded boundP isPureP boundI rfl indexed storedE isPart.kind ?_
    rw [indexed.cell? (e := M.environment) value isIndex, address, isPart.address]
    rintro s₁ line₁ rfl array
    have isVariable := Or.resolve_left boundP fun isLiteral => by
      simp [Slot.kind_of_literal? isLiteral.1] at array
    obtain ⟨s₀, mem, -, same⟩ := isVariable.stored
    rw [same] at array ⊢
    exact loaded.array (s := s₀) complete mem array

end

/-- Whatever way a part of a variable is reached in the code of a contract, it is the same slot: an index
that is known, one that is computed behind the address that the header sets the array to, and the address
of the element agree, and so do a member and its place behind the address of the variable. An index that
is known to lie outside of the array is refused, and no two variables have parts at one address. All of this
holds in every table `t` that phrases can leave. -/
theorem Layout.addressing_agrees {p : Program} {settings : Settings} {l : Layout}
    (isLayout : ofProgram p settings = .ok l) (small : l.table.Small) {t : SlotTable}
    (derives : l.table.Derives t) (valid : t.Valid) (ctx : Codegen.Context) :
    (∀ a nameLine s, (ctx.names t).resolveVariable a nameLine = .ok s → s.kind = .array →
      (∀ k : Word, k.toNat < s.size → ∃ e, ElementAgrees ctx t a nameLine s k e) ∧
      ∀ (k : Word) i ib line, s.size ≤ k.toNat → i.bind (ctx.names t) = .ok ib →
        ib.literal? = some k → (Expr.index line (.name a nameLine) i).bind (ctx.names t) =
          .error (.misuse line (.indexOutOfBounds k.toNat s.name s.size))) ∧
    (∀ v nameLine s tag members, (ctx.names t).resolveVariable v nameLine = .ok s →
      s.kind = .struct → s.type = .struct tag → t.members? tag = some members →
      ∃ first, ∀ j m, members[j]? = some m →
        ∃ e, MemberAgrees ctx t v nameLine s tag m.name j first e) ∧
    ∀ s ∈ t.slots, ∀ s' ∈ t.slots, s ≠ s' → ∀ q ∈ t.parts s, ∀ q' ∈ t.parts s',
      ∃ e e', t.find? q.1 = some e ∧ t.find? q'.1 = some e' ∧ e.address ≠ e'.address := by
  have laid := ofProgram_laid p settings l isLayout
  obtain ⟨-, -, first, partedL⟩ := ofProgram_partitioned p settings l isLayout
  have parted := partedL.derives derives
  have complete := (laid.complete small).derives derives valid
  have low := partedL.toSigned laid.valid small derives
  refine ⟨fun a nameLine s resolved array => ⟨fun k inside => ?_, fun k i ib line outside isIndex isLiteral => ?_⟩,
    fun v nameLine s tag members resolved isStruct type known => ⟨first s.asmName, fun j m listed => ?_⟩,
    fun s stored s' stored' other q listed q' listed' => ?_⟩
  · exact parted.array_agrees complete low resolved array inside
  · obtain ⟨stored, -⟩ := (ctx.names t).resolveVariable_ensures a nameLine s resolved
    rw [Names.bind_index resolved (by simp [array]) isIndex,
      valid.indexed_array stored array isLiteral, if_pos outside]
  · exact parted.struct_agrees complete low resolved isStruct type known listed
  · obtain ⟨k, below, rfl⟩ := List.getElem_of_mem listed
    obtain ⟨k', below', rfl⟩ := List.getElem_of_mem listed'
    obtain ⟨e, storedE, isPart⟩ := parted.part s stored k _ (List.getElem?_eq_getElem below)
    obtain ⟨e', storedE', isPart'⟩ := parted.part s' stored' k' _ (List.getElem?_eq_getElem below')
    refine ⟨e, e', by rw [← valid.find?_eq storedE, isPart.asmName],
      by rw [← valid.find?_eq storedE', isPart'.asmName], ?_⟩
    rw [isPart.address, isPart'.address]
    have apart := parted.apart s stored s' stored'
      (fun same => other (valid.eq_of_asmName stored stored' same)) k below k' below'
    exact fun same => apart (Int.ofNat.inj same)

namespace Sample

def pair : String :=
  "struct PAIR \x7b long low, high; \x7d; struct PAIR p, *r; long a[3], x; void main(void) \x7b \x7d"

def pairTable : SlotTable :=
  ⟨[r0, r1, r2, { cell Slot.nowhere "p" .struct with type := .struct "PAIR" }, cell 3 "p_low" .long,
    cell 4 "p_high" .long, { cell 5 "r" .structRef with type := .structPtr "PAIR" },
    { cell 6 "a" .array with type := .longPtr, size := 3, contents := some "0000000000000007" },
    cell 7 "a_0" .long, cell 8 "a_1" .long, cell 9 "a_2" .long, cell 10 "x" .long], 11,
    [("PAIR", [⟨"low", .long⟩, ⟨"high", .long⟩])]⟩

theorem pair_laid : (Contract.read pair {}).Succeeds fun c => c.layout.table = pairTable := by decide +kernel

/-- The pointer `r` was fixed to the address of `p`. -/
def pointed : SlotTable := pairTable.setContents "r" (some "0000000000000003")

/-- The member `high` of `p` is 5, and `x` is 2. -/
def pairMemory : Memory := fun a => [0, 0, 0, 0, 5, 3, 7, 0, 0, 0, 2].getD a.toNat 0

end Sample

/-- With the default settings, `a[x] = r->high` sets the third element to the second member of `p`, and
`x = r->high` reads it. -/
theorem Layout.addressing_agrees_pair :
    let ctx : Codegen.Context := { settings := {}, functions := [] }
    let code : List Instr := [.setLiteral "r0" "0000000000000001", .load "r1" "r" (some "r0"),
      .store "a" (some "x") "r1"]
    let code' : List Instr := [.setLiteral "r0" "0000000000000001", .load "x" "r" (some "r0")]
    let M : Machine := ⟨Sample.arithmetic, Sample.pointed, code ++ code'⟩
    ∃ p a e e', MemberAgrees ctx Sample.pointed "p" 1 p "PAIR" "high" 1 3 e ∧ e.address = 4 ∧
      ElementAgrees ctx Sample.pointed "a" 1 a 2 e' ∧ e'.address = 9 ∧
      (∃ mm, M.Leads code none Sample.pairMemory mm ∧ mm 9 = 5) ∧
      ∃ mm, M.Leads code' none Sample.pairMemory mm ∧ mm 10 = 5 := by
  intro ctx code code' M
  obtain ⟨c, isContract, isTable⟩ := Sample.pair_laid
  have derives : c.layout.table.Derives Sample.pointed := by
    rw [isTable]
    exact .setContents (by decide) rfl (by decide) rfl _
  obtain ⟨arrays, structs, -⟩ := Layout.addressing_agrees (Contract.layout_of_read isContract)
    (by rw [isTable]; decide) derives (by decide) ctx
  obtain ⟨e', element⟩ := (arrays "a" 1 _ rfl rfl).1 2 (by decide)
  obtain ⟨first, each⟩ := structs "p" 1 _ "PAIR" _ rfl rfl rfl rfl
  obtain ⟨e, member⟩ := each 1 _ rfl
  have atHigh : e.address = 4 := congrArg Slot.address (Option.some.inj (member.named.symm.trans rfl))
  obtain rfl : first = 3 := by
    have := atHigh.symm.trans member.address
    simp only [Int.ofNat_eq_natCast] at this
    omega
  have atTwo : e'.address = 9 := element.address.trans (by decide)
  let st : Codegen.State := { Sample.state 0 [] with table := Sample.pointed }
  let r : Slot := ⟨5, "r", "r", .structRef, Slot.globalScope, .structPtr "PAIR", 1, some "0000000000000003", none⟩
  let x : Node := .slot (Sample.cell 10 "x" .long) 1
  let high : Node := .slot (r.withOffset (.fixed 1) .long) 1
  have hosts : M.Hosts st := ⟨by decide, .refl _⟩
  have loaded : M.LoadedFrom Sample.pointed Sample.pairMemory := ⟨by decide, .refl _, by decide⟩
  have ofElement := element.computed (.name "x" 1) x _ 1 M _ rfl (by decide) rfl rfl loaded rfl
  have ofMember := member.through (.name "r" 1) (.slot r 1) high 1 M _ rfl (by decide) rfl rfl rfl loaded rfl
  obtain ⟨mm, leads, holds⟩ := ofElement.written high 5 (by decide) rfl rfl 1 st _ code st (by decide) (.refl _)
    rfl hosts
  obtain ⟨mm', leads', holds'⟩ := ofMember.read x _ (by decide) rfl 1 st _ code' st (by decide) (.refl _) rfl hosts
  refine ⟨_, _, e, e', member, atHigh, element, atTwo, ⟨mm, leads, ?_⟩, mm', leads', ?_⟩
  · rw [holds 9 (by decide), atTwo]
    rfl
  · rw [holds' 10 (by decide), atHigh]
    rfl

end ContractCompiler
