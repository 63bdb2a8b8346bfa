import ContractCompiler.Proofs.Anchor.Bind
import ContractCompiler.Proofs.Codegen.Made.Node

/-!
# Proofs.Mentions — the variables that code names

An assignment may be computed in the assigned variable if the node of its value does not mention it. The
code of a node names registers, constants that are kept, and the cells that the slots of the node touch
(`World.ofNode`). A node mentions the cell of a slot and the cell of its offset. It does not mention the
element that a view of an array at a fixed index stands for, and these are the only cells that the code
names and the node does not mention (`Node.eval_mentions`).
-/

namespace ContractCompiler

set_option autoImplicit false

open Codegen (Context State resolve)

/-- The slot is the one at that address, or its offset is held there. -/
def Slot.mentions (a : Int) (s : Slot) : Bool := s.address == a || s.offset == some (.dynamic a)

/-- The slot is a view of an array at a fixed index, and the cell at the address is that element. -/
def Slot.IsElementAt (a : Int) (s : Slot) : Prop :=
  s.kind = .array ∧ ∃ first index, s.contents.bind Word.ofHex? = some first ∧ s.offset = some (.fixed index) ∧
    a = Word.toSigned (first + index)

theorem Slot.mem_touches {a : Int} {s : Slot} (touched : a ∈ s.touches) :
    s.mentions a = true ∨ s.IsElementAt a := by
  rcases List.mem_cons.1 touched with rfl | touched
  · exact .inl (by simp [mentions])
  · cases offset : s.offset with
    | none => simp [offset] at touched
    | some distance =>
      cases distance with
      | dynamic b => exact .inl (by simp_all [mentions])
      | fixed index =>
        rw [offset] at touched
        dsimp only at touched
        split at touched
        · rename_i array
          obtain ⟨first, isFirst, rfl⟩ := List.mem_map.1 touched
          exact .inr ⟨array, first, index, Option.mem_toList.1 isFirst, offset, rfl⟩
        · cases touched

namespace Node

theorem mentions_eq (a : Int) (n : Node) : n.mentions a = n.slots.any (Slot.mentions a) := by
  induction n with
  | slot s _ => simp [mentions, slots, Slot.mentions]
  | call _ args _ _ ih | host _ args _ ih =>
    rw [mentions, slots, anyMentions_eq, Bool.eq_iff_iff]
    simp only [List.any_eq_true, mem_allSlots]
    grind
  | _ => simp_all [mentions, slots, Bool.or_assoc]

end Node

/-- Lines may name registers, constants and the cells that the slots of a node touch. -/
def World.ofNode (n : Node) (t : SlotTable) (valid : t.Valid) : World where
  inside _ := True
  table := t
  names name := ∃ e ∈ t.slots, e.asmName = name ∧
    (e.kind = .register ∨ e.kind = .constant ∨ ∃ s ∈ n.slots, e.address ∈ s.touches)
  strict := True
  valid := valid
  own s stored kind := ⟨s, stored, rfl, or_assoc.1 (.inl kind)⟩
  total loose := absurd trivial loose

namespace Codegen.Made

variable {α : Type} {m : Codegen α} {left : Option (List Slot)} {after : α → List Slot} {post : α → Prop}
  {ctx : Context} {s s' : State} {a : α} {code : List Instr}

theorem leaves (made : Made .free True 0 s.deferred.length [] [] left after post m) (valid : s.Valid)
    (done : m ctx s = .done a code s') : s.table.Derives s'.table ∧ s'.Valid := by
  have leaves := made.orderly ctx s (.here s)
  rw [done] at leaves
  exact ⟨leaves.1.derives, leaves.1.valid valid⟩

theorem names {W : World} {d : Nat} (made : Made W True d s.deferred.length [] [] left after post m)
    (valid : s.Valid) (done : m ctx s = .done a code s') (known : s.table.Derives W.table)
    (derives : s'.table.Derives W.table) : post a ∧ ∀ i ∈ code, W.Line i := by
  have proper := made.proper trivial ctx s s.pool ⟨valid.table, known⟩ valid (.here s) valid.addresses_nodup
    (.refl _)
  rw [done] at proper
  exact proper derives

end Codegen.Made

namespace Node

variable {n : Node} {t u : SlotTable} {ctx : Context} {s s' : State} {o : Operand} {code : List Instr}

theorem fits_ofNode (sound : n.Sound t) (valid : t.Valid) : (World.ofNode n t valid).Fits n.postDepth n where
  within := n.within_true
  named x mem := by
    refine ⟨?_, fun a touched e stored _ isAddress => ⟨e, stored, rfl, .inr (.inr ⟨x, mem, isAddress ▸ touched⟩)⟩⟩
    rcases sound.accessible x mem with ⟨isLiteral, -⟩ | ⟨rooted, -⟩
    · exact .inl isLiteral
    · obtain ⟨e, stored, -, address, asmName, -⟩ := rooted.cell
      exact .inr ⟨e, stored, asmName, .inr (.inr ⟨x, mem, by simp [Slot.touches, address]⟩)⟩
  sound _ := sound
  depth _ := Nat.le_refl _

/-- A cell that may be named and is neither a register nor a constant. -/
theorem mentions_of_names (valid : t.Valid) {x : Slot} (stored : x ∈ t.slots) (notRegister : x.kind ≠ .register)
    (notConstant : x.kind ≠ .constant) (named : (World.ofNode n t valid).names x.asmName) :
    n.mentions x.address = true ∨ ∃ y ∈ n.slots, y.IsElementAt x.address := by
  obtain ⟨e, stored', same, kind⟩ := named
  obtain rfl := valid.eq_of_asmName stored' stored same
  obtain ⟨y, mem, touched⟩ := (kind.resolve_left notRegister).resolve_left notConstant
  rw [mentions_eq]
  rcases Slot.mem_touches touched with isMentioned | isElement
  · exact .inl (List.any_eq_true.2 ⟨y, mem, isMentioned⟩)
  · exact .inr ⟨y, mem, isElement⟩

/-- What the code of a node leaves, and what it names in a later table. -/
theorem eval_named (sound : n.Sound s.table) (valid : s.Valid) (done : n.eval ctx s = .done o code s') :
    s.table.Derives s'.table ∧ s'.Valid ∧ ∀ (t : SlotTable) (validT : t.Valid), s'.table.Derives t →
      (World.ofNode n t validT).Value n o ∧ ∀ i ∈ code, (World.ofNode n t validT).Line i := by
  obtain ⟨grown, valid'⟩ := n.code_free.gives.leaves valid done
  refine ⟨grown, valid', fun t validT derives => ?_⟩
  have sound := sound.mono (grown.trans derives).grows
  exact (code_made (fits_ofNode sound validT)).gives.names valid done (grown.trans derives) derives

/-- What reading the value of a node names. -/
theorem read_named {line : Nat} {found : Operand} {code' : List Instr} {s'' : State} (sound : n.Sound s.table)
    (valid : s.Valid) (done : n.eval ctx s = .done o code s')
    (read : resolve o.slot line ctx s' = .done found code' s'') :
    s'.table.Derives s''.table ∧ ∃ validT : s''.table.Valid,
      (World.ofNode n s''.table validT).names found.slot.asmName ∧
        ∀ i ∈ code', (World.ofNode n s''.table validT).Line i := by
  obtain ⟨-, valid', named⟩ := eval_named sound valid done
  obtain ⟨grown, valid''⟩ :=
    (Codegen.resolve_made trivial fun _ => World.reads_ofLines o.slot).leaves valid' read
  obtain ⟨value, -⟩ := named s''.table valid''.table grown
  obtain ⟨stands, lines⟩ := (Codegen.resolve_made (W := .ofNode n s''.table valid''.table) (d := 0) trivial
    fun _ => value.toReads).names valid' read grown (.refl _)
  exact ⟨grown, valid''.table, stands.named, lines⟩

/-- The code of an expression, and reading its value, names no variable that its node does not mention, but
for elements of arrays at a fixed index. -/
theorem eval_mentions {p : Program} {settings : Settings} {l : Layout} {names : Names} {e : Expr} {x : Slot}
    (isLayout : Layout.ofProgram p settings = .ok l) (small : l.table.Small)
    (derives : l.table.Derives names.table) (validNames : names.table.Valid) (bound : e.bind names = .ok n)
    (grown : names.table.Derives s.table) (valid : s.Valid)
    (done : n.eval ctx s = .done o code s') (stored : x ∈ s'.table.slots) (notRegister : x.kind ≠ .register)
    (notConstant : x.kind ≠ .constant)
    (touched : (∃ i ∈ code, x.asmName ∈ i.operands) ∨ ∃ line found code' s'',
      resolve o.slot line ctx s' = .done found code' s'' ∧
        (x.asmName = found.slot.asmName ∨ ∃ i ∈ code', x.asmName ∈ i.operands)) :
    n.mentions x.address = true ∨ ∃ y ∈ n.slots, y.IsElementAt x.address := by
  have complete : names.table.Complete :=
    ((Layout.ofProgram_laid p settings l isLayout).complete small).derives derives validNames
  have firm := (Expr.bind_relates (Names.relates_firm fun _ : True => complete) e.within_true).ensures n bound
  have sound : n.Sound s.table := (firm.sound trivial).mono grown.grows
  rcases touched with ⟨i, isLine, isOperand⟩ | ⟨line, found, code', s'', read, named⟩
  · obtain ⟨-, valid', named⟩ := eval_named sound valid done
    have lines := (named s'.table valid'.table (.refl _)).2
    exact mentions_of_names valid'.table stored notRegister notConstant ((lines i isLine).2 _ isOperand)
  · obtain ⟨derives, validT, isFound, lines⟩ := read_named sound valid done read
    obtain ⟨x', stored', becomes⟩ := derives.grows.slots x stored
    rw [← becomes.address]
    refine mentions_of_names validT stored' (becomes.kind ▸ notRegister) (becomes.kind ▸ notConstant) ?_
    rw [becomes.asmName]
    rcases named with same | ⟨i, isLine, isOperand⟩
    · exact same ▸ isFound
    · exact (lines i isLine).2 _ isOperand

end Node

namespace Sample

/-- An array of two elements. -/
def twoElements : Program where
  structs := []
  globals := [.declaration ⟨.long, false, [⟨"a", false, some 2, none, 1⟩], 1⟩]
  functions := []

set_option synthInstance.maxSize 256 in
/-- The second element is read by its name, and the node of its value does not mention it. -/
theorem element_read : (Layout.ofProgram twoElements {}).Succeeds fun l =>
    ((Expr.index 1 (.name "a" 1) (.number "1" 1)).bind ⟨l.table, l.functions, none⟩).Succeeds fun n =>
      n.eval.Succeeds ⟨{}, [], toString, none, none, false⟩ (.ofLayout l) fun o _ s =>
        (resolve o.slot 1).Succeeds ⟨{}, [], toString, none, none, false⟩ s fun found _ _ =>
          ∃ x ∈ s.table.find? "a_1", l.table.Small ∧ x.asmName = found.slot.asmName ∧ x.kind = .long ∧
            n.mentions x.address = false := by
  decide +kernel

end Sample

/-- The node of `a[1]` has a view of `a` in it, and not `a_1`, which is what is read. -/
theorem Node.eval_mentions_element : ∃ (ctx : Context) (l : Layout) (n : Node) (o found : Operand)
    (code code' : List Instr) (s s' : State) (x : Slot), Layout.ofProgram Sample.twoElements {} = .ok l ∧
    (Expr.index 1 (.name "a" 1) (.number "1" 1)).bind ⟨l.table, l.functions, none⟩ = .ok n ∧
    n.eval ctx (.ofLayout l) = .done o code s ∧ resolve o.slot 1 ctx s = .done found code' s' ∧
    x ∈ s.table.slots ∧ x.asmName = found.slot.asmName ∧ n.mentions x.address = false ∧
    ∃ y ∈ n.slots, y.IsElementAt x.address := by
  obtain ⟨l, isLayout, n, bound, o, code, s, done, found, code', s', read, x, isElement, small, named, kind,
    notMentioned⟩ := Sample.element_read
  have laid := Layout.ofProgram_laid _ _ l isLayout
  have stored := List.mem_of_find?_eq_some isElement
  have covered := Node.eval_mentions isLayout small (.refl _) laid.valid bound (.refl _)
    ⟨laid.valid, Pool.slots_ofTable l.table⟩ done stored (by simp [kind]) (by simp [kind])
    (.inr ⟨1, found, code', s', read, .inl named⟩)
  exact ⟨_, l, n, o, found, code, code', s, s', x, isLayout, bound, done, read, stored, named, notMentioned,
    covered.resolve_left (by simp [notMentioned])⟩

end ContractCompiler
