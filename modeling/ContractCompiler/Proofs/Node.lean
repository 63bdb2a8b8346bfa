import ContractCompiler.Codegen.Node

/-!
# Proofs.Node — induction over nodes

A call has its arguments in a list, so that the recursor of nodes speaks of lists of nodes as well.
`Node.ind` is induction over nodes alone: what is shown of a call may use what is known of its arguments.
-/

namespace ContractCompiler

set_option autoImplicit false

@[induction_eliminator]
theorem Node.ind {motive : Node → Prop} (slot : ∀ s line, motive (.slot s line))
    (deref : ∀ base type line, motive base → motive (.deref base type line))
    (lookup : ∀ base index type line, motive base → motive index → motive (.lookup base index type line))
    (assign : ∀ op target value line, motive target → motive value →
      motive (.assign op target value line))
    (binary : ∀ op left right line, motive left → motive right → motive (.binary op left right line))
    (unary : ∀ op operand line, motive operand → motive (.unary op operand line))
    (compare : ∀ r left right line, motive left → motive right → motive (.compare r left right line))
    (logic : ∀ connective left right line, motive left → motive right →
      motive (.logic connective left right line))
    (ternary : ∀ condition yes no line, motive condition → motive yes → motive no →
      motive (.ternary condition yes no line))
    (call : ∀ function args returns line, (∀ n ∈ args, motive n) → motive (.call function args returns line))
    (host : ∀ operation args line, (∀ n ∈ args, motive n) → motive (.host operation args line))
    (n : Node) : motive n :=
  @Node.rec motive (fun ns => ∀ n ∈ ns, motive n) slot deref lookup assign binary unary compare logic
    ternary call host (List.forall_mem_nil _) (fun _ _ first rest => List.forall_mem_cons.2 ⟨first, rest⟩) n

theorem Node.anyMentions_eq (a : Int) (ns : List Node) : anyMentions a ns = ns.any (·.mentions a) := by
  induction ns with
  | nil => rfl
  | cons n rest ih => simp [anyMentions, ih]

theorem Node.values_eq (eval : Node → Codegen Operand) (ns : List Node) :
    values eval ns = ns.map fun n => (n.plan eval).value none := by
  induction ns with
  | nil => rfl
  | cons n rest ih => rw [values, ih, List.map_cons]

theorem Node.postDepth_operand_le (op : UnaryOp) (operand : Node) (line : Nat) :
    operand.postDepth ≤ (unary op operand line).postDepth := by
  cases op with
  | postStep _ => exact Nat.le_succ _
  | _ => exact Nat.le_refl _

theorem Node.le_maxPostDepth {n : Node} {ns : List Node} (mem : n ∈ ns) : n.postDepth ≤ maxPostDepth ns := by
  induction ns with
  | nil => cases mem
  | cons first rest ih =>
    rw [maxPostDepth]
    rcases List.mem_cons.1 mem with rfl | mem
    · exact Nat.le_max_left _ _
    · exact Nat.le_trans (ih mem) (Nat.le_max_right _ _)

end ContractCompiler
