import ContractCompiler.Expr
import ContractCompiler.Proofs.Parser.Reads

/-!
# Proofs.Expr.Written — how expressions are written

Operators that stand between operands have their place in a table (`Expr.rows`), and the place of its outermost
operator ranks an expression. An operand has to have a rank that its operator sets, or to stand in parentheses.
`Expr.Written need e ts` says that the tokens `ts` are a way to write `e` where a rank of at least `need` is
called for. More parentheses than needed are allowed anywhere, and the lines of marks that no node keeps are
free. `Expr.tokens` writes parentheses only around operands whose rank is too low, and no way is shorter
(`Written.length_le`).
-/

namespace ContractCompiler

set_option autoImplicit false

namespace Expr

open Token (mark named Separated)

/-! ## Ranks -/

/-- The operators between operands, from those that bind the most to those that bind the least. The question
mark is that of the conditional operator. -/
def rows : List (List String) :=
  [["*", "/", "%"], ["+", "-"], ["<<", ">>"], ["<", "<=", ">", ">="], ["==", "!="], ["&"], ["^"], ["|"], ["&&"],
    ["||"], ["?"], ["=", "+=", "-=", "*=", "/=", "%=", "&=", "|=", "^=", "<<=", ">>="]]

/-- The rank of an operator between operands. The last row has rank 1. -/
def rowRank (symbol : String) : Nat := rows.length - rows.findIdx (·.contains symbol)

/-- Prefix operators bind more than all the rows. -/
def prefixRank : Nat := rows.length + 1

/-- What follows an operand directly binds even more. -/
def suffixRank : Nat := rows.length + 2

/-- The rank that the left operand of an operator needs. The two last rows group to the right. -/
def leftNeed (rank : Nat) : Nat := if rank ≤ 2 then rank + 1 else rank

/-- The rank that the right operand of an operator needs. All but the two last rows group to the left. -/
def rightNeed (rank : Nat) : Nat := if rank ≤ 2 then rank else rank + 1

/-- The rank of an expression without parentheses around it. -/
def rank : Expr → Nat
  | name _ _ | number _ _ | call _ _ _ => suffixRank + 1
  | index _ _ _ | member _ _ _ _ | stepped _ _ _ => suffixRank
  | prefixed _ _ _ => prefixRank
  | infixed op _ _ _ => rowRank op.symbol
  | ternary _ _ _ _ => rowRank "?"

/-! ## Ways to write an expression -/

/-- The tokens write the expression where a rank of at least the given one is called for. -/
inductive Written : Nat → Expr → List Token → Prop
  | name {need : Nat} (text : String) (line : Nat) : Written need (.name text line) [named text line]
  | number {need : Nat} (text : String) (line : Nat) : Written need (.number text line) [⟨.number, text, line⟩]
  | call {need : Nat} (function : String) (line l l' : Nat) :
    Written need (.call function line []) [named function line, mark "(" l, mark ")" l']
  | callWith {need : Nat} {args : List (Expr × List Token)} {us : List Token} (function : String)
    (line l l' : Nat) (each : ∀ arg ∈ args, Written 0 arg.1 arg.2)
    (separated : Separated (args.map (·.2)) us) :
    Written need (.call function line (args.map (·.1)))
      (named function line :: mark "(" l :: (us ++ [mark ")" l']))
  | index {need : Nat} {base position : Expr} {ts us : List Token} (line l : Nat) (allowed : need ≤ suffixRank)
    (first : Written suffixRank base ts) (inner : Written 0 position us) :
    Written need (.index line base position) (ts ++ mark "[" line :: (us ++ [mark "]" l]))
  | member {need : Nat} {base : Expr} {ts : List Token} (line l : Nat) (arrow : Bool) (field : String)
    (allowed : need ≤ suffixRank) (first : Written suffixRank base ts) :
    Written need (.member line arrow base field)
      (ts ++ [mark (if arrow then "->" else ".") l, named field line])
  | stepped {need : Nat} {operand : Expr} {ts : List Token} (step : Step) (line : Nat)
    (allowed : need ≤ suffixRank) (first : Written suffixRank operand ts) :
    Written need (.stepped step line operand) (ts ++ [mark step.symbol line])
  | prefixed {need : Nat} {operand : Expr} {ts : List Token} (op : PrefixOp) (line : Nat)
    (allowed : need ≤ prefixRank) (inner : Written prefixRank operand ts) :
    Written need (.prefixed op line operand) (mark op.symbol line :: ts)
  | infixed {need : Nat} {left right : Expr} {ts us : List Token} (op : InfixOp) (line : Nat)
    (allowed : need ≤ rowRank op.symbol) (first : Written (leftNeed (rowRank op.symbol)) left ts)
    (second : Written (rightNeed (rowRank op.symbol)) right us) :
    Written need (.infixed op line left right) (ts ++ mark op.symbol line :: us)
  | ternary {need : Nat} {condition yes no : Expr} {ts us vs : List Token} (line l : Nat)
    (allowed : need ≤ rowRank "?") (first : Written (leftNeed (rowRank "?")) condition ts)
    (inner : Written 0 yes us) (second : Written (rightNeed (rowRank "?")) no vs) :
    Written need (.ternary line condition yes no) (ts ++ mark "?" line :: (us ++ mark ":" l :: vs))
  | enclosed {need : Nat} {e : Expr} {ts : List Token} (l l' : Nat) (inner : Written 0 e ts) :
    Written need e (mark "(" l :: (ts ++ [mark ")" l']))

/-- What is good enough for a high rank is so for a lower one. -/
theorem Written.mono {need need' : Nat} {e : Expr} {ts : List Token} (written : Written need e ts)
    (le : need' ≤ need) : Written need' e ts := by
  cases written with
  | name text line => exact .name text line
  | number text line => exact .number text line
  | call function line l l' => exact .call function line l l'
  | callWith function line l l' each separated => exact .callWith function line l l' each separated
  | index line l allowed first inner => exact .index line l (Nat.le_trans le allowed) first inner
  | member line l arrow field allowed first => exact .member line l arrow field (Nat.le_trans le allowed) first
  | stepped step line allowed first => exact .stepped step line (Nat.le_trans le allowed) first
  | prefixed op line allowed inner => exact .prefixed op line (Nat.le_trans le allowed) inner
  | infixed op line allowed first second => exact .infixed op line (Nat.le_trans le allowed) first second
  | ternary line l allowed first inner second => exact .ternary line l (Nat.le_trans le allowed) first inner second
  | enclosed l l' inner => exact .enclosed l l' inner

/-! ## The fewest parentheses -/

/-- Parentheses around an expression if its rank is below the one needed. -/
def enclose (l need : Nat) (e : Expr) (ts : List Token) : List Token :=
  if e.rank < need then mark "(" l :: (ts ++ [mark ")" l]) else ts

mutual

/-- The tokens of an expression, with parentheses only around operands whose rank is too low. Marks that no
node keeps the line of are on line `l`. -/
def tokens (l : Nat) : Expr → List Token
  | name text line => [named text line]
  | number text line => [⟨.number, text, line⟩]
  | call function line args => named function line :: mark "(" l :: (argTokens l args ++ [mark ")" l])
  | index line base position =>
    enclose l suffixRank base (tokens l base) ++ mark "[" line :: (tokens l position ++ [mark "]" l])
  | member line arrow base field =>
    enclose l suffixRank base (tokens l base) ++ [mark (if arrow then "->" else ".") l, named field line]
  | stepped step line operand =>
    enclose l suffixRank operand (tokens l operand) ++ [mark step.symbol line]
  | prefixed op line operand => mark op.symbol line :: enclose l prefixRank operand (tokens l operand)
  | infixed op line left right =>
    enclose l (leftNeed (rowRank op.symbol)) left (tokens l left) ++
      mark op.symbol line :: enclose l (rightNeed (rowRank op.symbol)) right (tokens l right)
  | ternary line condition yes no =>
    enclose l (leftNeed (rowRank "?")) condition (tokens l condition) ++ mark "?" line ::
      (tokens l yes ++ mark ":" l :: enclose l (rightNeed (rowRank "?")) no (tokens l no))

def argTokens (l : Nat) : List Expr → List Token
  | [] => []
  | [e] => tokens l e
  | e :: e' :: rest => tokens l e ++ mark "," l :: argTokens l (e' :: rest)

end

theorem Written.enclose {e : Expr} {ts : List Token} (written : Written e.rank e ts) (l need : Nat) :
    Written need e (e.enclose l need ts) := by
  unfold Expr.enclose
  split
  · exact .enclosed l l (written.mono (Nat.zero_le _))
  · rename_i enough
    exact written.mono (Nat.not_lt.1 enough)

theorem argTokens_separated (l : Nat) : (args : List Expr) → args ≠ [] →
    Separated ((args.map fun e => (e, tokens l e)).map (·.2)) (argTokens l args)
  | [], nonempty => absurd rfl nonempty
  | [e], _ => .one _
  | e :: e' :: rest, _ => .more _ l (argTokens_separated l (e' :: rest) (by simp))

mutual

theorem written_tokens (l : Nat) : (e : Expr) → Written e.rank e (tokens l e)
  | name text line => .name text line
  | number text line => .number text line
  | call function line [] => .call function line l l
  | call function line (e :: rest) => by
    have written : Written (rank (call function line (e :: rest)))
        (.call function line (((e :: rest).map fun e => (e, tokens l e)).map (·.1)))
        (named function line :: mark "(" l :: (argTokens l (e :: rest) ++ [mark ")" l])) := by
      refine .callWith function line l l ?_ (argTokens_separated l (e :: rest) (by simp))
      intro arg mem
      obtain ⟨e', mem', rfl⟩ := List.mem_map.1 mem
      exact (written_args l (e :: rest) e' mem').mono (Nat.zero_le _)
    rwa [List.map_map, show ((·.1) ∘ fun e : Expr => (e, tokens l e)) = id from rfl, List.map_id] at written
  | index line base position => .index line l (Nat.le_refl _) ((written_tokens l base).enclose l _)
      ((written_tokens l position).mono (Nat.zero_le _))
  | member line arrow base field =>
    .member line l arrow field (Nat.le_refl _) ((written_tokens l base).enclose l _)
  | stepped step line operand => .stepped step line (Nat.le_refl _) ((written_tokens l operand).enclose l _)
  | prefixed op line operand => .prefixed op line (Nat.le_refl _) ((written_tokens l operand).enclose l _)
  | infixed op line left right =>
    .infixed op line (Nat.le_refl _) ((written_tokens l left).enclose l _) ((written_tokens l right).enclose l _)
  | ternary line condition yes no =>
    .ternary line l (Nat.le_refl _) ((written_tokens l condition).enclose l _)
      ((written_tokens l yes).mono (Nat.zero_le _)) ((written_tokens l no).enclose l _)

theorem written_args (l : Nat) : (args : List Expr) → ∀ e ∈ args, Written e.rank e (tokens l e)
  | [] => by simp
  | e :: rest => List.forall_mem_cons.2 ⟨written_tokens l e, written_args l rest⟩

end

/-! No way to write an expression is shorter. -/

theorem enclose_of_le {l need : Nat} {e : Expr} {ts : List Token} (le : need ≤ e.rank) :
    e.enclose l need ts = ts := if_neg (Nat.not_lt.2 le)

theorem length_enclose_le (l need : Nat) (e : Expr) (ts : List Token) :
    (e.enclose l need ts).length ≤ ts.length + 2 := by
  unfold enclose
  split <;> simp

theorem length_argTokens_le {pieces : List (List Token)} {us : List Token} (separated : Separated pieces us) (l : Nat)
    {args : List (Expr × List Token)} (isPieces : args.map (·.2) = pieces)
    (each : ∀ arg ∈ args, (tokens l arg.1).length ≤ arg.2.length) :
    (argTokens l (args.map (·.1))).length ≤ us.length := by
  induction separated generalizing args with
  | one ts =>
    obtain ⟨arg, rfl, rfl⟩ := List.map_eq_singleton_iff.1 isPieces
    exact each arg (by simp)
  | more ts line others ih =>
    obtain ⟨arg, args, rfl, rfl, rfl⟩ := List.map_eq_cons_iff.1 isPieces
    obtain ⟨first, later⟩ := List.forall_mem_cons.1 each
    cases args with
    | nil => cases others
    | cons arg' args =>
      have shorter := ih rfl later
      simp only [List.map_cons, argTokens, List.length_append, List.length_cons] at shorter ⊢
      omega

theorem leftNeed_le (symbol : String) : leftNeed (rowRank symbol) ≤ suffixRank := by
  have le : rowRank symbol ≤ rows.length := Nat.sub_le _ _
  grind [leftNeed, suffixRank]

theorem rightNeed_le (symbol : String) : rightNeed (rowRank symbol) ≤ suffixRank := by
  have le : rowRank symbol ≤ rows.length := Nat.sub_le _ _
  grind [rightNeed, suffixRank]

theorem Written.length_le {need : Nat} {e : Expr} {ts : List Token} (written : Written need e ts)
    (le : need ≤ suffixRank) (l : Nat) : (e.enclose l need (tokens l e)).length ≤ ts.length := by
  induction written with
  | name | number | call =>
    exact Nat.le_trans (Nat.le_of_eq (congrArg List.length (enclose_of_le (Nat.le_succ_of_le le)))) (Nat.le_refl _)
  | callWith function line _ _ _ separated each =>
    rw [enclose_of_le (Nat.le_succ_of_le le)]
    have shorter := length_argTokens_le separated l rfl fun arg mem => each arg mem (Nat.zero_le _)
    simp only [tokens, List.length_cons, List.length_append]
    omega
  | index _ _ allowed _ _ first inner =>
    rw [enclose_of_le allowed]
    have shorter := first (Nat.le_refl _)
    have shorter' := inner (Nat.zero_le _)
    rw [enclose_of_le (Nat.zero_le _)] at shorter'
    simp only [tokens, List.length_cons, List.length_append]
    omega
  | member _ _ _ _ allowed _ first | stepped _ _ allowed _ first =>
    rw [enclose_of_le allowed]
    have shorter := first (Nat.le_refl _)
    simp only [tokens, List.length_cons, List.length_append]
    omega
  | prefixed _ _ allowed _ inner =>
    rw [enclose_of_le allowed]
    have shorter := inner (Nat.le_succ _)
    simp only [tokens, List.length_cons]
    omega
  | infixed _ _ allowed _ _ first second =>
    rw [enclose_of_le allowed]
    have shorter := first (leftNeed_le _)
    have shorter' := second (rightNeed_le _)
    simp only [tokens, List.length_cons, List.length_append]
    omega
  | ternary _ _ allowed _ _ _ first inner second =>
    rw [enclose_of_le allowed]
    have shorter := first (leftNeed_le _)
    have shorter' := inner (Nat.zero_le _)
    have shorter'' := second (rightNeed_le _)
    rw [enclose_of_le (Nat.zero_le _)] at shorter'
    simp only [tokens, List.length_cons, List.length_append]
    omega
  | @enclosed need e ts _ _ _ inner =>
    have shorter := inner (Nat.zero_le _)
    rw [enclose_of_le (Nat.zero_le _)] at shorter
    have longer := length_enclose_le l need e (tokens l e)
    simp only [List.length_cons, List.length_append, List.length_nil]
    omega

end Expr

end ContractCompiler
