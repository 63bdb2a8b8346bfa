import ContractCompiler.Proofs.Program

/-!
# Proofs.Balance — the stack of the contract across functions

The block of a function takes its parameters from the stack, keeps the stack level, and returns with its
value on it (`FunctionBlock`). What follows holds on every path through it
(`Program.functions_balanced`): a return right behind a push leaves one value in place of the parameters,
and any other leaves nothing. Where the function has a value, only the last line of its block can be a
return of the second kind: the one that is put behind a body which does not end in a return, although
the caller takes a value.
-/

namespace ContractCompiler

set_option autoImplicit false

open Codegen (functionLabel)

/-- The line before that at a position pushes a word. -/
def followsPush (code : List Instr) : Nat → Bool
  | 0 => false
  | k + 1 =>
    match code[k]? with
    | some (.push _) => true
    | _ => false

namespace FunctionBlock

variable {functions : List Signature} {g : Signature} {lines block : List Instr}
  (isBlock : FunctionBlock functions g lines block)
include isBlock

theorem followsPush_inside (hasValue : g.returnsValue = true) {q : Nat} (line : lines[q]? = some .ret) :
    followsPush lines q = true := by
  have split : lines = lines.take q ++ .ret :: lines.drop (q + 1) := by
    obtain ⟨inside, same⟩ := List.getElem?_eq_some_iff.1 line
    rw [← same, List.getElem_cons_drop, List.take_append_drop]
  obtain ⟨x, last⟩ := isBlock.returns (by simp [hasValue]) _ _ split
  have inside : q < lines.length := (List.getElem?_eq_some_iff.1 line).1
  cases q with
  | zero => simp at last
  | succ k =>
    have before : lines[k]? = some (.push x) := by
      rw [List.getLast?_eq_getElem?, List.length_take] at last
      have index : min (k + 1) lines.length - 1 = k := by omega
      rw [index, List.getElem?_take_of_lt (Nat.lt_succ_self k)] at last
      exact last
    simp [followsPush, before]

/-- A push is never the last line, since nothing is left on the stack. -/
theorem followsPush_end : followsPush lines lines.length = false := by
  cases count : lines.length with
  | zero => rfl
  | succ k =>
    rw [followsPush]
    split
    · rename_i x line
      exfalso
      have height := isBlock.level.takes _ _ (mem_leveled line)
      have ends : heightAt (Signature.calls functions) (if g.returnsValue then 1 else 0)
          g.params.length lines (k + 1) = _ := heightAt_succ line
      rw [← count, heightAt, List.take_length, isBlock.level.ends] at ends
      simp only [Instr.takes, Instr.shift, Instr.growth, Instr.gives] at height ends
      omega
    · rfl

/-- What holds on every path through the block of a function. -/
theorem along {visited : List Nat} {q : Nat} {i : Instr} (path : Path block 0 visited q)
    (line : block[q]? = some i) :
    i.takes (Signature.calls functions) ≤
        g.params.length + gain (Signature.calls functions) block visited ∧
      (i = .ret → g.params.length + gain (Signature.calls functions) block visited =
        (if g.returnsValue ∧ followsPush block q then 1 else 0) ∧
          (g.returnsValue = true → followsPush block q = false → q + 1 = block.length)) := by
  rcases isBlock.ends with rfl | ⟨rfl, -⟩
  · obtain ⟨takes, returns⟩ := isBlock.level.along isBlock.nodup path line
    refine ⟨takes, ?_⟩
    rintro rfl
    rw [returns rfl]
    by_cases hasValue : g.returnsValue = true
    · simp [hasValue, isBlock.followsPush_inside hasValue line]
    · simp [hasValue]
  · obtain ⟨takes, returns⟩ := isBlock.level.along_ret (Int.le_refl 0) isBlock.nodup path line
    refine ⟨takes, ?_⟩
    rintro rfl
    rw [returns rfl]
    have front : ∀ k ≤ lines.length, followsPush (lines ++ [.ret]) k = followsPush lines k := by
      intro k le
      cases k with
      | zero => rfl
      | succ k => rw [followsPush, followsPush, List.getElem?_append_left (by omega)]
    by_cases inside : q < lines.length
    · rw [List.getElem?_append_left inside] at line
      rw [front q (Nat.le_of_lt inside)]
      by_cases hasValue : g.returnsValue = true
      · simp [inside, hasValue, isBlock.followsPush_inside hasValue line]
      · simp [inside, hasValue]
    · have last : q = lines.length := by
        have := (List.getElem?_eq_some_iff.1 line).1
        simp at this
        omega
      rw [last, front _ (Nat.le_refl _), isBlock.followsPush_end]
      simp

end FunctionBlock

/-- On every path through the block of a function the stack holds what each line takes, so that nothing
below the parameters is touched. A return right behind a push leaves one value in place of the
parameters, and any other return leaves nothing. If the function has a value, a return of the second
kind is the last line of the block. -/
theorem Program.functions_balanced {p : Program} {settings : Settings} {l : Layout}
    {randomId : Nat → String} {blocks : List (List Instr)} {code : List Instr} {s : Codegen.State}
    (isLayout : Layout.ofProgram p settings = .ok l)
    (compiled : Codegen.blocks p ⟨settings, l.functions, randomId, none, none, false⟩ (.ofLayout l) =
      .done blocks code s)
    (distinct : LabelId.Distinct settings randomId s.labels) {f : FunctionDef}
    (defined : f ∈ p.functions) (notMain : f.name ≠ "main") :
    ∃ block ∈ blocks, ∃ returns, block.head? = some (.label (functionLabel f.name)) ∧
      f.returnType = .ok returns ∧
      ∀ visited q i, Path block 0 visited q → block[q]? = some i →
        i.takes (Signature.calls l.functions) ≤
          f.params.length + gain (Signature.calls l.functions) block visited ∧
        (i = .ret → gain (Signature.calls l.functions) block visited =
            (if returns ≠ .void ∧ followsPush block q then 1 else 0) - f.params.length ∧
          (returns ≠ .void → followsPush block q = false → q + 1 = block.length)) := by
  obtain ⟨first, others, s₁, rfl, split⟩ := Codegen.blocks_split isLayout compiled
  obtain ⟨g, found, describes⟩ := (Layout.ofProgram_describes p settings l isLayout).1 f defined
  obtain ⟨block, mem, isBlock⟩ := split.functions f defined notMain
  obtain ⟨lines, holds⟩ := isBlock.signed g found notMain distinct
  refine ⟨block, List.mem_cons_of_mem _ mem, g.returns, isBlock.head, describes.returns, ?_⟩
  intro visited q i path line
  obtain ⟨takes, returns⟩ := holds.along path line
  rw [describes.count] at takes returns
  refine ⟨takes, fun isRet => ?_⟩
  obtain ⟨balance, last⟩ := returns isRet
  simp only [Signature.returnsValue, bne_iff_ne] at balance last
  exact ⟨by omega, last⟩

namespace Sample

/-- A function with a value that returns one in some cases only. -/
def halving : String :=
  "long half(long x) \x7b if (x > 1) return x / 2; \x7d long y; void main(void) \x7b y = half(3); \x7d"

set_option synthInstance.maxSize 1000 in
/-- The function is compiled, and of its two returns the one within the body follows a push. -/
theorem halving_returns : (Contract.read halving settings).Succeeds fun c =>
    ∃ f ∈ c.program.functions, (Codegen.blocks c.program).Succeeds (context c c.settings)
      (.ofLayout c.layout) fun blocks _ s => s.labels < LabelId.count ∧ f.name = "half" ∧ f.params.length = 1 ∧
        f.returns = .long ∧ f.returnsPointer = false ∧
        ∀ block ∈ blocks, block.head? = some (.label "__fn_half") → block.count .ret = 2 ∧
          ∀ q < block.length, block[q]? = some .ret →
            followsPush block q = decide (q + 1 < block.length) := by
  decide +kernel

end Sample

/-- The parameter is taken and a value is left, or nothing if the end of the body is reached. -/
theorem Program.functions_balanced_halving : ∃ (c : Contract) (blocks : List (List Instr))
    (code : List Instr) (s : Codegen.State), Contract.read Sample.halving Sample.settings = .ok c ∧
    Codegen.blocks c.program
      ⟨c.settings, c.layout.functions, LabelId.scrambled 0, none, none, false⟩ (.ofLayout c.layout) =
        .done blocks code s ∧
    ∃ block ∈ blocks, block.head? = some (.label "__fn_half") ∧ block.count .ret = 2 ∧
      ∀ visited q, Path block 0 visited q → block[q]? = some .ret →
        gain (Signature.calls c.layout.functions) block visited =
          if q + 1 < block.length then 0 else -1 := by
  obtain ⟨c, isContract, f, listed, blocks, code, s, compiled, few, name, params, returnsLong, notPointer,
    facts⟩ := Sample.halving_returns
  obtain ⟨block, mem, returns, head, isType, along⟩ := Program.functions_balanced
    (Contract.layout_of_read isContract) compiled (LabelId.scrambled_distinct c.settings 0 few) listed
    (by simp [name])
  rw [name] at head
  obtain ⟨two, pushed⟩ := facts block mem head
  refine ⟨c, blocks, code, s, isContract, compiled, block, mem, head, two, ?_⟩
  intro visited q path line
  obtain ⟨-, balance⟩ := along visited q .ret path line
  obtain rfl : .long = returns := by
    simpa [FunctionDef.returnType, returnsLong, notPointer] using isType
  rw [(balance rfl).1, pushed q (List.getElem?_eq_some_iff.1 line).1 line, params]
  split <;> simp_all

end ContractCompiler
