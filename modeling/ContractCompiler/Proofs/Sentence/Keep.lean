import ContractCompiler.Proofs.Codegen
import ContractCompiler.Proofs.Freeze
import ContractCompiler.Proofs.Sentence.Woven

/-!
# Proofs.Sentence.Keep — what phrases and conditions keep, a contract keeps

Sentences and functions add labels, jumps and other marks to the code of their phrases and conditions,
and the parameters are popped. So a relation between a state, the code made from it and the state that
follows holds for the code of sentences if it holds for that of their phrases and conditions, adds up
where code follows code, and takes no notice of marks (`Codegen.Composes`, `Codegen.sentences_keep`). If
it also holds where parameters are popped, it holds for the blocks of a contract, one after the other
(`Codegen.blocks_keep`).
-/

namespace ContractCompiler

set_option autoImplicit false

/-- A line that sentences and functions add to the code of their phrases and conditions. -/
def Instr.isMark : Instr → Bool
  | label _ | jump _ | ret | finish | resetStart => true
  | comment text => (comment text).isLegible
  | _ => false

theorem Instr.isLegible_lineComment (line : Nat) : (comment ("line " ++ toString line)).isLegible = true := by
  have oneLine : '\n' ∉ (toString line).toList := by
    intro mem
    cases Numeral.isDigit_of_mem_toString mem
  simpa [isLegible, hasTexts] using oneLine

namespace Codegen

variable {α β : Type} {R : State → List Instr → State → Prop}

/-- The relation adds up, and takes no notice of marks. -/
structure Composes (R : State → List Instr → State → Prop) : Prop where
  marks : ∀ {s s' : State} {code : List Instr}, (∀ i ∈ code, i.isMark = true) → s'.table = s.table →
    s'.pool = s.pool → s'.deferred = s.deferred → R s code s'
  trans : ∀ {s s' s'' : State} {code code' : List Instr}, R s code s' → R s' code' s'' →
    R s (code ++ code') s''

/-- The relation holds for the action in every context with these functions. -/
def Keeps (functions : List Signature) (R : State → List Instr → State → Prop) (m : Codegen α) : Prop :=
  ∀ ctx, ctx.functions = functions → ∀ s, m.Ends ctx s fun _ code s' => R s code s'

variable {functions : List Signature}

theorem Keeps.within {m : Codegen α} (keeps : Keeps functions R m) {change : Context → Context}
    (same : ∀ ctx, (change ctx).functions = ctx.functions) : Keeps functions R (Codegen.within change m) :=
  fun ctx isContext s => keeps (change ctx) ((same ctx).trans isContext) s

namespace Composes

variable {m : Codegen α} {f : α → Codegen β} (composes : Composes R)
include composes

theorem bind (first : Keeps functions R m) (rest : ∀ a, Keeps functions R (f a)) :
    Keeps functions R (m >>= f) := by
  intro ctx isContext s
  refine .bind ((first ctx isContext s).mono ?_)
  intro a code s' related
  refine (rest a ctx isContext s').mono ?_
  intro _ code' s'' related'
  exact composes.trans related related'

theorem pure (a : α) : Keeps functions R (Codegen.pure a) :=
  fun _ _ _ => .pure (composes.marks (by simp) rfl rfl rfl)

theorem emit {i : Instr} (isMark : i.isMark = true := by rfl) : Keeps functions R (Codegen.emit i) :=
  fun _ _ _ => .emit (composes.marks (by simpa using isMark) rfl rfl rfl)

theorem labelId (line : Nat) : Keeps functions R (Codegen.labelId line) :=
  fun _ _ _ => .of rfl (composes.marks (by simp) rfl rfl rfl)

theorem comment (line : Nat) : Keeps functions R (Codegen.comment line) := by
  intro ctx _ s
  refine .bind (.of rfl (.bind (.of rfl ?_)))
  split
  · have isMark := Instr.isLegible_lineComment line
    exact .bind (.emit (.modifyState (composes.marks (List.forall_mem_singleton.2 isMark) rfl rfl rfl)))
  · exact .pure (composes.marks (by simp) rfl rfl rfl)

end Composes

/-! ## Sentences -/

theorem Woven.keeps {exits labels : List String} {m m' : Codegen Unit} (composes : Composes R)
    (conditions : ∀ tokens target when line, Keeps functions R (Codegen.condition tokens target when line))
    (woven : Woven Eq (fun tokens line => ∀ isConst, Keeps functions R (Codegen.phrase tokens isConst line))
      (fun _ _ => True) exits labels m m') : Keeps functions R m := by
  induction woven with
  | phrase allowed isConst => exact allowed isConst
  | condition _ _ _ when _ => exact conditions _ _ when _
  | nothing => exact composes.pure _
  | andThen _ _ ih ih' => exact composes.bind ih fun _ => ih'
  | labelId _ _ _ ih => exact composes.bind (composes.labelId _) fun id => ih id id rfl
  | label _ _ _ ih => exact composes.bind composes.emit fun _ => ih
  | lastLabel _ _ | jump _ _ _ => exact composes.emit
  | comment line => exact composes.comment line
  | loop _ _ _ ih => exact ih.within fun _ => rfl

/-- What the phrases and conditions of sentences keep, the sentences keep. -/
theorem sentences_keep (composes : Composes R)
    (conditions : ∀ tokens target when line, Keeps functions R (condition tokens target when line))
    (ss : List Sentence)
    (phrases : ∀ p ∈ Sentence.allPhrases ss, ∀ isConst, Keeps functions R (phrase p.1 isConst p.2)) :
    Keeps functions R (sentences ss) :=
  (sentences_woven ss phrases fun _ _ => trivial : Woven Eq _ _ [] _ _ _).keeps composes conditions

/-! ## Contracts -/

section Blocks

variable (composes : Composes R)
  (conditions : ∀ tokens target when line, Keeps functions R (condition tokens target when line))
include composes conditions

theorem firstBlock_keeps {p : Program}
    (phrases : ∀ q ∈ p.phrases, ∀ isConst, Keeps functions R (phrase q.1 isConst q.2)) :
    Keeps functions R (firstBlock p) := by
  obtain ⟨inGlobals, inFunctions⟩ := List.forall_mem_append.1 phrases
  refine composes.bind (sentences_keep composes conditions p.globals inGlobals) fun _ => ?_
  dsimp only
  split
  · rename_i f isMain
    have inMain : ∀ q ∈ Sentence.allPhrases f.body, ∀ isConst, Keeps functions R (phrase q.1 isConst q.2) :=
      fun q mem => inFunctions q (List.mem_flatMap.2 ⟨f, List.mem_of_find?_eq_some isMain, mem⟩)
    have main : Keeps functions R (mainFunction f) := by
      unfold mainFunction
      split
      · exact composes.bind composes.emit fun _ => composes.bind composes.emit fun _ =>
          (sentences_keep composes conditions f.body inMain).within fun _ => rfl
      · exact fun _ _ _ => .fail _
    exact composes.bind main fun _ => composes.emit
  · exact composes.bind (composes.pure _) fun _ => composes.emit

variable (params : ∀ f ∈ functions, ∀ x ∈ f.params, ∀ s, R s [.pop x] s)
include params

omit conditions in
theorem pops_keep (name : String) {found : List String}
    (isFound : found = ((Signature.find? functions name).map (·.params)).getD []) (s : State) :
    R s (found.map .pop) s := by
  have each : ∀ x ∈ found, R s [.pop x] s := by
    cases isFunction : Signature.find? functions name with
    | none => simp [isFound, isFunction]
    | some f =>
      simp only [isFound, isFunction, Option.map_some, Option.getD_some]
      exact fun x mem => params f (List.mem_of_find?_eq_some isFunction) x mem s
  clear isFound
  induction found with
  | nil => exact composes.marks (by simp) rfl rfl rfl
  | cons x rest ih =>
    obtain ⟨first, each⟩ := List.forall_mem_cons.1 each
    exact composes.trans first (ih each)

theorem functionBlock_keeps {ctx : Context} (isContext : ctx.functions = functions) {f : FunctionDef}
    (phrases : ∀ q ∈ Sentence.allPhrases f.body, ∀ isConst, Keeps functions R (phrase q.1 isConst q.2))
    (s : State) : (functionBlock f).Ends ctx s fun block code s' => code = [] ∧ R s block s' := by
  refine .bind (.modifyState (.bind (.of rfl (.bind (.capture (.within ?_))))))
  let ctx' : Context := { ctx with function := some f.name }
  refine (sentences_keep composes conditions f.body phrases ctx' isContext _).mono ?_
  intro _ body s' inBody
  refine .pure ⟨rfl, ?_⟩
  have popped := pops_keep composes params f.name (by rw [← isContext]) { s with lastComment := none }
  have label : R s [.label (functionLabel f.name)] { s with lastComment := none } :=
    composes.marks (by simp [Instr.isMark]) rfl rfl rfl
  have returns : R s' [.ret] s' := composes.marks (by simp [Instr.isMark]) rfl rfl rfl
  have block := composes.trans label (composes.trans popped inBody)
  split
  · simpa using block
  · simpa using composes.trans block returns

/-- What the phrases and conditions of a contract keep, its blocks keep. -/
theorem blocks_keep {ctx : Context} (isContext : ctx.functions = functions) {p : Program}
    (phrases : ∀ q ∈ p.phrases, ∀ isConst, Keeps functions R (phrase q.1 isConst q.2)) (s : State) :
    (blocks p).Ends ctx s fun blocks _ s' => R s blocks.flatten s' := by
  have others : ∀ (fs : List FunctionDef) (s : State), (∀ f ∈ fs, f ∈ p.functions) →
      (functionBlocks fs).Ends ctx s fun blocks code s' => code = [] ∧ R s blocks.flatten s' := by
    intro fs
    induction fs with
    | nil => exact fun s _ => .pure ⟨rfl, composes.marks (by simp) rfl rfl rfl⟩
    | cons f rest ih =>
      intro s listed
      obtain ⟨first, listed⟩ := List.forall_mem_cons.1 listed
      have inBody : ∀ q ∈ Sentence.allPhrases f.body, ∀ isConst, Keeps functions R (phrase q.1 isConst q.2) :=
        fun q mem => phrases q (List.mem_append_right _ (List.mem_flatMap.2 ⟨f, first, mem⟩))
      refine .bind ((functionBlock_keeps composes conditions params isContext inBody s).mono ?_)
      intro block _ s₁ ⟨isNil, keeps⟩
      refine .bind ((ih s₁ listed).mono ?_)
      intro blocks _ s₂ ⟨isNil', keeps'⟩
      exact .pure ⟨by simp [isNil, isNil'], composes.trans keeps keeps'⟩
  refine .bind (.capture ((firstBlock_keeps composes conditions phrases ctx isContext s).mono ?_))
  intro _ first s₁ keeps
  refine .bind ((others _ s₁ fun f mem => List.mem_of_mem_filter mem).mono ?_)
  intro blocks _ s₂ ⟨_, keeps'⟩
  exact .pure (composes.trans keeps keeps')

end Blocks

end Codegen

end ContractCompiler
