import ContractCompiler.Proofs.LabelClosure
import ContractCompiler.Proofs.Variation.Sentence
import Mathlib.Logic.Equiv.Basic

/-!
# Proofs.LabelMode — labels under other names

Labels carry numbers, source lines with numbers, or random ids (`LabelMode`). Whatever they carry, the
same contracts compile, and the blocks are the same up to the names of labels
(`LabelMode.blocks_relabelled`).

That the blocks differ in labels only is `Pairing.program_agrees`. It does not say that one label has
one new name: a number goes with any line there. But a label is defined once, so the labels of the
numbered blocks, in their order, have the labels of the other blocks as their new names, and a jump has to
find its label among them.
-/

namespace ContractCompiler

set_option autoImplicit false

open Codegen (functionLabel)

/-! ## Renaming labels -/

/-- The line with other names of labels. -/
def Instr.relabel (rename : String → String) : Instr → Instr
  | label l => label (rename l)
  | branchZero src target => branchZero src (rename target)
  | branchNonzero src target => branchNonzero src (rename target)
  | branch relation left right target => branch relation left right (rename target)
  | jump target => jump (rename target)
  | call target => call (rename target)
  | i => i

theorem Instr.relabel_relabel (rename rename' : String → String) (i : Instr) :
    (i.relabel rename).relabel rename' = i.relabel (rename' ∘ rename) := by
  cases i <;> rfl

/-- A line without labels is not changed by a renaming. -/
theorem Instr.relabel_of_none {rename : String → String} {i : Instr} (noLabel : Instr.labels [i] = [])
    (noTarget : i.target? = none) (called : ∀ l, i = .call l → rename l = l) : i.relabel rename = i := by
  cases i with
  | label _ => cases noLabel
  | branchZero _ _ | branchNonzero _ _ | branch _ _ _ _ | jump _ => cases noTarget
  | call l => exact congrArg Instr.call (called l rfl)
  | _ => rfl

/-- Pairs of names, equal on one side just if they are equal on the other, are a part of a permutation. What
is to be kept and occurs in them only in pairs with itself is kept. -/
theorem exists_renaming {α : Type} [DecidableEq α] (kept : α → Prop) {pairs : List (α × α)}
    (alike : ∀ q ∈ pairs, ∀ q' ∈ pairs, q.1 = q'.1 ↔ q.2 = q'.2)
    (keeps : ∀ q ∈ pairs, kept q.1 ∨ kept q.2 → q.1 = q.2) :
    ∃ ρ : Equiv.Perm α, (∀ a, kept a → ρ a = a) ∧ ∀ q ∈ pairs, ρ q.1 = q.2 := by
  induction pairs with
  | nil => exact ⟨Equiv.refl α, fun _ _ => rfl, by simp⟩
  | cons first rest ih =>
    obtain ⟨a, b⟩ := first
    simp only [List.forall_mem_cons] at alike keeps
    obtain ⟨⟨-, withFirst⟩, others⟩ := alike
    obtain ⟨ρ, fixed, renames⟩ := ih (fun q mem => (others q mem).2) keeps.2
    by_cases done : ρ a = b
    · exact ⟨ρ, fixed, List.forall_mem_cons.2 ⟨done, renames⟩⟩
    · refine ⟨ρ.trans (Equiv.swap (ρ a) b), fun l isKept => ?_, List.forall_mem_cons.2 ⟨?_, fun q mem => ?_⟩⟩
      · have notOld : l ≠ ρ a := by
          intro isOld
          obtain rfl : l = a := ρ.injective ((fixed l isKept).trans isOld)
          exact done ((fixed l isKept).trans (keeps.1 (.inl isKept)))
        have notNew : l ≠ b := by
          rintro rfl
          obtain rfl : a = l := keeps.1 (.inr isKept)
          exact done (fixed a isKept)
        rw [Equiv.trans_apply, fixed l isKept, Equiv.swap_apply_of_ne_of_ne notOld notNew]
      · rw [Equiv.trans_apply, Equiv.swap_apply_left]
      · have notOld : q.2 ≠ ρ a := by
          intro isOld
          have same : a = q.1 := ρ.injective ((renames q mem).trans isOld).symm
          exact done (isOld.symm.trans ((withFirst q mem).1 same).symm)
        have notNew : q.2 ≠ b := by
          intro isNew
          have same : a = q.1 := (withFirst q mem).2 isNew.symm
          exact done (by rw [same, renames q mem, isNew])
        rw [Equiv.trans_apply, renames q mem, Equiv.swap_apply_of_ne_of_ne notOld notNew]

theorem eq_map_of_forall₂ {α β : Type} {R : α → β → Prop} {f : α → β} {l : List α} {l' : List β}
    (related : List.Forall₂ R l l') (eq : ∀ a ∈ l, ∀ b ∈ l', R a b → b = f a) : l' = l.map f := by
  induction related with
  | nil => rfl
  | cons first _ ih =>
    have rest := ih fun a mem b mem' => eq a (List.mem_cons_of_mem _ mem) b (List.mem_cons_of_mem _ mem')
    rw [List.map_cons, ← rest, eq _ List.mem_cons_self _ List.mem_cons_self first]

/-! ## Modes -/

/-- What tells labels apart. -/
inductive LabelMode where
  /-- The number of labels made so far. -/
  | numbered
  /-- The source line and that number. -/
  | lined
  /-- An id for each number. -/
  | random (ids : Nat → String)

namespace LabelMode

/-- The settings with labels of that mode. -/
def settings (base : Settings) : LabelMode → Settings
  | numbered => { base with enableLineLabels := false, enableRandom := false }
  | lined => { base with enableLineLabels := true, enableRandom := false }
  | random _ => { base with enableRandom := true }

/-- The ids of random labels; in the other modes nothing reads them. -/
def ids : LabelMode → Nat → String
  | random ids => ids
  | _ => LabelId.scrambled 0

/-- The first `count` labels carry different ids. -/
def Distinct (count : Nat) : LabelMode → Prop
  | random ids => ∀ i j, 0 < i → i ≤ count → 0 < j → j ≤ count → ids i = ids j → i = j
  | _ => True

def blocks (mode : LabelMode) (p : Program) (base : Settings) : Outcome (List (List Instr)) :=
  p.blocks (mode.settings base) mode.ids

/-- How many labels are made for a contract that compiles. -/
def labelCount (mode : LabelMode) (p : Program) (base : Settings) : Nat :=
  match Layout.ofProgram p (mode.settings base) with
  | .error _ => 0
  | .ok l =>
    match Codegen.blocks p ⟨mode.settings base, l.functions, mode.ids, none, none, false⟩ (.ofLayout l) with
    | .done _ _ s => s.labels
    | .failed _ _ => 0

/-- What a label of that source line and number carries. -/
def id (mode : LabelMode) (base : Settings) (line ordinal : Nat) : String :=
  LabelId.ofSettings (mode.settings base) mode.ids line ordinal

/-- Different numbers have different ids. -/
theorem id_inj {mode : LabelMode} {base : Settings} {count i j line line' : Nat}
    (distinct : mode.Distinct count) (above : 0 < i) (below : i ≤ count) (above' : 0 < j) (below' : j ≤ count)
    (same : mode.id base line i = mode.id base line' j) : i = j := by
  cases mode with
  | numbered | lined =>
    refine LabelId.ofSettings_inj ?_ below below' same
    simp [LabelId.Distinct, settings]
  | random ids => exact distinct i j above below above' below' same

/-- How the compilation in a mode differs from that with numbers. -/
def variation (mode : LabelMode) (base : Settings) : Variation where
  registers := base.maxAuxVars
  extra := 0
  id id id' := ∃ line ordinal, id = numbered.id base line ordinal ∧ id' = mode.id base line ordinal

theorem variation_contexts (mode : LabelMode) (base : Settings) (functions : List Signature) :
    (⟨mode.variation base, false, False⟩ : Pairing).Contexts
      ⟨numbered.settings base, functions, numbered.ids, none, none, false⟩
      ⟨mode.settings base, functions, mode.ids, none, none, false⟩ := by
  have ids : ∀ line ordinal, (mode.variation base).id (numbered.id base line ordinal)
      (mode.id base line ordinal) := fun line ordinal => ⟨line, ordinal, rfl, rfl⟩
  cases mode <;> exact ⟨rfl, rfl, (Bool.and_true _).symm, rfl, rfl, .none, rfl, ids⟩

/-! ## The new name of a label -/

/-- A label with one of the first `count` numbers, and its name in a mode. -/
def Named (mode : LabelMode) (base : Settings) (count : Nat) (l l' : String) : Prop :=
  ∃ (mark : Mark) (line ordinal : Nat), 0 < ordinal ∧ ordinal ≤ count ∧
    l = mark.text (numbered.id base line ordinal) ∧ l' = mark.text (mode.id base line ordinal)

section Named

variable {mode : LabelMode} {base : Settings} {count : Nat} {l l' : String}

theorem Named.left_ne (named : mode.Named base count l l') (f : String) : l ≠ functionLabel f := by
  obtain ⟨mark, line, ordinal, -, -, rfl, -⟩ := named
  exact (Codegen.functionLabel_ne_text f mark _).symm

theorem Named.right_ne (named : mode.Named base count l l') (f : String) : l' ≠ functionLabel f := by
  obtain ⟨mark, line, ordinal, -, -, -, rfl⟩ := named
  exact (Codegen.functionLabel_ne_text f mark _).symm

/-- Different labels have different names. -/
theorem Named.eq_of_right (distinct : mode.Distinct count) {l₁ l₂ : String}
    (named : mode.Named base count l₁ l') (named' : mode.Named base count l₂ l') : l₁ = l₂ := by
  obtain ⟨mark, line, i, above, below, rfl, rfl⟩ := named
  obtain ⟨mark', line', j, above', below', rfl, same⟩ := named'
  obtain ⟨rfl, sameId⟩ := Mark.text_inj same
  obtain rfl := id_inj distinct above below above' below' sameId
  rfl

/-- Labels that belong together carry one number. -/
theorem named_of_labels (related : (mode.variation base).Labels l l')
    (number : ∃ (ordinal line : Nat) (mark : Mark), 0 < ordinal ∧ ordinal ≤ count ∧
      l = mark.text (numbered.id base line ordinal)) : mode.Named base count l l' := by
  obtain ⟨mark, line, ordinal, rfl, rfl⟩ := related
  obtain ⟨ordinal', line', mark', above, below, same⟩ := number
  obtain rfl : ordinal = ordinal' := Numeral.toString_inj (Mark.text_inj same).2
  exact ⟨mark, line, ordinal, above, below, rfl, rfl⟩

end Named

/-! ## The code of both compilations -/

/-- The labels defined in both compilations, in their order. -/
theorem labels_related {v : Variation} {code code' : List Instr} (lines : List.Forall₂ v.Lines code code') :
    List.Forall₂ (fun l l' => (∃ f, l = functionLabel f) ∧ l' = l ∨ v.Labels l l')
      (Instr.labels code) (Instr.labels code') := by
  induction lines with
  | nil => exact .nil
  | @cons i i' code code' first _ ih =>
    have line : List.Forall₂ (fun l l' => (∃ f, l = functionLabel f) ∧ l' = l ∨ v.Labels l l')
        (Instr.labels [i]) (Instr.labels [i']) := by
      cases first with
      | same noLabel _ => rw [noLabel]; exact .nil
      | function name => exact .cons (.inl ⟨⟨name, rfl⟩, rfl⟩) .nil
      | label related => exact .cons (.inr related) .nil
      | _ => exact .nil
    show List.Forall₂ _ (Instr.labels ([i] ++ code)) (Instr.labels ([i'] ++ code'))
    rw [Instr.labels_append, Instr.labels_append]
    exact List.rel_append line ih

/-- What is known of the code with numbers. -/
structure Settled (base : Settings) (count : Nat) (code : List Instr) : Prop where
  nodup : (Instr.labels code).Nodup
  numbers : ∀ l ∈ Instr.labels code, (∃ f, l = functionLabel f) ∨
    ∃ (ordinal line : Nat) (mark : Mark), 0 < ordinal ∧ ordinal ≤ count ∧
      l = mark.text (numbered.id base line ordinal)
  jumps : JumpsInside code
  calls : ∀ l, .call l ∈ code → ∃ f, l = functionLabel f

section Renaming

variable {mode : LabelMode} {base : Settings} {count : Nat} {code code' : List Instr}

theorem Settled.named (settled : Settled base count code) {l l' : String}
    (related : (mode.variation base).Labels l l') (defined : l ∈ Instr.labels code) :
    mode.Named base count l l' := by
  refine named_of_labels related ((settled.numbers l defined).resolve_left ?_)
  rintro ⟨f, isFunction⟩
  obtain ⟨mark, -⟩ := related
  exact Codegen.functionLabel_ne_text f mark _ isFunction.symm

/-- One renaming takes every line of the code with numbers to the line of the other code. -/
theorem Settled.exists_renaming (settled : Settled base count code) (inside : JumpsInside code')
    (lines : List.Forall₂ (mode.variation base).Lines code code') (distinct : mode.Distinct count) :
    ∃ ρ : Equiv.Perm String, (∀ f, ρ (functionLabel f) = functionLabel f) ∧
      ∀ i ∈ code, ∀ i' ∈ code', (mode.variation base).Lines i i' → i' = i.relabel ρ := by
  have related := labels_related lines
  let pairs := (Instr.labels code).zip (Instr.labels code')
  have known : ∀ q ∈ pairs, (∃ f, q.1 = functionLabel f) ∧ q.2 = q.1 ∨ mode.Named base count q.1 q.2 := by
    intro q mem
    refine (List.forall₂_zip related mem).imp_right fun labels => ?_
    exact settled.named labels (List.of_mem_zip mem).1
  have alike : ∀ q ∈ pairs, ∀ q' ∈ pairs, q.1 = q'.1 ↔ q.2 = q'.2 := by
    have firsts : pairs.map Prod.fst = Instr.labels code := List.map_fst_zip (Nat.le_of_eq related.length_eq)
    intro q mem q' mem'
    constructor
    · intro same
      rw [List.inj_on_of_nodup_map (firsts ▸ settled.nodup) mem mem' same]
    · intro same
      rcases known q mem with ⟨⟨f, isFunction⟩, kept⟩ | named <;>
        rcases known q' mem' with ⟨⟨f', isFunction'⟩, kept'⟩ | named'
      · rw [← kept, ← kept', same]
      · exact absurd (same.symm.trans (kept.trans isFunction)) (named'.right_ne f)
      · exact absurd (same.trans (kept'.trans isFunction')) (named.right_ne f')
      · exact named.eq_of_right distinct (same ▸ named')
  have keeps : ∀ q ∈ pairs, (∃ f, q.1 = functionLabel f) ∨ (∃ f, q.2 = functionLabel f) → q.1 = q.2 := by
    intro q mem isFunction
    rcases known q mem with ⟨-, kept⟩ | named
    · exact kept.symm
    · rcases isFunction with ⟨f, isFunction⟩ | ⟨f, isFunction⟩
      · exact absurd isFunction (named.left_ne f)
      · exact absurd isFunction (named.right_ne f)
  obtain ⟨ρ, fixed, renames⟩ := ContractCompiler.exists_renaming (fun l => ∃ f, l = functionLabel f) alike keeps
  have functions : ∀ f, ρ (functionLabel f) = functionLabel f := fun f => fixed _ ⟨f, rfl⟩
  have names : ∀ {l l'}, (mode.variation base).Labels l l' → .label l ∈ code → .label l' ∈ code' →
      ρ l = l' := by
    intro l l' labels defined defined'
    have named := settled.named labels (Instr.mem_labels.2 defined)
    obtain ⟨l₁, mem⟩ : ∃ l₁, (l₁, l') ∈ pairs := by
      have seconds : pairs.map Prod.snd = Instr.labels code' := List.map_snd_zip (Nat.le_of_eq related.length_eq.symm)
      obtain ⟨q, mem, rfl⟩ := List.mem_map.1 (seconds ▸ Instr.mem_labels.2 defined')
      exact ⟨q.1, mem⟩
    rcases known _ mem with ⟨⟨f, isFunction⟩, kept⟩ | named'
    · exact absurd (kept.trans isFunction) (named.right_ne f)
    · rw [named.eq_of_right distinct named']
      exact renames _ mem
  refine ⟨ρ, functions, fun i mem i' mem' line => ?_⟩
  have jumps : ∀ {l l'}, (mode.variation base).Labels l l' → i.target? = some l → i'.target? = some l' →
      l' = ρ l := fun labels target target' =>
    (names labels (settled.jumps i mem _ target) (inside i' mem' _ target')).symm
  cases line with
  | same noLabel noTarget =>
    refine (Instr.relabel_of_none noLabel noTarget ?_).symm
    rintro l rfl
    obtain ⟨f, rfl⟩ := settled.calls l mem
    exact functions f
  | function name => exact congrArg Instr.label (functions name).symm
  | label labels => exact congrArg Instr.label (names labels mem mem').symm
  | jump labels => exact congrArg Instr.jump (jumps labels rfl rfl)
  | branchZero src labels => exact congrArg (Instr.branchZero src) (jumps labels rfl rfl)
  | branchNonzero src labels => exact congrArg (Instr.branchNonzero src) (jumps labels rfl rfl)
  | branch relation left right labels =>
    exact congrArg (Instr.branch relation left right) (jumps labels rfl rfl)

end Renaming

/-! ## Contracts -/

/-- The mode plays no part in the layout. -/
theorem layout_eq (mode : LabelMode) (p : Program) (base : Settings) :
    Layout.ofProgram p (mode.settings base) = Layout.ofProgram p base := by
  cases mode <;> rfl

theorem labelCount_eq {mode : LabelMode} {p : Program} {base : Settings} {l : Layout}
    {blocks : List (List Instr)} {code : List Instr} {s : Codegen.State}
    (isLayout : Layout.ofProgram p base = .ok l)
    (compiled : Codegen.blocks p ⟨mode.settings base, l.functions, mode.ids, none, none, false⟩ (.ofLayout l) =
      .done blocks code s) : mode.labelCount p base = s.labels := by
  unfold labelCount
  rw [layout_eq, isLayout]
  dsimp only
  rw [compiled]

/-- The jumps of all blocks stay inside of them, and the labels of all blocks are those of functions and
others that carry numbers. -/
theorem blocks_labelled {p : Program} {settings : Settings} {l : Layout} {randomId : Nat → String}
    {blocks : List (List Instr)} {code : List Instr} {s : Codegen.State}
    (isLayout : Layout.ofProgram p settings = .ok l)
    (compiled : Codegen.blocks p ⟨settings, l.functions, randomId, none, none, false⟩ (.ofLayout l) =
      .done blocks code s) : JumpsInside blocks.flatten ∧
      ∃ names, names.Nodup ∧ names ⊆ p.functions.map (·.name) ∧
        LabelledCode settings randomId 0 names blocks.flatten s.labels := by
  obtain ⟨-, different⟩ := Layout.ofProgram_names p settings l isLayout
  obtain ⟨first, others, s₁, rfl, split⟩ := Codegen.blocks_split isLayout compiled
  refine ⟨fun i mem target isTarget => ?_, _, Codegen.mainNames_nodup different, Codegen.mainNames_subset p,
    (split.main.trans split.rest).labelled⟩
  obtain ⟨block, listed, inBlock⟩ := List.mem_flatten.1 mem
  exact List.mem_flatten_of_mem listed (split.jumps block listed i inBlock target isTarget)

theorem settled {p : Program} {base : Settings} {l : Layout} {blocks : List (List Instr)} {code : List Instr}
    {s : Codegen.State} (isLayout : Layout.ofProgram p base = .ok l)
    (compiled : Codegen.blocks p ⟨numbered.settings base, l.functions, numbered.ids, none, none, false⟩
      (.ofLayout l) = .done blocks code s) : Settled base s.labels blocks.flatten := by
  obtain ⟨jumps, names, different, -, labelled⟩ :=
    blocks_labelled (numbered.layout_eq p base ▸ isLayout) compiled
  refine ⟨labelled.nodup different ?_, fun label mem => ?_, jumps, fun target isCall => ?_⟩
  · simp [LabelId.Distinct, settings]
  · obtain ⟨inner, numbers, labels⟩ := labelled
    rcases List.mem_append.1 (labels.mem_iff.1 mem) with mem | mem
    · obtain ⟨name, -, rfl⟩ := List.mem_map.1 mem
      exact .inl ⟨name, rfl⟩
    · exact .inr (numbers.numbers label mem)
  · obtain ⟨g, -, rfl⟩ := Codegen.blocks_callees compiled _ (Instr.mem_callees_function.2 isCall)
    exact ⟨g.name, rfl⟩

/-- Outcomes that are one refusal, or blocks that a permutation of the labels takes to each other. -/
def Renamed (x x' : Outcome (List (List Instr))) : Prop :=
  (∃ e, x = .error e ∧ x' = .error e) ∨
    ∃ (ρ : Equiv.Perm String) (blocks : List (List Instr)), (∀ f, ρ (functionLabel f) = functionLabel f) ∧
      x = .ok blocks ∧ x' = .ok (blocks.map (List.map (Instr.relabel ρ)))

/-- From labels with numbers to those of a mode. -/
theorem renamed_of_numbered (mode : LabelMode) (p : Program) (base : Settings)
    (distinct : mode.Distinct (mode.labelCount p base)) :
    Renamed (numbered.blocks p base) (mode.blocks p base) := by
  cases isLayout : Layout.ofProgram p base with
  | error e =>
    have refused : ∀ mode : LabelMode, mode.blocks p base = .error e :=
      fun mode => Program.blocks_of_refusal (by rw [layout_eq, isLayout]) mode.ids
    exact .inl ⟨e, refused numbered, refused mode⟩
  | ok l =>
    have compiled : ∀ mode : LabelMode, mode.blocks p base = (Codegen.blocks p
        ⟨mode.settings base, l.functions, mode.ids, none, none, false⟩ (.ofLayout l)).outcome :=
      fun mode => Program.blocks_of_layout (by rw [layout_eq, isLayout]) mode.ids
    let v : Pairing := ⟨mode.variation base, false, False⟩
    have layouts : v.Outcomes v.Layouts (Layout.ofProgram p base) (Layout.ofProgram p base) :=
      Variation.Layouts.ofProgram p rfl rfl
    rw [isLayout] at layouts
    obtain ⟨_, ⟨⟩, layouts⟩ := layouts
    have states : v.States (.ofLayout l) (.ofLayout l) :=
      ⟨layouts.tables, .inl rfl, layouts.tables.pools, rfl, rfl, rfl⟩
    have related := Pairing.program_agrees (p := p) not_false rfl (.inl rfl) _ _ _ _
      (mode.variation_contexts base l.functions) states
    rw [compiled mode, compiled numbered]
    cases ends : Codegen.blocks p ⟨numbered.settings base, l.functions, numbered.ids, none, none, false⟩
      (.ofLayout l) with
    | failed e s =>
      rw [ends] at related
      obtain ⟨s', ends'⟩ := related rfl
      rw [ends']
      exact .inl ⟨e, rfl, rfl⟩
    | done blocks code s =>
      rw [ends] at related
      obtain ⟨blocks', code', s', ends', lines, -, states'⟩ := related
      rw [labelCount_eq isLayout ends', states'.labels] at distinct
      rw [ends']
      obtain ⟨jumps, -⟩ := blocks_labelled (mode.layout_eq p base ▸ isLayout) ends'
      obtain ⟨ρ, functions, renames⟩ := (settled isLayout ends).exists_renaming jumps
        (List.rel_flatten lines) distinct
      have same : blocks' = blocks.map (List.map (Instr.relabel ρ)) :=
        eq_map_of_forall₂ lines fun block listed block' listed' related =>
          eq_map_of_forall₂ related fun i mem i' mem' =>
            renames i (List.mem_flatten_of_mem listed mem) i' (List.mem_flatten_of_mem listed' mem')
      exact .inr ⟨ρ, blocks, functions, rfl, congrArg Except.ok same⟩

/-- Outcomes that have a common origin are renamed to each other. -/
theorem Renamed.of_common {x y z : Outcome (List (List Instr))} (first : Renamed x y) (second : Renamed x z) :
    Renamed y z := by
  rcases first with ⟨e, rfl, rfl⟩ | ⟨ρ, blocks, functions, rfl, rfl⟩
  · rcases second with ⟨e', isError, rfl⟩ | ⟨_, _, _, isOk, _⟩
    · exact .inl ⟨e, rfl, congrArg _ (Except.error.inj isError).symm⟩
    · cases isOk
  · rcases second with ⟨_, isError, _⟩ | ⟨ρ', blocks', functions', isOk, rfl⟩
    · cases isError
    · obtain rfl := Except.ok.inj isOk
      refine .inr ⟨ρ.symm.trans ρ', _, fun f => ?_, rfl, congrArg Except.ok ?_⟩
      · rw [Equiv.trans_apply, ρ.symm_apply_eq.2 (functions f).symm, functions' f]
      · have again : Instr.relabel (ρ.symm.trans ρ') ∘ Instr.relabel ρ = Instr.relabel ρ' := by
          funext i
          rw [Function.comp_apply, Instr.relabel_relabel]
          congr 1
          funext l
          simp
        rw [List.map_map, List.map_comp_map, again]

/-- What labels carry is a matter of names. In any two modes whose labels carry different ids a contract is
refused for the same reason, or compiles to blocks that one permutation of the labels takes to each other,
where labels are defined and where they are used; the labels of functions stay. -/
theorem blocks_relabelled (mode mode' : LabelMode) (p : Program) (base : Settings)
    (distinct : mode.Distinct (mode.labelCount p base))
    (distinct' : mode'.Distinct (mode'.labelCount p base)) :
    Renamed (mode.blocks p base) (mode'.blocks p base) :=
  (mode.renamed_of_numbered p base distinct).of_common (mode'.renamed_of_numbered p base distinct')

end LabelMode

namespace Sample

/-- With lines the first label of the contract is that of a loop on line 1; three numbers are given out with
random ids. -/
theorem looping_lined : (Contract.read looping settings).Succeeds fun c =>
    (LabelMode.lined.blocks c.program c.settings).Succeeds fun blocks =>
      .label "__loop1_1_continue" ∈ blocks.flatten ∧
        (LabelMode.random (LabelId.scrambled 7)).labelCount c.program c.settings = 3 := by
  decide +kernel

end Sample

/-- The labels of a loop, of its two tests and of a test in a function are renamed from lines to random ids. -/
theorem LabelMode.blocks_relabelled_looping : ∃ (c : Contract) (blocks : List (List Instr))
    (ρ : Equiv.Perm String), Contract.read Sample.looping Sample.settings = .ok c ∧
    lined.blocks c.program c.settings = .ok blocks ∧ .label "__loop1_1_continue" ∈ blocks.flatten ∧
    (random (LabelId.scrambled 7)).Distinct ((random (LabelId.scrambled 7)).labelCount c.program c.settings) ∧
    (∀ f, ρ (functionLabel f) = functionLabel f) ∧
    (random (LabelId.scrambled 7)).blocks c.program c.settings =
      .ok (blocks.map (List.map (Instr.relabel ρ))) := by
  obtain ⟨c, isContract, blocks, compiled, label, count⟩ := Sample.looping_lined
  have distinct : (random (LabelId.scrambled 7)).Distinct
      ((random (LabelId.scrambled 7)).labelCount c.program c.settings) := by
    rw [count]
    intro i j _ below _ below' same
    exact LabelId.scrambled_distinct { enableRandom := true } 7 (by decide : 3 < _) rfl i below j below' same
  rcases blocks_relabelled lined (random (LabelId.scrambled 7)) c.program c.settings trivial distinct with
    ⟨e, refused, -⟩ | ⟨ρ, _, functions, isBlocks, renamed⟩
  · rw [compiled] at refused
    cases refused
  · obtain rfl := Except.ok.inj (compiled.symm.trans isBlocks)
    exact ⟨c, blocks, ρ, isContract, compiled, label, distinct, functions, renamed⟩

end ContractCompiler
