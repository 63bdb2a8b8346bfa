import ContractCompiler.Compile
import ContractCompiler.Proofs.Assembly
import ContractCompiler.Proofs.Variation.Sentence

/-!
# Proofs.Uncommented — comments in the code of a contract

Compiled without comments, a contract gives the same code up to the end of each function
(`Pairing.blocks_agree`). But a comment may stand behind the last return of a function, if what follows the
return makes no code, and then another return is added that is not there without comments
(`Program.blocks_uncommented`).
-/

namespace ContractCompiler

set_option autoImplicit false

/-! ## The end of a function -/

namespace Instr

/-- There are comments behind the return that the code ends with. -/
def HidesReturn (code : List Instr) : Prop :=
  ∃ start comments, code = start ++ .ret :: comments ∧ comments ≠ [] ∧ ∀ i ∈ comments, i.isComment = true

/-- The last line that is not a comment. -/
theorem getLast?_uncommented {code : List Instr} {i : Instr} : (uncommented code).getLast? = some i ↔
    i.isComment = false ∧ ∃ start comments, code = start ++ i :: comments ∧
      ∀ c ∈ comments, c.isComment = true := by
  rw [uncommented, ← List.head?_reverse, ← List.filter_reverse, List.head?_filter,
    List.find?_eq_some_iff_append]
  simp only [Bool.not_not, Bool.not_eq_true']
  refine and_congr_right fun _ => ⟨?_, ?_⟩
  · rintro ⟨comments, start, split, areComments⟩
    refine ⟨start.reverse, comments.reverse, ?_, fun c mem => areComments c (List.mem_reverse.1 mem)⟩
    rw [← code.reverse_reverse, split]
    simp
  · rintro ⟨start, comments, rfl, areComments⟩
    exact ⟨comments.reverse, start.reverse, by simp, fun c mem => areComments c (List.mem_reverse.1 mem)⟩

theorem hidesReturn_iff {code : List Instr} :
    HidesReturn code ↔ code.getLast? ≠ some .ret ∧ (uncommented code).getLast? = some .ret := by
  rw [getLast?_uncommented]
  constructor
  · rintro ⟨start, comments, rfl, nonempty, areComments⟩
    refine ⟨fun isLast => ?_, rfl, start, comments, rfl, areComments⟩
    rw [List.getLast?_append_cons, List.getLast?_cons_of_ne_nil nonempty] at isLast
    cases areComments .ret (List.mem_of_getLast? isLast)
  · rintro ⟨notLast, -, start, comments, rfl, areComments⟩
    refine ⟨start, comments, rfl, ?_, areComments⟩
    rintro rfl
    simp at notLast

instance (code : List Instr) : Decidable (HidesReturn code) := decidable_of_iff _ hidesReturn_iff.symm

/-- A hidden return is the only reason why it matters when comments are left out. -/
theorem uncommented_closed (code : List Instr) : uncommented (closed code) =
    closed (uncommented code) ++ if HidesReturn code then [.ret] else [] := by
  simp only [closed, hidesReturn_iff]
  by_cases last : code.getLast? = some .ret
  · have last' : (uncommented code).getLast? = some .ret := by
      obtain ⟨start, rfl⟩ := List.getLast?_eq_some_iff.1 last
      rw [uncommented_append]
      exact List.getLast?_concat
    simp [last, last']
  · have stays : uncommented [.ret] = [.ret] := rfl
    by_cases last' : (uncommented code).getLast? = some .ret
    · simp [last, last', stays]
    · simp [last, last', stays]

theorem map_uncommented_closed {bodies : List (List Instr)} :
    (bodies.map closed).map uncommented = bodies.map (fun body => closed (uncommented body)) ↔
      ∀ body ∈ bodies, ¬ HidesReturn body := by
  rw [List.map_map, List.map_inj_left]
  refine forall₂_congr fun body _ => ?_
  rw [Function.comp_apply, uncommented_closed]
  split <;> simp_all

end Instr

namespace Pairing

/-- The second compilation has no comments, and is the same otherwise. -/
def uncommenting (settings : Settings) : Pairing := ⟨⟨settings.maxAuxVars, 0, Eq⟩, true, False⟩

variable {settings : Settings} {code code' : List Instr}

theorem Code.eq_uncommented (related : (uncommenting settings).Code code code') :
    Instr.uncommented code = code' :=
  Variation.Lines.eq (fun _ _ same => same) related.lines

theorem Closed.eq_uncommented {blocks blocks' : List (List Instr)}
    (closed : List.Forall₂ (uncommenting settings).Closed blocks blocks') :
    ∃ bodies : List (List Instr), blocks = bodies.map Instr.closed ∧
      blocks' = bodies.map fun body => Instr.closed (Instr.uncommented body) := by
  induction closed with
  | nil => exact ⟨[], rfl, rfl⟩
  | cons first _ ih =>
    obtain ⟨body, body', rfl, rfl, related⟩ := first
    obtain ⟨bodies, rfl, rfl⟩ := ih
    exact ⟨body :: bodies, rfl, by rw [List.map_cons, related.eq_uncommented]⟩

end Pairing

namespace Program

/-- Comments change the code of a contract only by returns that they hide. The contract is refused for the
same reason with comments and without them, or it is compiled both ways. Then the blocks differ by the
comments, and by one more return in each function whose body ends with a return and comments behind it. -/
theorem blocks_uncommented (p : Program) (settings : Settings) (randomId : Nat → String) :
    (∃ e, p.blocks { settings with outputSourceLineNumber := true } randomId = .error e ∧
      p.blocks { settings with outputSourceLineNumber := false } randomId = .error e) ∨
    ∃ first, ∃ bodies : List (List Instr),
      p.blocks { settings with outputSourceLineNumber := true } randomId =
        .ok (first :: bodies.map Instr.closed) ∧
      p.blocks { settings with outputSourceLineNumber := false } randomId =
        .ok (Instr.uncommented first :: bodies.map fun body => Instr.closed (Instr.uncommented body)) ∧
      (∀ body ∈ bodies, Instr.uncommented (Instr.closed body) =
        Instr.closed (Instr.uncommented body) ++ if Instr.HidesReturn body then [.ret] else []) ∧
      ((p.blocks { settings with outputSourceLineNumber := true } randomId).map (List.map Instr.uncommented) =
        p.blocks { settings with outputSourceLineNumber := false } randomId ↔
        ∀ body ∈ bodies, ¬ Instr.HidesReturn body) := by
  have layout_eq : Layout.ofProgram p { settings with outputSourceLineNumber := true } =
      Layout.ofProgram p { settings with outputSourceLineNumber := false } := rfl
  cases isLayout : Layout.ofProgram p { settings with outputSourceLineNumber := false } with
  | error e => exact .inl ⟨e, blocks_of_refusal (layout_eq.trans isLayout) _, blocks_of_refusal isLayout _⟩
  | ok l =>
    rw [blocks_of_layout (layout_eq.trans isLayout), blocks_of_layout isLayout]
    let v := Pairing.uncommenting settings
    have layouts : v.Outcomes v.Layouts (Layout.ofProgram p { settings with outputSourceLineNumber := true })
        (Layout.ofProgram p { settings with outputSourceLineNumber := false }) :=
      Variation.Layouts.ofProgram p rfl rfl
    rw [layout_eq, isLayout] at layouts
    obtain ⟨_, ⟨⟩, layouts⟩ := layouts
    have contexts : v.Contexts
        ⟨{ settings with outputSourceLineNumber := true }, l.functions, randomId, none, none, false⟩
        ⟨{ settings with outputSourceLineNumber := false }, l.functions, randomId, none, none, false⟩ :=
      ⟨rfl, rfl, rfl, rfl, rfl, .none, rfl, fun _ _ => rfl⟩
    have related := Pairing.blocks_agree (p := p) id (.inl rfl) _ _ (.ofLayout l) (.ofLayout l) contexts
      ⟨layouts.tables, .inl rfl, layouts.tables.pools, rfl, rfl, rfl⟩
    cases ends : Codegen.blocks p
        ⟨{ settings with outputSourceLineNumber := true }, l.functions, randomId, none, none, false⟩
        (.ofLayout l) with
    | failed e s =>
      rw [ends] at related
      obtain ⟨s', ends'⟩ := related rfl
      rw [ends']
      exact .inl ⟨e, rfl, rfl⟩
    | done blocks code s =>
      rw [ends] at related
      obtain ⟨blocks', _, s', ends', ⟨first, first', others, others', rfl, rfl, lines, closed⟩, -⟩ := related
      obtain rfl := lines.eq_uncommented
      obtain ⟨bodies, rfl, rfl⟩ := Pairing.Closed.eq_uncommented closed
      rw [ends']
      refine .inr ⟨first, bodies, rfl, rfl, fun body _ => Instr.uncommented_closed body, ?_⟩
      refine Iff.trans ⟨fun same => ?_, fun same => ?_⟩ Instr.map_uncommented_closed
      · exact (List.cons.inj (Except.ok.inj same)).2
      · exact congrArg (Except.ok ∘ (Instr.uncommented first :: ·)) same

-- Nothing is made of the phrase behind the return but a comment, and so the function returns twice.
example : ((Contract.read "long x;\nvoid f(void) \x7b\nreturn;\nx;\n\x7d\nvoid main(void) \x7b f(); \x7d" {}).bind
      fun c => c.program.blocks { c.settings with outputSourceLineNumber := true } toString).toOption =
    some [[.label "__fn_main", .resetStart, .comment "line 6", .call "__fn_f", .finish],
      [.label "__fn_f", .comment "line 3", .ret, .comment "line 4", .ret]] := by decide +kernel

end Program

end ContractCompiler
