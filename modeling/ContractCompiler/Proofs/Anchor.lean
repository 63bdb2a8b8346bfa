import ContractCompiler.Compile
import ContractCompiler.Proofs.Directive
import ContractCompiler.Proofs.Sentence.Parser
import ContractCompiler.Proofs.Token.Lossless

/-!
# Proofs.Anchor — what the stages before the code report

The tokens of a source stand at its lines, and an identifier has the text of a name. A contract keeps lines
and names of its tokens. So the lexer, the directives, the parser and the layout report lines of the source,
and no defects, and the contract that they give stands inside of its source (`Contract.read_within`).
-/

namespace ContractCompiler

set_option autoImplicit false

/-! ## Tokens -/

/-- The lines of a text, counted from one. -/
def IsLineOf (text : List Char) (line : Nat) : Prop := 1 ≤ line ∧ line ≤ 1 + text.count '\n'

instance (text : List Char) (line : Nat) : Decidable (IsLineOf text line) :=
  inferInstanceAs (Decidable (1 ≤ line ∧ line ≤ 1 + text.count '\n'))

theorem IsLineOf.lineAfter {text before : List Char} (isPrefix : before.Sublist text) :
    IsLineOf text (lineAfter before) := by
  have fewer := isPrefix.count_le '\n'
  exact ⟨Nat.le_add_right 1 _, Nat.add_le_add_left fewer 1⟩

theorem Piece.toToken?_line {line : Nat} {p : Piece} {t : Token} (made : p.toToken? line = some t) :
    t.line = line := by
  cases p with
  | blank _ | lineComment _ | blockComment _ => cases made
  | directive _ | word _ | number _ | punct _ =>
    cases made
    rfl

/-- A token stands at a line of the pieces that it is among. -/
theorem Piece.tokensFrom_line {pieces : List Piece} {line : Nat} :
    ∀ t ∈ tokensFrom line pieces,
      line ≤ t.line ∧ t.line ≤ line + (pieces.flatMap text).count '\n' := by
  induction pieces generalizing line with
  | nil => simp [tokensFrom]
  | cons p rest ih =>
    have later : ∀ t ∈ tokensFrom (line + p.lineEnds) rest,
        line ≤ t.line ∧ t.line ≤ line + ((p :: rest).flatMap text).count '\n' := by
      intro t mem
      obtain ⟨above, below⟩ := ih t mem
      rw [List.flatMap_cons, List.count_append]
      rw [lineEnds] at above below
      omega
    rw [tokensFrom]
    split
    · rename_i t made
      refine List.forall_mem_cons.2 ⟨?_, later⟩
      rw [toToken?_line made]
      omega
    · exact later

theorem Piece.mem_tokensFrom {line : Nat} {pieces : List Piece} {t : Token}
    (mem : t ∈ tokensFrom line pieces) : ∃ p ∈ pieces, ∃ line', p.toToken? line' = some t := by
  induction pieces generalizing line with
  | nil => cases mem
  | cons p rest ih =>
    have later : t ∈ tokensFrom (line + p.lineEnds) rest →
        ∃ p' ∈ p :: rest, ∃ line', p'.toToken? line' = some t := by
      intro mem
      obtain ⟨p', listed, made⟩ := ih mem
      exact ⟨p', List.mem_cons_of_mem _ listed, made⟩
    unfold tokensFrom at mem
    split at mem
    · rename_i first isFirst
      rcases List.mem_cons.1 mem with rfl | mem
      · exact ⟨p, List.mem_cons_self, line, isFirst⟩
      · exact later mem
    · exact later mem

theorem tokenize_within {strict : Prop} (source : String) :
    Outcome.Within (IsLineOf source.toList) strict (tokenize source) fun tokens =>
      ∀ t ∈ tokens, IsLineOf source.toList t.line := by
  have whole := (Cut.ofTextAux_fits source.toList.length source.toList).1
  unfold tokenize
  dsimp only
  split
  · rename_i noRest
    refine .ok fun t mem => ?_
    rw [Cut.ofText] at noRest
    rw [noRest, List.append_nil] at whole
    have stands := Piece.tokensFrom_line t mem
    rwa [Cut.ofText, whole] at stands
  · split
    · exact .error (.lineAfter (.refl _)) rfl
    · exact .error (.lineAfter (List.take_sublist _ _)) rfl

/-- A token that is no directive has a text of its kind; that of a directive has no line end. -/
theorem tokenize_lexical (source : String) : Outcome.Ensures (tokenize source) fun tokens =>
    ∀ t ∈ tokens, (t.kind ≠ .directive → t.kind.Lexical t.text.toList) ∧
      (t.kind = .directive → '\n' ∉ t.text.toList) := by
  unfold tokenize
  dsimp only
  split
  · refine .ok fun t mem => ?_
    obtain ⟨p, isPiece, line, made⟩ := Piece.mem_tokensFrom mem
    obtain ⟨before, after, split⟩ := List.append_of_mem isPiece
    have fits := (Cut.ofTextAux_fits _ _).2 before p after split
    exact ⟨fits.lexical made, (fits.spells made).2.1.oneLine⟩
  · split <;> exact .error

/-! ## Layout -/

variable {inside : Nat → Prop} {named : String → Prop} {strict : Prop}

namespace SlotTable

variable (t : SlotTable)

theorem checkName_within {line : Nat} (atLine : inside line) (name asmName : String) :
    Outcome.Within inside strict (t.checkName name asmName line) fun _ => True := by
  unfold checkName
  split
  · exact .error atLine rfl
  · split
    · exact .error atLine rfl
    · exact .ok trivial

section Declarator

variable {d : Declarator} (atLine : inside d.line)
include atLine

theorem slotShape_within (type : TypeName) : Outcome.Within inside strict (t.slotShape type d) fun _ => True := by
  unfold slotShape
  split
  · exact .error atLine rfl
  · exact .ok trivial
  · exact .ok trivial
  · exact .ok trivial
  · split
    · exact .error atLine rfl
    · exact .ok trivial
  · split
    · exact .error atLine rfl
    · split
      · exact .ok trivial
      · exact .ok trivial
  · exact .error atLine rfl

theorem slotFor_within (type : TypeName) (scope : String) :
    Outcome.Within inside strict (t.slotFor type d scope) fun _ => True := by
  unfold slotFor
  refine .guard atLine rfl fun _ => .guard atLine rfl fun _ =>
    .bind ((t.checkName_within atLine _ _).mono fun _ _ => ?_)
  exact .bind ((t.slotShape_within atLine type).mono fun _ _ => .ok trivial)

theorem pushParts_within (scope : String) (parts : List (String × ValueType)) :
    Outcome.Within inside strict (pushParts d scope parts t) fun _ => True := by
  induction parts generalizing t with
  | nil => exact .ok trivial
  | cons part parts ih => exact .bind ((t.checkName_within atLine _ _).mono fun _ _ => ih _)

theorem declareVariable_within (type : TypeName) (scope : String) :
    Outcome.Within inside strict (t.declareVariable type scope d) fun _ => True := by
  unfold declareVariable
  refine .guard atLine rfl fun _ => .bind ((t.slotFor_within atLine type scope).mono fun _ _ => ?_)
  exact pushParts_within _ atLine scope _

end Declarator

theorem declareAll_within (scope : String) {ds : List Declaration} (within : ∀ d ∈ ds, d.Within inside named) :
    Outcome.Within inside strict (t.declareAll scope ds) fun _ => True :=
  .foldlM (fun t d mem => .foldlM (fun t v listed =>
    t.declareVariable_within (within d mem v listed).line d.type scope) t) t

theorem declareStruct_within {s : StructDef} (within : s.Within inside named) :
    Outcome.Within inside strict (t.declareStruct s) fun _ => True := by
  have members : Outcome.Within inside strict (membersOf s.members) fun _ => True := by
    refine .foldlM (fun members d listed => ?_) []
    have atLine := (within.members d listed).line
    split
    · exact .error atLine rfl
    · split
      · exact .error atLine rfl
      · exact .ok trivial
  refine .bind (members.mono fun _ _ => ?_)
  split
  · exact .ok trivial
  · exact .error within.line rfl

theorem declareParam_within (function : String) {p : Param} (atLine : inside p.line) :
    Outcome.Within inside strict (t.declareParam function p) fun _ => True := by
  have declares : Outcome.Within inside strict
      (t.slotFor p.type ⟨p.name, p.pointer, none, none, p.line⟩ function >>= fun s =>
        (.ok (t.push s, s.asmName) : Outcome (SlotTable × String))) fun _ => True :=
    .bind ((t.slotFor_within atLine p.type function).mono fun _ _ => .ok trivial)
  unfold declareParam
  dsimp only
  split
  · exact .bind (.error atLine rfl)
  · exact .bind (.error atLine rfl)
  · exact declares

theorem declareParams_within (function : String) {ps : List Param} (stand : ∀ p ∈ ps, inside p.line) :
    Outcome.Within inside strict (t.declareParams function ps) fun _ => True := by
  induction ps generalizing t with
  | nil => exact .ok trivial
  | cons p ps ih =>
    obtain ⟨atLine, stand⟩ := List.forall_mem_cons.1 stand
    exact .bind ((t.declareParam_within function atLine).mono fun _ _ =>
      .bind ((ih _ stand).mono fun _ _ => .ok trivial))

end SlotTable

namespace Layout

theorem declareFunction_within (l : Layout) {f : FunctionDef} (within : f.Within inside named) :
    Outcome.Within inside strict (l.declareFunction f) fun _ => True := by
  have returns : Outcome.Within inside strict f.returnType fun _ => True := by
    unfold FunctionDef.returnType
    split
    case h_4 => exact .error within.line rfl
    all_goals exact .ok trivial
  unfold declareFunction
  refine .guard within.line rfl fun _ => .guard within.line rfl fun _ => ?_
  refine .bind ((l.table.declareParams_within f.name fun x mem => (within.params x mem).1).mono fun _ _ => ?_)
  refine .bind ((SlotTable.declareAll_within _ f.name within.body.declarations).mono fun _ _ => ?_)
  exact .bind (returns.mono fun _ _ => .ok trivial)

theorem ofProgram_within {p : Program} (within : p.Within inside named) (settings : Settings) :
    Outcome.Within inside strict (Layout.ofProgram p settings) fun _ => True := by
  refine .bind ((Outcome.Within.foldlM (fun t s mem => ?_) _).mono fun _ _ => ?_)
  · exact t.declareStruct_within (within.structs s mem)
  · refine .bind ((SlotTable.declareAll_within _ _ within.globals.declarations).mono fun _ _ => ?_)
    exact .foldlM (fun l f mem => l.declareFunction_within (within.functions f mem)) _

end Layout

theorem Contract.read_within (named : String → Prop) {source : String} (settings : Settings)
    (lexed : Outcome.Within inside strict (tokenize source) fun tokens =>
      ∀ t ∈ tokens, inside t.line ∧ (t.isIdentifier = true → named t.text)) :
    Outcome.Within inside strict (Contract.read source settings) fun c =>
      c.program.Within inside named ∧ c.layout.table.Laid :=
  .bind (lexed.mono fun _ stand => .bind ((Directive.split_within settings fun t mem => (stand t mem).1).mono
    fun found kept => .bind ((Program.ofTokens_within fun t mem => stand t (kept t mem)).mono fun p within =>
      .bind (((Layout.ofProgram_within within found.1).and (Layout.ofProgram_laid p found.1)).mono
        fun _ laid => .ok ⟨within, laid.2⟩))))

/-- The names of a contract are texts of identifiers. -/
theorem Contract.read_names (source : String) (settings : Settings) :
    Outcome.Ensures (Contract.read source settings) fun c =>
      c.program.Within (fun _ => True) fun name => TokenKind.identifier.Lexical name.toList := by
  refine (Contract.read_within _ settings (.of_ensures ((tokenize_lexical source).mono
    fun tokens lexical t mem => ⟨trivial, ?_⟩)) : Outcome.Within (fun _ => True) False _ _).ensures.mono
      fun c read => read.1
  intro isIdentifier
  have kind : t.kind = .identifier := by simpa [Token.isIdentifier] using isIdentifier
  exact kind ▸ (lexical t mem).1 (by simp [kind])

end ContractCompiler
