import ContractCompiler.Proofs.Directive
import ContractCompiler.Proofs.LabelMode
import ContractCompiler.Proofs.Line

/-!
# Proofs.Listing — the text of a contract is unambiguous

The names in the lines of a compiled contract come from its identifiers and from numbers, and no text in
them goes over the end of a line (`Contract.lines_clear`). So the text can be cut into its lines, and each
line can be read back: it is the text of one program only (`compile_unambiguous`).
-/

namespace ContractCompiler

set_option autoImplicit false

open Instr (ofLine)

/-! ## Lines of a text -/

/-- The lines of a text that are not empty. -/
def Text.lines (text : String) : List (List Char) := (text.toList.splitOn '\n').filter (!·.isEmpty)

/-- Texts without line ends, each on a line of its own, are the lines of the whole. -/
theorem Text.lines_intercalate {texts : List String} (oneLine : ∀ text ∈ texts, '\n' ∉ text.toList) :
    Text.lines (String.intercalate "\n" texts) = (texts.filter (· != "")).map String.toList := by
  cases texts with
  | nil => rfl
  | cons first rest =>
    have split : (String.intercalate "\n" (first :: rest)).toList.splitOn '\n' =
        (first :: rest).map String.toList := by
      rw [String.toList_intercalate]
      exact List.splitOn_intercalate '\n' (by simpa using oneLine) (by simp)
    rw [Text.lines, split, List.filter_map]
    congr 1
    refine List.filter_congr fun text _ => ?_
    cases isEmpty : text != "" <;> simp_all

namespace Instr

theorem render_ne_empty (i : Instr) : i.render ≠ "" := by
  cases i <;> simp [render]

/-- The lines of code, each on a line of its own. -/
def text (code : List Instr) : String := String.intercalate "\n" (code.map render)

variable {code code' : List Instr} (clear : ∀ i ∈ code, i.isClear = true)
include clear

theorem lines_text : Text.lines (text code) = code.map (·.render.toList) := by
  have oneLine : ∀ line ∈ code.map render, '\n' ∉ line.toList := by
    simpa using fun i mem => (read_render (clear i mem)).2
  have filled : ∀ line ∈ code.map render, line != "" := by simp [render_ne_empty]
  rw [text, Text.lines_intercalate oneLine, List.filter_eq_self.2 filled, List.map_map]
  rfl

/-- The lines tell the code. -/
theorem eq_of_lines (clear' : ∀ i ∈ code', i.isClear = true)
    (same : code.map (·.render.toList) = code'.map (·.render.toList)) : code = code' := by
  have read : ∀ {code : List Instr}, (∀ i ∈ code, i.isClear = true) →
      (code.map (·.render.toList)).map ofLine = code := by
    intro code clear
    rw [List.map_map]
    exact (List.map_congr_left fun i mem => (read_render (clear i mem)).1).trans (List.map_id _)
  rw [← read clear, same, read clear']

end Instr

theorem Assembly.lines_render {a : Assembly} (clear : ∀ i ∈ a.lines, i.isClear = true) :
    Text.lines a.render = a.lines.map (·.render.toList) := by
  have filled : ∀ block : List Instr, (block.map Instr.render).filter (· != "") = block.map Instr.render :=
    fun block => List.filter_eq_self.2 (by simp [Instr.render_ne_empty])
  have oneLine : ∀ i ∈ a.lines, '\n' ∉ i.render.toList := fun i mem => (Instr.read_render (clear i mem)).2
  simp only [lines, List.forall_mem_append] at oneLine
  rw [render, Text.lines_intercalate, List.filter_append, List.filter_append, filled, List.filter_flatMap]
  · simp [filled, lines, List.map_flatMap]
    rfl
  · simp only [List.mem_append, List.mem_map, List.mem_flatMap, List.mem_cons, List.not_mem_nil, or_false]
    rintro _ ((⟨i, mem, rfl⟩ | ⟨block, listed, rfl | ⟨i, mem, rfl⟩⟩) | rfl)
    · exact oneLine.1 i mem
    · simp
    · exact oneLine.2 i (List.mem_flatten_of_mem listed mem)
    · simp

/-! ## Facts -/

def Settings.texts (s : Settings) : List String :=
  s.name.toList ++ s.description.toList ++ s.activationAmount.toList

theorem Text.trim_sublist (cs : List Char) : (trim cs).Sublist cs := by
  have front := List.dropWhile_sublist isBlank (l := cs)
  have back := (List.dropWhile_sublist isBlank (l := (cs.dropWhile isBlank).reverse)).reverse
  rw [List.reverse_reverse] at back
  exact back.trans front

theorem Text.firstWord_sublist (cs : List Char) : (firstWord cs).2.Sublist cs :=
  (trim_sublist _).trans (List.dropWhile_sublist _)

namespace Directive

/-- The value of a directive is a part of its text. -/
theorem ofToken_value (t : Token) : (ofToken t).value.toList.Sublist t.text.toList := by
  simp only [ofToken, String.toList_ofList]
  exact (Text.firstWord_sublist _).trans ((Text.firstWord_sublist _).trans (Text.trim_sublist _))

theorem Changes.texts {d : Directive} {s s' : Settings} (changes : d.Changes s s')
    (value : '\n' ∉ d.value.toList) (oneLine : ∀ text ∈ s.texts, '\n' ∉ text.toList) :
    ∀ text ∈ s'.texts, '\n' ∉ text.toList := by
  simp only [Settings.texts, List.forall_mem_append] at oneLine ⊢
  obtain ⟨⟨name, description⟩, amount⟩ := oneLine
  cases changes with
  | registers _ | constants _ | switches _ _ _ _ | pages _ => exact ⟨⟨name, description⟩, amount⟩
  | name _ => exact ⟨⟨List.forall_mem_singleton.2 value, description⟩, amount⟩
  | description _ => exact ⟨⟨name, List.forall_mem_singleton.2 value⟩, amount⟩
  | amount normal =>
    refine ⟨⟨name, description⟩, List.forall_mem_singleton.2 fun mem => ?_⟩
    cases (Settings.normalAmount?_eq_some normal).2.1 _ mem

end Directive

/-- No directive brings a line end into the settings. -/
theorem Contract.texts_of_read {source : String} {settings : Settings} {c : Contract}
    (isContract : Contract.read source settings = .ok c) (oneLine : ∀ text ∈ settings.texts, '\n' ∉ text.toList) :
    ∀ text ∈ c.settings.texts, '\n' ∉ text.toList := by
  obtain ⟨⟨tokens, rest, lexed, isSplit⟩, -⟩ := Contract.stages_of_read isContract
  have applied : (Directive.applyAll tokens settings).1 = c.settings := by
    rw [(Directive.split_eq_ok.1 isSplit).1]
  rw [← applied]
  refine Directive.applyAll_keeps (P := fun s => ∀ text ∈ s.texts, '\n' ∉ text.toList)
    (fun d listed s s' changes => changes.texts fun mem => ?_) oneLine
  obtain ⟨t, isToken, rfl⟩ := List.mem_map.1 listed
  obtain ⟨isToken, isDirective⟩ := List.mem_filter.1 isToken
  exact (tokenize_lexical source tokens lexed t isToken).2 (by simpa using isDirective)
    ((Directive.ofToken_value t).mem mem)

theorem Assembly.isClear_of_mem_facts {s : Settings} (oneLine : ∀ text ∈ s.texts, '\n' ∉ text.toList) {i : Instr}
    (isFact : i ∈ facts s) : i.isClear = true := by
  have fact : ∀ {key value : String}, key.toList.all (!Text.isBlank ·) = true → '\n' ∉ value.toList →
      (Instr.program key value).isClear = true := by
    intro key value isKey oneLine
    simpa [Instr.isClear, Instr.names, Instr.operands, Instr.declared?, Instr.labels, Instr.target?,
      Instr.callee?, Instr.digits?, Instr.hasTexts, oneLine] using isKey
  have number : ∀ {n : Nat} {text : String}, pages n = some text → '\n' ∉ text.toList := by
    intro n text isNumber mem
    obtain ⟨-, rfl⟩ := by simpa [pages] using isNumber
    cases Numeral.isDigit_of_mem_toString mem
  simp only [Settings.texts, List.forall_mem_append, Option.mem_toList] at oneLine
  obtain ⟨⟨key, value⟩, listed, isLine⟩ := List.mem_filterMap.1 isFact
  obtain ⟨text, isText, rfl⟩ := Option.map_eq_some_iff.1 isLine
  simp only [List.mem_cons, Prod.mk.injEq, List.not_mem_nil, or_false] at listed
  rcases listed with ⟨rfl, rfl⟩ | ⟨rfl, rfl⟩ | ⟨rfl, rfl⟩ | ⟨rfl, rfl⟩ | ⟨rfl, rfl⟩
  · exact fact (by decide) (oneLine.1.1 text isText)
  · exact fact (by decide) (oneLine.1.2 text isText)
  · exact fact (by decide) (oneLine.2 text isText)
  · exact fact (by decide) (number isText)
  · exact fact (by decide) (number isText)

/-! ## Compiled contracts -/

/-- A line that is legible is clear if its names may stand in a line. -/
theorem Instr.isClear_of_isLegible {i : Instr} (legible : i.isLegible = true)
    (named : ∀ name ∈ i.names, Text.isName name = true) : i.isClear = true := by
  have digits : i.digits?.all (·.toList.all Piece.isHexDigit) = true := by
    cases said : i.digits? with
    | none => rfl
    | some hex =>
      obtain ⟨w, written⟩ := written_of_isLegible legible said
      exact List.all_eq_true.2 written.digits
  have texts : i.hasTexts = true := by
    cases i <;> first | rfl | exact legible
  simp only [isClear, digits, texts, List.all_eq_true.2 named, Bool.and_self]

section Compiled

variable {source : String} {settings : Settings} {randomId : Nat → String} {c : Contract} {a : Assembly}
  (isContract : Contract.read source settings = .ok c)
  (assembled : Assembly.ofProgram c.program c.layout c.settings randomId = .ok a)
include isContract assembled

/-- The names of labels, functions and operations of the host in the code. -/
theorem Contract.isName_of_code (ids : ∀ n, Text.isName (randomId n) = true) :
    (∀ l, .label l ∈ a.blocks.flatten → Text.isName l = true) ∧ JumpsInside a.blocks.flatten ∧
      ∀ callee ∈ Instr.callees a.blocks.flatten, Text.isName callee.name = true := by
  obtain ⟨blocks, code, s, compiled, rfl⟩ := Assembly.ofProgram_eq_ok assembled
  have isLayout := Contract.layout_of_read isContract
  have functions : ∀ name ∈ c.program.functions.map (·.name), Text.isName name = true := by
    intro name mem
    obtain ⟨f, defined, rfl⟩ := List.mem_map.1 mem
    exact ((Contract.read_names source settings c isContract).functions f defined).name.isName
  obtain ⟨jumps, names, -, known, inner, numbered, labels⟩ :=
    LabelMode.blocks_labelled isLayout compiled
  refine ⟨fun l isLabel => ?_, jumps, fun callee mem => ?_⟩
  · rcases List.mem_append.1 (labels.mem_iff.1 (Instr.mem_labels.2 isLabel)) with mem | mem
    · obtain ⟨name, listed, rfl⟩ := List.mem_map.1 mem
      exact Codegen.isName_functionLabel (functions name (known listed))
    · obtain ⟨ordinal, line, mark, -, -, rfl⟩ := numbered.numbers l mem
      exact mark.isName_text (LabelId.isName_ofSettings c.settings ids line ordinal)
  · have isKnown := Codegen.blocks_callees compiled callee mem
    cases callee with
    | function label =>
      obtain ⟨f, isFunction, rfl⟩ := isKnown
      have names := (Layout.ofProgram_names c.program c.settings c.layout isLayout).1
      exact Codegen.isName_functionLabel (functions f.name (names ▸ List.mem_map_of_mem isFunction))
    | host name =>
      obtain ⟨operation, listed, rfl⟩ := isKnown
      have catalogue : ∀ operation ∈ HostCall.catalogue, Text.isName operation.asmName = true := by decide
      exact catalogue operation listed

/-- Every line of a compiled contract is clear. -/
theorem Contract.lines_clear (oneLine : ∀ text ∈ settings.texts, '\n' ∉ text.toList)
    (ids : ∀ n, Text.isName (randomId n) = true) : ∀ i ∈ a.lines, i.isClear = true := by
  intro i isLine
  rcases Contract.lines_legible isContract assembled i isLine with isFact | legible
  · exact Assembly.isClear_of_mem_facts (Contract.texts_of_read isContract oneLine) isFact
  refine Instr.isClear_of_isLegible legible ?_
  obtain ⟨labels, jumps, callees⟩ := Contract.isName_of_code isContract assembled ids
  obtain ⟨-, blocks, code, s, -, rfl, refers⟩ := Contract.refers isContract assembled
  have cells := refers.derives.allNamed (Layout.ofProgram_allNamed
    (Contract.read_names source settings c isContract) c.settings c.layout (Contract.layout_of_read isContract))
  rcases List.mem_append.1 isLine with inHeader | inCode
  · rcases List.mem_append.1 inHeader with isFact | declared
    · obtain ⟨key, value, rfl⟩ := Assembly.eq_of_mem_facts isFact
      exact List.forall_mem_nil _
    · obtain ⟨e, stored, isLine⟩ := List.mem_flatMap.1 declared
      rcases Assembly.eq_of_mem_declaration isLine with rfl | ⟨hex, rfl, -⟩ <;>
        exact List.forall_mem_singleton.2 (cells e stored)
  · simp only [Instr.names, List.forall_mem_append, Option.mem_toList]
    refine ⟨⟨⟨⟨fun name isOperand => ?_, fun name isDeclared => ?_⟩, fun name isLabel => ?_⟩,
      fun name isTarget => ?_⟩, fun name isCallee => ?_⟩
    · obtain ⟨e, stored, -, rfl⟩ := refers.operands i inCode name isOperand
      exact cells e stored
    · cases (List.filterMap_eq_nil_iff.1 refers.declares i inCode).symm.trans isDeclared
    · obtain rfl := List.mem_singleton.1 (Instr.mem_labels.1 isLabel)
      exact labels name inCode
    · exact labels name (jumps i inCode name isTarget)
    · obtain ⟨callee, called, rfl⟩ := List.mem_map.1 isCallee
      exact callees callee (List.mem_filterMap.2 ⟨i, inCode, Option.mem_toList.1 called⟩)

end Compiled

/-- The text of clear lines, each on a line of its own, tells the lines. Without its empty lines, the text of a
compiled contract is of this form: its lines are those of the finished program, which are clear, and those of
no other clear code. -/
theorem compile_unambiguous :
    (∀ code code' : List Instr, (∀ i ∈ code, i.isClear = true) → (∀ i ∈ code', i.isClear = true) →
      Instr.text code = Instr.text code' → code = code') ∧
    ∀ (source : String) (settings : Settings) (randomId : Nat → String) (text : String),
      (∀ text ∈ settings.texts, '\n' ∉ text.toList) → (∀ n, Text.isName (randomId n) = true) →
      compile source settings randomId = .ok text →
      ∃ (c : Contract) (a : Assembly), Contract.read source settings = .ok c ∧
        Assembly.ofProgram c.program c.layout c.settings randomId = .ok a ∧ text = a.render ∧
        (∀ i ∈ a.lines, i.isClear = true) ∧ Text.lines text = a.lines.map (·.render.toList) ∧
        ∀ code : List Instr, (∀ i ∈ code, i.isClear = true) →
          Text.lines text = code.map (·.render.toList) → code = a.lines := by
  refine ⟨fun code code' clear clear' same => ?_, fun source settings randomId text oneLine ids compiled => ?_⟩
  · refine Instr.eq_of_lines clear clear' ?_
    rw [← Instr.lines_text clear, same, Instr.lines_text clear']
  · obtain ⟨c, a, isContract, assembled, rfl⟩ := compile_eq_ok compiled
    have clear := Contract.lines_clear isContract assembled oneLine ids
    have lines := Assembly.lines_render clear
    exact ⟨c, a, isContract, assembled, rfl, clear, lines, fun code clear' same =>
      Instr.eq_of_lines clear' clear (same.symm.trans lines)⟩

namespace Sample

/-- A directive that goes over two lines, and lines that begin with the same word. -/
def described : String :=
  "#program description two \\\nlines\n#pragma enableRandom true\n" ++
    "long a[2], n; void main(void) \x7b a[n] = 5; if (n) n = a[1]; Set_A1(n); \x7d"

/-- The contract is compiled, and its description is one line. -/
theorem described_lines : (Contract.read described {}).Succeeds fun c =>
    (Assembly.ofProgram c.program c.layout c.settings (LabelId.scrambled 0)).Succeeds fun a =>
      .program "description" "two lines" ∈ a.lines := by
  decide +kernel

end Sample

/-- The description is one line of the text. A load is told from a copy. -/
theorem compile_unambiguous_described : (∃ (c : Contract) (a : Assembly),
      Contract.read Sample.described {} = .ok c ∧ compile Sample.described = .ok a.render ∧
      .program "description" "two lines" ∈ a.lines ∧ Text.lines a.render = a.lines.map (·.render.toList)) ∧
    ∀ code, (∀ i ∈ code, i.isClear = true) → Instr.text code = "SET @a $($b)\nSET @a $b" →
      code = [.load "a" "b" none, .set "a" "b"] := by
  refine ⟨?_, fun code clear same => ?_⟩
  · obtain ⟨c, isContract, a, assembled, described⟩ := Sample.described_lines
    have compiled : compile Sample.described = .ok a.render := by
      simp [compile, isContract, assembled, bind, Except.bind, pure, Except.pure]
    obtain ⟨c', a', isContract', assembled', -, -, lines, -⟩ := compile_unambiguous.2 Sample.described {}
      (LabelId.scrambled 0) a.render (by simp [Settings.texts]) (LabelId.isName_scrambled 0) compiled
    obtain rfl := Except.ok.inj (isContract.symm.trans isContract')
    obtain rfl := Except.ok.inj (assembled.symm.trans assembled')
    exact ⟨c, a, isContract, compiled, described, lines⟩
  · exact compile_unambiguous.1 code [.load "a" "b" none, .set "a" "b"] clear (by decide) same

end ContractCompiler
