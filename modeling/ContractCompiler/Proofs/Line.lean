import ContractCompiler.Proofs.Literal

/-!
# Proofs.Line — lines are read back

A line begins with a word that says what it does, or it is a label. The other words are names with marks,
and the marks tell the forms of a line apart that begin alike. So a line can be read back
(`Instr.read_render`) if it is clear: its names have no white space and no marks, and its texts do not go
over the end of the line (`Instr.isClear`).
-/

namespace ContractCompiler

set_option autoImplicit false

/-- The label of the function, or the name of the operation of the host. -/
def Callee.name : Callee → String
  | function label => label
  | host operation => operation

namespace Instr

/-! ## Clear lines -/

/-- The names in a line: of cells, labels, functions and operations of the host. -/
def names (i : Instr) : List String :=
  i.operands ++ i.declared?.toList ++ labels [i] ++ i.target?.toList ++ i.callee?.toList.map Callee.name

/-- The names may stand in a line, what is said in digits has only digits, and the texts fit. -/
def isClear (i : Instr) : Bool :=
  i.names.all Text.isName && i.digits?.all (·.toList.all Piece.isHexDigit) && i.hasTexts

/-! ## Reading a line -/

/-- The marks of a word, and what else is in it. -/
def ofWord (word : List Char) : String × String :=
  (String.ofList (word.filter (!Text.isUnmarked ·)), String.ofList (word.filter Text.isUnmarked))

/-- The call of the host with these words. -/
def ofCall : List (String × String) → Instr
  | ("@", dest) :: (_, name) :: args => host (some dest) name (args.map Prod.snd)
  | (_, name) :: args => host none name (args.map Prod.snd)
  | [] => ret

/-- The line that begins with a mnemonic and goes on with these words. What is no line is read as some. -/
def ofWords : String → List (String × String) → Instr
  | "^declare", [(_, name)] => declare name
  | "^const", [_, (_, dest), (_, hex)] => constSet dest hex
  | "SET", [("@", dest), ("#", hex)] => setLiteral dest hex
  | "SET", [("@", dest), ("$", src)] => set dest src
  | "SET", [("@", dest), ("$($)", base)] => load dest base none
  | "SET", [("@", dest), ("$($", base), _, (_, offset)] => load dest base (some offset)
  | "SET", [("@($)", base), (_, src)] => store base none src
  | "SET", [("@($", base), _, (_, offset), (_, src)] => store base (some offset) src
  | "CLR", [(_, dest)] => clear dest
  | "INC", [(_, dest)] => increment dest
  | "DEC", [(_, dest)] => decrement dest
  | "NOT", [(_, dest)] => complement dest
  | "BZR", [(_, src), (_, target)] => branchZero src target
  | "BNZ", [(_, src), (_, target)] => branchNonzero src target
  | "JMP", [(_, target)] => jump target
  | "JSR", [(_, target)] => call target
  | "PSH", [(_, src)] => push src
  | "POP", [(_, dest)] => pop dest
  | "FIN", [] => finish
  | "STP", [] => stop
  | "SLP", [(_, src)] => sleep src
  | "PCS", [] => resetStart
  | "FUN", words => ofCall words
  | mnemonic, [(_, dest), (_, src)] =>
    ((BinaryOp.all.find? (·.mnemonic == mnemonic)).map (binary · dest src)).getD ret
  | mnemonic, [(_, left), (_, right), (_, target)] =>
    ((Relation.all.find? (·.mnemonic == mnemonic)).map (branch · left right target)).getD ret
  | _, _ => ret

/-- The line that is written so. The texts of facts and comments are taken as they stand. -/
def ofLine (line : List Char) : Instr :=
  match line.splitOn ' ' with
  | [] => ret
  | first :: words =>
    if first.getLast? = some ':' then label (ofWord first).2
    else match String.ofList first, words with
      | "^program", key :: value => program (String.ofList key) (String.ofList ([' '].intercalate value))
      | "^comment", text => comment (String.ofList ([' '].intercalate text))
      | mnemonic, words => ofWords mnemonic (words.map ofWord)

/-! ## Words -/

@[simp] theorem splitOn_cons (c : Char) (cs : List Char) : (c :: cs).splitOn ' ' =
    if c = ' ' then [] :: cs.splitOn ' ' else (cs.splitOn ' ').modifyHead (c :: ·) := by
  simp [List.splitOn, List.splitOnP_cons_eq_if_modifyHead]

theorem splitOn_append {cs : List Char} (free : ' ' ∉ cs) (rest : List Char) :
    (cs ++ rest).splitOn ' ' = (rest.splitOn ' ').modifyHead (cs ++ ·) := by
  induction cs with
  | nil => exact (congrFun List.modifyHead_id _).symm
  | cons c cs ih =>
    rw [List.mem_cons, not_or] at free
    simp [Ne.symm free.1, ih free.2, Function.comp_def]

@[simp] theorem ofWord_nil : ofWord [] = ("", "") := rfl

@[simp] theorem ofWord_cons (c : Char) (cs : List Char) : ofWord (c :: cs) =
    if Text.isUnmarked c then ((ofWord cs).1, String.singleton c ++ (ofWord cs).2)
    else (String.singleton c ++ (ofWord cs).1, (ofWord cs).2) := by
  cases unmarked : Text.isUnmarked c <;> simp [ofWord, unmarked]

@[simp] theorem isUnmarked_marks : Text.isUnmarked '@' = false ∧ Text.isUnmarked '$' = false ∧
    Text.isUnmarked '#' = false ∧ Text.isUnmarked ':' = false ∧ Text.isUnmarked '(' = false ∧
    Text.isUnmarked ')' = false ∧ Text.isUnmarked '+' = false := by
  decide

/-- The text has no white space and no marks. -/
def Unmarked (text : String) : Prop := ∀ c ∈ text.toList, Text.isUnmarked c = true

namespace Unmarked

variable {text : String} (unmarked : Unmarked text)
include unmarked

theorem not_mem {c : Char} (isOther : Text.isUnmarked c = false) : c ∉ text.toList := by
  intro mem
  simp [unmarked c mem] at isOther

@[simp] theorem splitOn_append (rest : List Char) : (text.toList ++ rest).splitOn ' ' =
    (rest.splitOn ' ').modifyHead (text.toList ++ ·) :=
  Instr.splitOn_append (unmarked.not_mem rfl) rest

@[simp] theorem splitOn : text.toList.splitOn ' ' = [text.toList] := by
  simpa using unmarked.splitOn_append []

@[simp] theorem ofWord_append (cs : List Char) :
    ofWord (text.toList ++ cs) = ((ofWord cs).1, text ++ (ofWord cs).2) := by
  have noMarks : text.toList.filter (!Text.isUnmarked ·) = [] :=
    List.filter_eq_nil_iff.2 fun c mem => by simp [unmarked c mem]
  simp [Instr.ofWord, noMarks, List.filter_eq_self.2 unmarked]

@[simp] theorem ofWord : ofWord text.toList = ("", text) := by
  simpa using unmarked.ofWord_append []

end Unmarked

theorem splitOn_args {args : List String} (unmarked : ∀ name ∈ args, Unmarked name) :
    (String.join (args.map (" $" ++ ·))).toList.splitOn ' ' = [] :: args.map ('$' :: ·.toList) := by
  induction args with
  | nil => rfl
  | cons name args ih =>
    obtain ⟨first, others⟩ := List.forall_mem_cons.1 unmarked
    rw [List.map_cons, String.join_cons, String.toList_append, String.toList_append, List.append_assoc]
    simp [first, ih others, -String.toList_join]

theorem ofWord_args {args : List String} (unmarked : ∀ name ∈ args, Unmarked name) :
    (args.map ('$' :: ·.toList)).map ofWord = args.map (("$", ·)) := by
  rw [List.map_map]
  refine List.map_congr_left fun name mem => ?_
  simp [unmarked name mem]

theorem ofWords_call (words : List (String × String)) : ofWords "FUN" words = ofCall words := rfl

theorem ofCall_args (result : Option String) (name : String) (args : List String) :
    ofCall (result.toList.map (("@", ·)) ++ ("", name) :: args.map (("$", ·))) = host result name args := by
  cases result with
  | none => cases args <;> simp [ofCall, Function.comp_def]
  | some dest => simp [ofCall, Function.comp_def]

/-! ## Clear lines are read back -/

section Clear

variable {i : Instr} (clear : i.isClear = true)
include clear

theorem unmarked_of_isClear : (∀ name ∈ i.names, Unmarked name) ∧ (∀ hex ∈ i.digits?, Unmarked hex) ∧
    i.hasTexts = true := by
  obtain ⟨⟨areNames, areDigits⟩, texts⟩ := by simpa only [isClear, Bool.and_eq_true] using clear
  refine ⟨fun name mem => ?_, fun hex said c mem => ?_, texts⟩
  · exact (Text.isName_iff.1 (List.all_eq_true.1 areNames name mem)).2
  · rw [Option.mem_def.1 said] at areDigits
    exact Text.isUnmarked_of_class (p := Piece.isHexDigit) (by decide) (List.all_eq_true.1 areDigits c mem)

/-- A clear line is read back, and is one line. -/
theorem read_render : ofLine i.render.toList = i ∧ '\n' ∉ i.render.toList := by
  obtain ⟨unmarked, digits, texts⟩ := unmarked_of_isClear clear
  have free : ∀ {text : String}, Unmarked text → '\n' ∉ text.toList := fun unmarked => unmarked.not_mem rfl
  simp only [names, List.forall_mem_append] at unmarked
  cases i
  all_goals
    simp [operands, declared?, labels, target?, callee?, Callee.name, digits?, hasTexts] at unmarked digits texts
  case program key value =>
    have inKey : ∀ {c : Char}, Text.isBlank c = true → c ∉ key.toList := by
      intro c isBlank mem
      simp [texts.1 c mem] at isBlank
    simp [render, ofLine, splitOn_append (inKey rfl), texts]
    exact inKey rfl
  case binary op dest src =>
    cases op <;> simp [render, ofLine, BinaryOp.mnemonic, unmarked, free] <;> rfl
  case branch relation left right target =>
    cases relation <;> simp [render, ofLine, Relation.mnemonic, unmarked, free] <;> rfl
  case load dest base offset =>
    cases offset <;> simp [render, renderCell, ofLine, unmarked, free] <;> rfl
  case store base offset src =>
    cases offset <;> simp [render, renderCell, ofLine, unmarked, free] <;> rfl
  case host result name args =>
    have areArgs : ∀ name ∈ args, Unmarked name := fun name mem => unmarked.1 name (.inr mem)
    have noLineEnd : '\n' ∉ (String.join (args.map (" $" ++ ·))).toList := by
      simp +contextual [free, areArgs]
    have call := ofCall_args result name args
    cases result <;> simp_all [render, ofLine, splitOn_args, ofWord_args, ofWords_call,
      -String.toList_join, -List.map_map]
  all_goals simp [render, ofLine, unmarked, digits, texts, free]
  all_goals rfl

end Clear

end Instr

end ContractCompiler
