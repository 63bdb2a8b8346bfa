import ContractCompiler.Codegen.Sentence
import ContractCompiler.Proofs.Label

/-!
# Proofs.Sentence.Woven — what the code of sentences is made of

Sentences add labels, jumps and comments to the code of their phrases and conditions, and run the body of
a loop in a context of its own. `Codegen.Woven` is a judgement on two actions that are made so from labels
that belong together, with a rule for each of these. The sentences are gone through once, to derive it
(`Codegen.sentences_woven`); a property of phrases and conditions is then a property of sentences by
induction on derivations. Where only one action counts, labels belong together if they are the same.
-/

namespace ContractCompiler

set_option autoImplicit false

/-! ## The phrases and conditions of sentences -/

/-- An initial value is assigned. -/
def Declarator.assignment? (d : Declarator) : Option (List Token × Nat) :=
  d.init.map fun init =>
    (⟨.identifier, d.name, d.line⟩ :: ⟨.punct, "=", d.line⟩ :: init, d.line)

mutual

/-- The phrases of a sentence, each with its line. -/
def Sentence.phrases : Sentence → List (List Token × Nat)
  | .phrase line _ code => [(code, line)]
  | .ifThen _ _ yes => Sentence.allPhrases yes
  | .ifElse _ _ yes no => Sentence.allPhrases yes ++ Sentence.allPhrases no
  | .whileLoop _ _ body => Sentence.allPhrases body
  | .doLoop _ _ body => Sentence.allPhrases body
  | .forLoop line init _ step body => (init, line) :: (step, line) :: Sentence.allPhrases body
  | .block body => Sentence.allPhrases body
  | .declaration d => d.declarators.filterMap Declarator.assignment?

def Sentence.allPhrases : List Sentence → List (List Token × Nat)
  | [] => []
  | s :: rest => s.phrases ++ Sentence.allPhrases rest

end

def Program.phrases (p : Program) : List (List Token × Nat) :=
  Sentence.allPhrases p.globals ++ p.functions.flatMap fun f => Sentence.allPhrases f.body

mutual

/-- The conditions of a sentence, each with its line. -/
def Sentence.conditions : Sentence → List (List Token × Nat)
  | .phrase _ _ _ => []
  | .ifThen line test yes => (test, line) :: Sentence.allConditions yes
  | .ifElse line test yes no => (test, line) :: (Sentence.allConditions yes ++ Sentence.allConditions no)
  | .whileLoop line test body => (test, line) :: Sentence.allConditions body
  | .doLoop line test body => (test, line) :: Sentence.allConditions body
  | .forLoop line _ test _ body => (test, line) :: Sentence.allConditions body
  | .block body => Sentence.allConditions body
  | .declaration _ => []

def Sentence.allConditions : List Sentence → List (List Token × Nat)
  | [] => []
  | s :: rest => s.conditions ++ Sentence.allConditions rest

end

def Program.conditions (p : Program) : List (List Token × Nat) :=
  Sentence.allConditions p.globals ++ p.functions.flatMap fun f => Sentence.allConditions f.body

namespace Codegen

variable {ids : String → String → Prop} {ofPhrase ofTest : List Token → Nat → Prop}

/-! ## The judgement -/

variable (ids ofPhrase ofTest) in
/-- The two actions are made from the same phrases and conditions, such as are allowed, and from what
sentences add to them. The labels of the first carry ids that belong together with those of the second.
The first action may jump to the labels `exits`, and the labels `labels` are its own. -/
inductive Woven : (exits labels : List String) → Codegen Unit → Codegen Unit → Prop
  | phrase {exits : List String} {tokens : List Token} {line : Nat} (allowed : ofPhrase tokens line)
      (isConst : Bool) : Woven exits [] (phrase tokens isConst line) (phrase tokens isConst line)
  | condition {exits : List String} {tokens : List Token} {line : Nat} (allowed : ofTest tokens line)
      (mark : Mark) {id id' : String} (related : ids id id') (when : Bool)
      (mem : mark.text id ∈ exits := by simp) :
      Woven exits [] (condition tokens (mark.text id) when line) (condition tokens (mark.text id') when line)
  | nothing {exits : List String} : Woven exits [] (pure ()) (pure ())
  | andThen {exits labels : List String} {m m' n n' : Codegen Unit} (first : Woven exits [] m n)
      (rest : Woven exits labels m' n') : Woven exits labels (m >>= fun _ => m') (n >>= fun _ => n')
  | labelId {exits : List String} {f f' : String → Codegen Unit} {line : Nat} (marks : List Mark)
      (different : marks.Nodup) (rest : ∀ id id', ids id id' →
        Woven (marks.map (·.text id) ++ exits) (marks.map (·.text id)) (f id) (f' id')) :
      Woven exits [] (labelId line >>= f) (labelId line >>= f')
  | label {exits labels : List String} (mark : Mark) {id id' : String} (related : ids id id')
      {m m' : Codegen Unit} (rest : Woven exits labels m m') : Woven exits (mark.text id :: labels)
        (emit (.label (mark.text id)) >>= fun _ => m) (emit (.label (mark.text id')) >>= fun _ => m')
  | lastLabel {exits : List String} (mark : Mark) {id id' : String} (related : ids id id') :
      Woven exits [mark.text id] (emit (.label (mark.text id))) (emit (.label (mark.text id')))
  | jump {exits : List String} (mark : Mark) {id id' : String} (related : ids id id')
      (mem : mark.text id ∈ exits := by simp) :
      Woven exits [] (emit (.jump (mark.text id))) (emit (.jump (mark.text id')))
  | comment {exits : List String} (line : Nat) : Woven exits [] (comment line) (comment line)
  | loop {exits : List String} {id id' : String} (related : ids id id') {m m' : Codegen Unit}
      (body : Woven exits [] m m')
      (mem : ∀ mark ∈ [Mark.loopBreak, .loopContinue], mark.text id ∈ exits := by simp) :
      Woven exits [] (within ({ · with loop := some ("__loop" ++ id) }) m)
        (within ({ · with loop := some ("__loop" ++ id') }) m')

/-! ## Sentences -/

theorem initialValues_woven {exits : List String} (isConst : Bool) {ds : List Declarator}
    (phrases : ∀ p ∈ ds.filterMap Declarator.assignment?, ofPhrase p.1 p.2) :
    Woven ids ofPhrase ofTest exits [] (initialValues isConst ds) (initialValues isConst ds) := by
  induction ds with
  | nil => exact .nothing
  | cons d rest ih =>
    unfold initialValues
    cases isInit : d.init with
    | none =>
      have rest := ih (by simpa [Declarator.assignment?, isInit] using phrases)
      exact .andThen .nothing rest
    | some init =>
      rw [List.filterMap_cons_some (by rw [Declarator.assignment?, isInit]; rfl)] at phrases
      obtain ⟨first, phrases⟩ := List.forall_mem_cons.1 phrases
      exact .andThen (.phrase first isConst) (ih phrases)

mutual

theorem sentence_woven {exits : List String} : (s : Sentence) → (∀ p ∈ s.phrases, ofPhrase p.1 p.2) →
    (∀ p ∈ s.conditions, ofTest p.1 p.2) → Woven ids ofPhrase ofTest exits [] (sentence s) (sentence s)
  | .phrase line isConst code, phrases, _ => by
    rw [sentence]
    exact .phrase (phrases (code, line) (by simp [Sentence.phrases])) isConst
  | .declaration d, phrases, _ => by
    rw [sentence]
    rw [Sentence.phrases] at phrases
    exact initialValues_woven d.isConst phrases
  | .block body, phrases, tests => by
    rw [sentence]
    rw [Sentence.phrases] at phrases
    rw [Sentence.conditions] at tests
    exact sentences_woven body phrases tests
  | .ifThen line test yes, phrases, tests => by
    rw [sentence]
    rw [Sentence.phrases] at phrases
    rw [Sentence.conditions, List.forall_mem_cons] at tests
    exact .labelId [.ifStart, .ifEnd] (by decide) fun _ _ ids => .andThen (.comment line)
      (.andThen (.condition tests.1 .ifEnd ids _) (.label .ifStart ids
        (.andThen (sentences_woven yes phrases tests.2) (.lastLabel .ifEnd ids))))
  | .ifElse line test yes no, phrases, tests => by
    rw [sentence]
    rw [Sentence.phrases, List.forall_mem_append] at phrases
    rw [Sentence.conditions, List.forall_mem_cons, List.forall_mem_append] at tests
    obtain ⟨atTest, inYes, inNo⟩ := tests
    exact .labelId [.ifStart, .ifElse, .ifEnd] (by decide) fun _ _ ids => .andThen (.comment line)
      (.andThen (.condition atTest .ifElse ids _) (.label .ifStart ids
        (.andThen (sentences_woven yes phrases.1 inYes) (.andThen (.jump .ifEnd ids) (.label .ifElse ids
          (.andThen (sentences_woven no phrases.2 inNo) (.lastLabel .ifEnd ids)))))))
  | .whileLoop line test body, phrases, tests => by
    rw [sentence]
    rw [Sentence.phrases] at phrases
    rw [Sentence.conditions, List.forall_mem_cons] at tests
    exact .labelId [.loopContinue, .loopStart, .loopBreak] (by decide) fun _ _ ids => .andThen (.comment line)
      (.label .loopContinue ids (.andThen (.condition tests.1 .loopBreak ids _) (.label .loopStart ids
        (.andThen (.loop ids (sentences_woven body phrases tests.2))
          (.andThen (.jump .loopContinue ids) (.lastLabel .loopBreak ids))))))
  | .doLoop line test body, phrases, tests => by
    rw [sentence]
    rw [Sentence.phrases] at phrases
    rw [Sentence.conditions, List.forall_mem_cons] at tests
    exact .labelId [.loopStart, .loopContinue, .loopBreak] (by decide) fun _ _ ids =>
      .label .loopStart ids (.andThen (.loop ids (sentences_woven body phrases tests.2))
        (.label .loopContinue ids (.andThen (.comment line)
          (.andThen (.condition tests.1 .loopStart ids _) (.lastLabel .loopBreak ids)))))
  | .forLoop line init test step body, phrases, tests => by
    rw [sentence]
    rw [Sentence.phrases, List.forall_mem_cons, List.forall_mem_cons] at phrases
    rw [Sentence.conditions, List.forall_mem_cons] at tests
    obtain ⟨atInit, atStep, phrases⟩ := phrases
    refine .labelId [.loopCondition, .loopStart, .loopContinue, .loopBreak] (by decide) fun id id' related =>
      .andThen (.phrase atInit false) (.label .loopCondition related ?_)
    have rest : Woven ids ofPhrase ofTest
        ([Mark.loopCondition, .loopStart, .loopContinue, .loopBreak].map (·.text id) ++ exits)
        ([Mark.loopStart, .loopContinue, .loopBreak].map (·.text id)) _ _ :=
      .label .loopStart related (.andThen (.loop related (sentences_woven body phrases tests.2))
        (.label .loopContinue related (.andThen (.phrase atStep false)
          (.andThen (.jump .loopCondition related) (.lastLabel .loopBreak related)))))
    dsimp only
    split
    · exact .andThen (.condition tests.1 .loopBreak related _) rest
    · exact rest

theorem sentences_woven {exits : List String} : (ss : List Sentence) →
    (∀ p ∈ Sentence.allPhrases ss, ofPhrase p.1 p.2) → (∀ p ∈ Sentence.allConditions ss, ofTest p.1 p.2) →
    Woven ids ofPhrase ofTest exits [] (sentences ss) (sentences ss)
  | [], _, _ => by
    rw [sentences]
    exact .nothing
  | s :: rest, phrases, tests => by
    rw [sentences]
    rw [Sentence.allPhrases, List.forall_mem_append] at phrases
    rw [Sentence.allConditions, List.forall_mem_append] at tests
    exact .andThen (sentence_woven s phrases.1 tests.1) (sentences_woven rest phrases.2 tests.2)

end

/-- All sentences are woven from phrases and conditions. -/
theorem sentences_woven_any (exits : List String) (ss : List Sentence) :
    Woven Eq (fun _ _ => True) (fun _ _ => True) exits [] (sentences ss) (sentences ss) :=
  sentences_woven ss (fun _ _ => trivial) fun _ _ => trivial

end Codegen

end ContractCompiler
