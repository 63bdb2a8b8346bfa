import ContractCompiler.Proofs.Layout
import ContractCompiler.Proofs.Parser
import ContractCompiler.Sentence.Parser

/-!
# Proofs.Sentence.Parser — what a contract keeps of its tokens

What is made of tokens keeps the lines that they stand at, and the identifiers among them are the names that
it declares. `Declarator.Within`, `Sentence.Within` and the like say that all the lines which are kept are
lines of the source, of which `inside` says which they are, and that the names are good ones, as `named`
says. So the parser gives a contract that stands inside of its source, or reports one of its lines
(`Program.ofTokens_within`).
-/

namespace ContractCompiler

set_option autoImplicit false

/-! ## Sentences -/

variable (inside : Nat → Prop) (named : String → Prop)

/-- The name is a good one, and it and the initial value stand at lines of the source. -/
structure Declarator.Within (d : Declarator) : Prop where
  line : inside d.line
  name : named d.name
  init : ∀ tokens, d.init = some tokens → ∀ t ∈ tokens, inside t.line

def Declaration.Within (d : Declaration) : Prop := ∀ v ∈ d.declarators, v.Within inside named

namespace Sentence

mutual

/-- All that a sentence keeps stands at lines of the source, and it declares good names. -/
def Within : Sentence → Prop
  | phrase line _ code => inside line ∧ ∀ t ∈ code, inside t.line
  | ifThen line condition yes => (inside line ∧ ∀ t ∈ condition, inside t.line) ∧ AllWithin yes
  | ifElse line condition yes no =>
    (inside line ∧ ∀ t ∈ condition, inside t.line) ∧ AllWithin yes ∧ AllWithin no
  | whileLoop line condition body => (inside line ∧ ∀ t ∈ condition, inside t.line) ∧ AllWithin body
  | doLoop line condition body => (inside line ∧ ∀ t ∈ condition, inside t.line) ∧ AllWithin body
  | forLoop line init condition step body =>
    (inside line ∧ (∀ t ∈ init, inside t.line) ∧ (∀ t ∈ condition, inside t.line) ∧
      ∀ t ∈ step, inside t.line) ∧ AllWithin body
  | block body => AllWithin body
  | declaration d => d.Within inside named

def AllWithin : List Sentence → Prop
  | [] => True
  | s :: rest => s.Within ∧ AllWithin rest

end

variable {inside named}

theorem allWithin_iff {ss : List Sentence} : AllWithin inside named ss ↔ ∀ s ∈ ss, s.Within inside named := by
  induction ss with
  | nil => simp [AllWithin]
  | cons s rest ih => simp [AllWithin, ih]

theorem allWithin_toBody {s : Sentence} (within : s.Within inside named) : AllWithin inside named s.toBody := by
  cases s with
  | block body => exact within
  | _ => exact ⟨within, trivial⟩

mutual

theorem Within.declarations : {s : Sentence} → s.Within inside named → ∀ d ∈ s.declarations, d.Within inside named
  | .phrase _ _ _, _ => by simp [Sentence.declarations]
  | .ifThen _ _ _, within => AllWithin.declarations within.2
  | .ifElse _ _ _ _, within =>
    List.forall_mem_append.2 ⟨AllWithin.declarations within.2.1, AllWithin.declarations within.2.2⟩
  | .whileLoop _ _ _, within => AllWithin.declarations within.2
  | .doLoop _ _ _, within => AllWithin.declarations within.2
  | .forLoop _ _ _ _ _, within => AllWithin.declarations within.2
  | .block _, within => AllWithin.declarations within
  | .declaration _, within => List.forall_mem_singleton.2 within

theorem AllWithin.declarations : {ss : List Sentence} → AllWithin inside named ss →
    ∀ d ∈ allDeclarations ss, d.Within inside named
  | [], _ => by simp [allDeclarations]
  | _ :: _, within => List.forall_mem_append.2 ⟨within.1.declarations, AllWithin.declarations within.2⟩

end

end Sentence

structure StructDef.Within (s : StructDef) : Prop where
  line : inside s.line
  members : ∀ d ∈ s.members, d.Within inside named

structure FunctionDef.Within (f : FunctionDef) : Prop where
  line : inside f.line
  name : named f.name
  params : ∀ p ∈ f.params, inside p.line ∧ named p.name
  body : Sentence.AllWithin inside named f.body

structure Program.Within (p : Program) : Prop where
  structs : ∀ s ∈ p.structs, s.Within inside named
  globals : Sentence.AllWithin inside named p.globals
  functions : ∀ f ∈ p.functions, f.Within inside named

variable {inside named} {strict : Prop}

/-- The variables of a contract have good names. -/
theorem Program.Within.variables {p : Program} (within : p.Within inside named) :
    ∀ name ∈ p.variables, named name := by
  have declared : ∀ ds : List Declaration, (∀ d ∈ ds, d.Within inside named) →
      ∀ name ∈ ds.flatMap (·.names), named name := by
    intro ds within name mem
    obtain ⟨d, listed, mem⟩ := List.mem_flatMap.1 mem
    obtain ⟨v, declares, rfl⟩ := List.mem_map.1 mem
    exact (within d listed v declares).name
  refine List.forall_mem_append.2 ⟨declared _ within.globals.declarations, fun name mem => ?_⟩
  obtain ⟨f, listed, mem⟩ := List.mem_flatMap.1 mem
  have inside := within.functions f listed
  rcases List.mem_append.1 mem with isParam | isLocal
  · obtain ⟨x, listed, rfl⟩ := List.mem_map.1 isParam
    exact (inside.params x listed).2
  · exact declared _ inside.body.declarations name isLocal

/-! ## Parsers -/

/-- A run and what follows it are the tokens. -/
theorem Token.runFrom_append {stop : Token → Bool} {depth : Nat} {ts : List Token} {run : Run}
    (isRun : runFrom stop depth ts = .ok run) : run.tokens ++ run.rest = ts := by
  induction ts generalizing depth run with
  | nil =>
    cases depth <;> cases isRun
    rfl
  | cons t ts ih =>
    cases depth <;>
    · simp only [runFrom] at isRun
      repeat' split at isRun
      all_goals cases isRun
      all_goals first | rfl | exact congrArg (t :: ·) (ih ‹_›)

/-- A parser whose values satisfy `post` if the tokens stand at lines of the source, and the identifiers
among them are good names. -/
abbrev Parser.Keeps {α : Type} (inside : Nat → Prop) (named : String → Prop) (p : Parser α)
    (post : α → Prop) : Prop :=
  Parser.Yields (fun t => inside t.line ∧ (t.isIdentifier = true → named t.text)) p post

namespace Sentence

theorem runParser_keeps (stop : Token → Bool) :
    Parser.Keeps inside named (runParser stop) fun ts => ∀ t ∈ ts, inside t.line := by
  intro ts stand _ rest parsed
  unfold runParser at parsed
  split at parsed
  · rename_i run isRun
    cases parsed
    rw [← Token.runFrom_append isRun] at stand
    obtain ⟨inRun, after⟩ := List.forall_mem_append.1 stand
    exact ⟨fun t mem => (inRun t mem).1, after⟩
  · cases parsed

/-- A mark or a keyword. -/
theorem satisfy_keeps (test : Token → Bool) :
    Parser.Keeps inside named (Parser.satisfy test) fun t => inside t.line :=
  (Parser.Yields.satisfy test).mono fun _ found => found.1.1

theorem identifier_keeps :
    Parser.Keeps inside named Parser.identifier fun t => inside t.line ∧ named t.text :=
  (Parser.Yields.satisfy _).mono fun _ found => ⟨found.1.1, found.1.2 found.2⟩

theorem typeParser_keeps : Parser.Keeps inside named typeParser fun found => inside found.2 := by
  refine .choice ?_
  simp only [List.forall_mem_cons]
  refine ⟨?_, ?_, ?_, by simp⟩
  · exact .bind (satisfy_keeps _) fun _ atLine => .pure atLine
  · exact .bind (satisfy_keeps _) fun _ atLine => .pure atLine
  · exact .bind (satisfy_keeps _) fun _ atLine => .bind (satisfy_keeps _) fun _ _ => .pure atLine

theorem sizeParser_keeps : Parser.Keeps inside named sizeParser fun _ => True := by
  intro ts stand _ rest parsed
  unfold sizeParser at parsed
  repeat' split at parsed
  all_goals
    cases parsed
    try exact ⟨trivial, (List.forall_mem_cons.1 stand).2⟩

theorem declaratorParser_keeps : Parser.Keeps inside named declaratorParser (·.Within inside named) :=
  .bind (.option (satisfy_keeps _)) fun _ _ => .bind identifier_keeps fun _ isName =>
    .bind (.option (.between _ _ sizeParser_keeps)) fun _ _ =>
    .bind (.option (.bind (satisfy_keeps _) fun _ _ => runParser_keeps _)) fun _ init =>
    .pure ⟨isName.1, isName.2, init⟩

theorem declarationParser_keeps : Parser.Keeps inside named declarationParser (·.Within inside named) :=
  .bind (.option (satisfy_keeps _)) fun _ _ => .bind typeParser_keeps fun _ _ =>
    .bind (.sepBy1 declaratorParser_keeps (satisfy_keeps _)) fun _ within =>
    .bind (satisfy_keeps _) fun _ _ => .pure within

theorem conditionParser_keeps :
    Parser.Keeps inside named conditionParser fun ts => ∀ t ∈ ts, inside t.line :=
  .between _ _ (runParser_keeps _)

theorem phraseParser_keeps : Parser.Keeps inside named phraseParser (·.Within inside named) := by
  refine .bind (runParser_keeps _) fun code stand => .bind (satisfy_keeps _) fun semicolon atLine =>
    .pure ⟨?_, stand⟩
  -- the line is that of the first token, or of the semicolon if there is none
  cases code with
  | nil => exact atLine
  | cons t _ => exact stand t List.mem_cons_self

section Parts

variable {inner : Parser Sentence} (keeps : Parser.Keeps inside named inner (·.Within inside named))
include keeps

theorem blockParser_keeps : Parser.Keeps inside named (blockParser inner) (AllWithin inside named) :=
  .between _ _ ((Parser.Yields.many keeps).mono fun _ within => allWithin_iff.2 within)

theorem bodyParser_keeps : Parser.Keeps inside named (bodyParser inner) (AllWithin inside named) :=
  .bind keeps fun _ within => .pure (allWithin_toBody within)

theorem ifParser_keeps : Parser.Keeps inside named (ifParser inner) (·.Within inside named) := by
  refine .bind (satisfy_keeps _) fun _ atLine => .bind conditionParser_keeps fun _ stand =>
    .bind (bodyParser_keeps keeps) fun yes inYes =>
    .bind (.option (.bind (satisfy_keeps _) fun _ _ => bodyParser_keeps keeps)) fun no inNo => ?_
  cases no with
  | none => exact .pure ⟨⟨atLine, stand⟩, inYes⟩
  | some no => exact .pure ⟨⟨atLine, stand⟩, inYes, inNo no rfl⟩

theorem whileParser_keeps : Parser.Keeps inside named (whileParser inner) (·.Within inside named) :=
  .bind (satisfy_keeps _) fun _ atLine => .bind conditionParser_keeps fun _ stand =>
    .bind (bodyParser_keeps keeps) fun _ inBody => .pure ⟨⟨atLine, stand⟩, inBody⟩

theorem doParser_keeps : Parser.Keeps inside named (doParser inner) (·.Within inside named) :=
  .bind (satisfy_keeps _) fun _ _ => .bind (bodyParser_keeps keeps) fun _ inBody =>
    .bind (satisfy_keeps _) fun _ atLine => .bind conditionParser_keeps fun _ stand =>
    .bind (satisfy_keeps _) fun _ _ => .pure ⟨⟨atLine, stand⟩, inBody⟩

theorem forParser_keeps : Parser.Keeps inside named (forParser inner) (·.Within inside named) :=
  .bind (satisfy_keeps _) fun _ atLine => .bind (satisfy_keeps _) fun _ _ =>
    .bind (runParser_keeps _) fun _ init => .bind (satisfy_keeps _) fun _ _ =>
    .bind (runParser_keeps _) fun _ test => .bind (satisfy_keeps _) fun _ _ =>
    .bind (runParser_keeps _) fun _ step => .bind (satisfy_keeps _) fun _ _ =>
    .bind (bodyParser_keeps keeps) fun _ inBody => .pure ⟨⟨atLine, init, test, step⟩, inBody⟩

end Parts

theorem parser_keeps (fuel : Nat) : Parser.Keeps inside named (parser fuel) (·.Within inside named) := by
  induction fuel with
  | zero => exact .fail
  | succ fuel ih =>
    refine .choice ?_
    simp only [List.forall_mem_cons]
    refine ⟨?_, ifParser_keeps ih, whileParser_keeps ih, doParser_keeps ih, forParser_keeps ih, ?_, ?_,
      phraseParser_keeps, by simp⟩
    · exact .bind (blockParser_keeps ih) fun _ within => .pure within
    · exact .bind declarationParser_keeps fun _ within => .pure within
    · exact .bind (satisfy_keeps _) fun _ atLine => .bind (runParser_keeps _) fun _ stand =>
        .bind (satisfy_keeps _) fun _ _ => .pure ⟨atLine, stand⟩

end Sentence

open Sentence (satisfy_keeps identifier_keeps typeParser_keeps)

theorem StructDef.parser_keeps : Parser.Keeps inside named StructDef.parser (·.Within inside named) := by
  refine .bind (satisfy_keeps _) fun _ _ => .bind (satisfy_keeps _) fun _ atLine =>
    .bind (.between _ _ (.many (.bind (satisfy_keeps _) fun _ _ =>
      .bind (.sepBy1 Sentence.declaratorParser_keeps (satisfy_keeps _)) fun _ within =>
      .bind (satisfy_keeps _) fun _ _ => .pure within))) fun lists within =>
    .bind (satisfy_keeps _) fun _ _ => .pure ⟨atLine, fun d mem => ?_⟩
  obtain ⟨list, listed, mem⟩ := List.mem_flatten.1 mem
  exact within list listed d mem

theorem Param.listParser_keeps :
    Parser.Keeps inside named Param.listParser fun ps => ∀ p ∈ ps, inside p.line ∧ named p.name := by
  have param : Parser.Keeps inside named Param.parser fun p => inside p.line ∧ named p.name :=
    .bind typeParser_keeps fun _ _ => .bind (.option (satisfy_keeps _)) fun _ _ =>
      .bind identifier_keeps fun _ isName => .pure isName
  exact .between _ _ (.orElse (.bind (satisfy_keeps _) fun _ _ => .pure (by simp))
    (.sepBy param (satisfy_keeps _)))

theorem FunctionDef.parser_keeps (fuel : Nat) :
    Parser.Keeps inside named (FunctionDef.parser (Sentence.parser fuel)) (·.Within inside named) :=
  .bind typeParser_keeps fun _ atLine => .bind (.option (satisfy_keeps _)) fun _ _ =>
    .bind identifier_keeps fun _ isName => .bind Param.listParser_keeps fun _ params =>
    .bind (Sentence.blockParser_keeps (Sentence.parser_keeps fuel)) fun _ body =>
    .pure ⟨atLine, isName.2, params, body⟩

/-- What a contract is a sequence of stands at lines of the source. -/
def Item.Within (inside : Nat → Prop) (named : String → Prop) : Item → Prop
  | struct s => s.Within inside named
  | function f => f.Within inside named
  | sentence s => s.Within inside named

theorem Item.parser_keeps (fuel : Nat) : Parser.Keeps inside named (Item.parser fuel) (·.Within inside named) := by
  refine .choice ?_
  simp only [List.forall_mem_cons]
  refine ⟨?_, ?_, ?_, by simp⟩
  · exact .bind StructDef.parser_keeps fun _ within => .pure within
  · exact .bind (FunctionDef.parser_keeps fuel) fun _ within => .pure within
  · exact .bind (Sentence.parser_keeps fuel) fun _ within => .pure within

/-- The token that a failure stands at is one of the tokens. -/
theorem Failure.mem_of_found? {f : Failure} {tokens : List Token} {t : Token}
    (found : f.found? tokens = some t) : t ∈ tokens := by
  unfold found? at found
  split at found
  · cases found
  · exact List.mem_of_mem_drop (List.mem_of_head? found)

/-- Tokens that are no contract are reported at the line of one of them. -/
theorem Program.unreadable_fair {tokens : List Token} (stand : ∀ t ∈ tokens, inside t.line)
    (nonempty : tokens ≠ []) (f : Failure) : (unreadable tokens f).Fair inside strict := by
  have last : inside ((tokens.getLast?.map (·.line)).getD 1) := by
    rw [List.getLast?_eq_some_getLast nonempty]
    exact stand _ (List.getLast_mem nonempty)
  have here : inside (((tokens.drop (tokens.length - f.left)).head?.map (·.line)).getD
      ((tokens.getLast?.map (·.line)).getD 1)) := by
    cases found : (tokens.drop (tokens.length - f.left)).head? with
    | none => exact last
    | some t => exact stand t (List.mem_of_mem_drop (List.mem_of_head? found))
  unfold unreadable
  dsimp only
  split <;> exact ⟨here, fun _ => rfl⟩

theorem Program.ofTokens_within {tokens : List Token}
    (stand : ∀ t ∈ tokens, inside t.line ∧ (t.isIdentifier = true → named t.text)) :
    Outcome.Within inside strict (Program.ofTokens tokens) (·.Within inside named) := by
  unfold ofTokens
  split
  · rename_i items isRead
    have within := (Parser.Yields.many (Item.parser_keeps _)).run stand isRead
    refine .ok ⟨fun s mem => ?_, Sentence.allWithin_iff.2 fun s mem => ?_, fun f mem => ?_⟩ <;>
    · obtain ⟨item, listed, same⟩ := List.mem_filterMap.1 mem
      cases item <;> cases same
      exact within _ listed
  · rename_i isError
    -- No tokens are an empty contract, so that there is a token to report.
    refine unreadable_fair (fun t mem => (stand t mem).1) ?_ _
    rintro rfl
    cases isError

end ContractCompiler
