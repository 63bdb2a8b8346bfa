import ContractCompiler.Parser

/-!
# Proofs.Parser.Reads — tokens that parsers read

`Parser.Reads p ts a rest` says that `p` takes the value `a` off the front of `ts` and leaves `rest`, and
`Parser.Refuses p ts` that it gives up. Both have laws for the ways to make a parser, so that the reading of
given tokens is followed step by step, through the alternatives that give up to the one that does not. A
repetition is a `Path` of steps, each of which takes a token, to a place where the next step gives up.

The lines of marks and words play no part in what is read, except where a value keeps them.
-/

namespace ContractCompiler

set_option autoImplicit false

namespace Token

/-! ## Tokens by their texts -/

def mark (symbol : String) (line : Nat) : Token := ⟨.punct, symbol, line⟩

def word (text : String) (line : Nat) : Token := ⟨.keyword, text, line⟩

def named (name : String) (line : Nat) : Token := ⟨.identifier, name, line⟩

variable {symbol : String} {line : Nat}

@[simp] theorem isPunct_mark (other : String) : (mark symbol line).isPunct other = (symbol == other) := rfl

@[simp] theorem isKeyword_word (other : String) : (word symbol line).isKeyword other = (symbol == other) := rfl

/-- Pieces with commas between any two. -/
inductive Separated : List (List Token) → List Token → Prop
  | one (ts : List Token) : Separated [ts] ts
  | more {pieces : List (List Token)} {us : List Token} (ts : List Token) (line : Nat)
    (others : Separated pieces us) : Separated (ts :: pieces) (ts ++ mark "," line :: us)

theorem Separated.head {pieces : List (List Token)} {us ts : List Token} (separated : Separated (ts :: pieces) us) :
    ∃ vs, us = ts ++ vs ∧ (vs = [] ∨ ∃ line vs', vs = mark "," line :: vs') := by
  cases separated with
  | one => exact ⟨[], by simp, .inl rfl⟩
  | more _ line _ => exact ⟨_, rfl, .inr ⟨line, _, rfl⟩⟩

theorem Separated.length_le {pieces : List (List Token)} {us ts : List Token} (separated : Separated pieces us)
    (mem : ts ∈ pieces) : ts.length ≤ us.length := by
  induction separated with
  | one us => exact Nat.le_of_eq (congrArg List.length (List.mem_singleton.1 mem))
  | more us line others ih =>
    rcases List.mem_cons.1 mem with rfl | later
    · simp
    · have := ih later
      simp
      omega

end Token

namespace Parser

open Token (mark word named Separated)

variable {α β : Type} {p q : Parser α} {f : α → Parser β} {ts mid rest : List Token} {a : α} {b : β}

/-- Takes a value off the front of the tokens. -/
def Reads (p : Parser α) (ts : List Token) (a : α) (rest : List Token) : Prop := (p ts).value = some (a, rest)

def Refuses (p : Parser α) (ts : List Token) : Prop := (p ts).value = none

/-! ## Parsers that give up -/

namespace Refuses

theorem fail : (Parser.fail : Parser α).Refuses ts := rfl

theorem bind (first : p.Refuses ts) : (p >>= f).Refuses ts := by
  show (Parser.bind p f ts).value = none
  unfold Refuses at first
  unfold Parser.bind
  split
  · rfl
  · rename_i isFirst
    rw [isFirst] at first
    cases first

theorem bind_later (first : p.Reads ts a mid) (second : (f a).Refuses mid) : (p >>= f).Refuses ts := by
  show (Parser.bind p f ts).value = none
  unfold Reads at first
  unfold Parser.bind
  split
  · rfl
  · rename_i isFirst
    rw [isFirst] at first
    cases first
    exact second

theorem orElse (first : p.Refuses ts) (second : q.Refuses ts) : (Parser.orElse p q).Refuses ts := by
  unfold Refuses at first
  unfold Refuses Parser.orElse
  split
  · rename_i isFirst
    rw [isFirst] at first
    cases first
  · exact second

theorem choice {ps : List (Parser α)} (each : ∀ p ∈ ps, p.Refuses ts) : (Parser.choice ps).Refuses ts := by
  induction ps with
  | nil => rfl
  | cons p rest ih =>
    obtain ⟨first, others⟩ := List.forall_mem_cons.1 each
    cases rest with
    | nil => exact first
    | cons q rest => exact orElse first (ih others)

theorem tokenMap {g : Token → Option α} (undefined : ∀ t ∈ ts.head?, g t = none) :
    (Parser.tokenMap g).Refuses ts := by
  cases ts with
  | nil => rfl
  | cons t ts =>
    simp [Refuses, Parser.tokenMap, undefined t rfl, Parser.fail]

theorem tokenMap_cons {g : Token → Option α} {t : Token} (undefined : g t = none) :
    (Parser.tokenMap g).Refuses (t :: ts) := by
  refine tokenMap ?_
  rintro _ ⟨⟩
  exact undefined

theorem satisfy {test : Token → Bool} (fails : ∀ t ∈ ts.head?, test t = false) :
    (Parser.satisfy test).Refuses ts :=
  tokenMap fun t isHead => by rw [fails t isHead]; rfl

theorem satisfy_cons {test : Token → Bool} {t : Token} (fails : test t = false) :
    (Parser.satisfy test).Refuses (t :: ts) :=
  tokenMap_cons (by rw [fails]; rfl)

end Refuses

/-! ## Parsers that take a value -/

namespace Reads

theorem pure (a : α) (ts : List Token) : (Parser.pure a).Reads ts a ts := rfl

theorem bind (first : p.Reads ts a mid) (second : (f a).Reads mid b rest) : (p >>= f).Reads ts b rest := by
  show (Parser.bind p f ts).value = some (b, rest)
  unfold Reads at first
  unfold Parser.bind
  split
  · rename_i isFirst
    rw [isFirst] at first
    cases first
  · rename_i isFirst
    rw [isFirst] at first
    cases first
    exact second

theorem orElse (first : p.Reads ts a rest) : (Parser.orElse p q).Reads ts a rest := by
  unfold Reads at first
  unfold Reads Parser.orElse
  split
  · rename_i isFirst
    rw [isFirst] at first
    exact first
  · rename_i isFirst
    rw [isFirst] at first
    cases first

theorem orElse_later (first : p.Refuses ts) (second : q.Reads ts a rest) :
    (Parser.orElse p q).Reads ts a rest := by
  unfold Refuses at first
  unfold Reads Parser.orElse
  split
  · rename_i isFirst
    rw [isFirst] at first
    cases first
  · exact second

theorem choice {ps : List (Parser α)} (first : p.Reads ts a rest) :
    (Parser.choice (p :: ps)).Reads ts a rest := by
  cases ps with
  | nil => exact first
  | cons q ps => exact orElse first

theorem choice_later {ps : List (Parser α)} (first : p.Refuses ts)
    (later : (Parser.choice (q :: ps)).Reads ts a rest) : (Parser.choice (p :: q :: ps)).Reads ts a rest :=
  orElse_later first later

theorem option (reads : p.Reads ts a rest) : (Parser.option p).Reads ts (some a) rest :=
  .orElse (.bind reads (.pure _ _))

theorem option_none (refuses : p.Refuses ts) : (Parser.option p).Reads ts none ts :=
  .orElse_later refuses.bind (.pure _ _)

theorem tokenMap {g : Token → Option α} {t : Token} (defined : g t = some a) :
    (Parser.tokenMap g).Reads (t :: rest) a rest := by
  simp [Reads, Parser.tokenMap, defined]

theorem satisfy {test : Token → Bool} {t : Token} (holds : test t = true) :
    (Parser.satisfy test).Reads (t :: rest) t rest :=
  tokenMap (by rw [holds]; rfl)

theorem punct (symbol : String) (line : Nat) :
    (Parser.punct symbol).Reads (mark symbol line :: rest) (mark symbol line) rest := satisfy (by simp)

theorem keyword (text : String) (line : Nat) :
    (Parser.keyword text).Reads (word text line :: rest) (word text line) rest := satisfy (by simp)

theorem identifier (name : String) (line : Nat) :
    Parser.identifier.Reads (named name line :: rest) (named name line) rest := satisfy rfl

theorem between {opening closing : String} {line : Nat} (line' : Nat)
    (inner : p.Reads ts a (mark closing line' :: rest)) :
    (Parser.between opening closing p).Reads (mark opening line :: ts) a rest :=
  .bind (punct opening line) (.bind inner (.bind (punct closing line') (.pure _ _)))

/-- What is read of all the tokens. -/
theorem run (reads : p.Reads ts a []) : p.run ts = .ok a := by
  have ended : (Parser.bind p fun a => Parser.bind Parser.endOfInput fun _ => Parser.pure a).Reads ts a [] :=
    .bind reads rfl
  unfold Reads at ended
  unfold Parser.run
  split
  · rename_i isParsed
    rw [isParsed] at ended
    cases ended
    rfl
  · rename_i isParsed
    rw [isParsed] at ended
    cases ended

end Reads

/-! ## Repetitions -/

/-- Steps that take tokens one after the other. -/
inductive Path (step : α → Parser α) : α → List Token → α → List Token → Prop
  | refl (a : α) (ts : List Token) : Path step a ts a ts
  | step {a a' b : α} {ts mid rest : List Token} (first : (step a).Reads ts a' mid)
    (shorter : mid.length < ts.length) (others : Path step a' mid b rest) : Path step a ts b rest

namespace Path

variable {step : α → Parser α} {a a' c : α}

theorem trans (first : Path step a ts a' mid) (second : Path step a' mid c rest) : Path step a ts c rest := by
  induction first with
  | refl => exact second
  | step reads shorter _ ih => exact .step reads shorter (ih second)

/-- One more step at the end. -/
theorem snoc (first : Path step a ts a' mid) (last : (step a').Reads mid c rest)
    (shorter : rest.length < mid.length) : Path step a ts c rest :=
  first.trans (.step last shorter (.refl _ _))

end Path

/-- The parser reads values one after the other. -/
inductive Several (p : Parser α) : List Token → List α → List Token → Prop
  | nil (ts : List Token) : Several p ts [] ts
  | cons {a : α} {as : List α} {ts mid rest : List Token} (first : p.Reads ts a mid)
    (shorter : mid.length < ts.length) (others : Several p mid as rest) : Several p ts (a :: as) rest

/-- Values that are written one after the other, each of which may be followed by anything with `stop`. -/
theorem Several.of_pieces (stop : List Token → Prop) {items : List (α × List Token)} {tail : List Token}
    (each : ∀ item ∈ items, item.2 ≠ [] ∧ (∀ rest, stop (item.2 ++ rest)) ∧
      ∀ rest, stop rest → p.Reads (item.2 ++ rest) item.1 rest) (atEnd : stop tail) :
    Several p (items.flatMap (·.2) ++ tail) (items.map (·.1)) tail := by
  induction items with
  | nil => exact .nil tail
  | cons item items ih =>
    obtain ⟨⟨nonempty, -, reads⟩, others⟩ := List.forall_mem_cons.1 each
    have stops : stop (items.flatMap (·.2) ++ tail) := by
      cases items with
      | nil => exact atEnd
      | cons next items =>
        rw [List.flatMap_cons, List.append_assoc]
        exact (others next (by simp)).2.1 _
    rw [List.flatMap_cons, List.append_assoc]
    refine .cons (reads _ stops) ?_ (ih others)
    have := List.length_pos_iff.2 nonempty
    simp only [List.length_append]
    omega

/-- The values that are read pile up. -/
theorem Several.path {as : List α} (several : Several p ts as rest) (read : List α) :
    Path (fun read => Parser.bind p fun a => Parser.pure (a :: read)) read ts (as.reverse ++ read) rest := by
  induction several generalizing read with
  | nil ts => exact .refl read ts
  | cons first shorter _ ih =>
    rename_i a as _ _ _ _
    have others := ih (a :: read)
    rw [List.reverse_cons, List.append_assoc]
    exact .step (.bind first (.pure _ _)) shorter others

namespace Reads

theorem iterateAux {step : α → Parser α} {a b : α} (path : Path step a ts b rest)
    (ends : (step b).Refuses rest) {fuel : Nat} (enough : ts.length < fuel) :
    (Parser.iterateAux step fuel a).Reads ts b rest := by
  induction path generalizing fuel with
  | refl a ts =>
    obtain ⟨fuel, rfl⟩ : ∃ n, fuel = n + 1 := ⟨fuel - 1, by omega⟩
    unfold Refuses at ends
    unfold Reads Parser.iterateAux
    split
    · rfl
    · rename_i isStep
      rw [isStep] at ends
      cases ends
  | step first shorter others ih =>
    obtain ⟨fuel, rfl⟩ : ∃ n, fuel = n + 1 := ⟨fuel - 1, by omega⟩
    unfold Reads at first
    unfold Reads Parser.iterateAux
    split
    · rename_i isStep
      rw [isStep] at first
      cases first
    · rename_i isStep
      rw [isStep] at first
      cases first
      exact ih ends (by omega)

theorem iterate {step : α → Parser α} {a b : α} (path : Path step a ts b rest) (ends : (step b).Refuses rest) :
    (Parser.iterate step a).Reads ts b rest :=
  iterateAux path ends (Nat.lt_succ_self _)

theorem many {as : List α} (several : Several p ts as rest) (ends : p.Refuses rest) :
    (Parser.many p).Reads ts as rest := by
  have path := several.path []
  rw [List.append_nil] at path
  have read : (Parser.many p).Reads ts as.reverse.reverse rest :=
    .bind (.iterate path ends.bind) (.pure _ _)
  rw [List.reverse_reverse] at read
  exact read

/-- Values with commas between them. Each may be followed by anything with `stop`. -/
theorem sepBy1 (stop : List Token → Prop) {items : List (α × List Token)} {us tail : List Token}
    (separated : Separated (items.map (·.2)) us)
    (each : ∀ item ∈ items, ∀ rest, stop rest → p.Reads (item.2 ++ rest) item.1 rest)
    (atComma : ∀ line rest, stop (mark "," line :: rest)) (atEnd : stop tail)
    (noComma : ∀ t ∈ tail.head?, t.isPunct "," = false) :
    (Parser.sepBy1 p (Parser.punct ",")).Reads (us ++ tail) (items.map (·.1)) tail := by
  -- The first value is read alone, the others each after its comma.
  suffices ∀ pieces us, Separated pieces us → ∀ items : List (α × List Token), items.map (·.2) = pieces →
      (∀ item ∈ items, ∀ rest, stop rest → p.Reads (item.2 ++ rest) item.1 rest) →
      ∃ a as mid, items.map (·.1) = a :: as ∧ p.Reads (us ++ tail) a mid ∧
        mid.length ≤ (us ++ tail).length ∧
        Several (Parser.bind (Parser.punct ",") fun _ => p) mid as tail by
    obtain ⟨a, as, mid, same, first, -, others⟩ := this _ us separated items rfl each
    rw [same]
    exact .bind first (.bind (.many others (Refuses.satisfy noComma).bind) (.pure _ _))
  intro pieces us separated
  induction separated with
  | one ts =>
    intro items isPieces each
    obtain ⟨⟨a, ts⟩, rfl, rfl⟩ := List.map_eq_singleton_iff.1 isPieces
    exact ⟨a, [], tail, rfl, each (a, ts) (by simp) tail atEnd, by simp, .nil tail⟩
  | more ts line others ih =>
    rename_i pieces us
    intro items isPieces each
    obtain ⟨⟨a, ts⟩, items, rfl, rfl, rfl⟩ := List.map_eq_cons_iff.1 isPieces
    obtain ⟨first, later⟩ := List.forall_mem_cons.1 each
    obtain ⟨a', as, mid, same, reads, shorter, several⟩ := ih items rfl later
    refine ⟨a, a' :: as, mark "," line :: (us ++ tail), by rw [List.map_cons, same], ?_, by simp, ?_⟩
    · rw [List.append_assoc]
      exact first _ (atComma line _)
    · exact .cons (.bind (.punct "," line) reads) (Nat.lt_succ_of_le shorter) several

end Reads

end Parser

end ContractCompiler
