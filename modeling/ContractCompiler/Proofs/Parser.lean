import ContractCompiler.Parser

/-!
# Proofs.Parser — what parsers make of their tokens

`Parser.Yields good p post` says that `p` makes a value with `post` of tokens that are all `good`, and
leaves good tokens. It has one law for each way to make a parser, so that a proof about a parser follows
its parts.
-/

namespace ContractCompiler.Parser

set_option autoImplicit false

variable {α β : Type} {good : Token → Prop}

/-- The values made of good tokens, which leave good tokens. -/
def Yields (good : Token → Prop) (p : Parser α) (post : α → Prop) : Prop :=
  ∀ ts, (∀ t ∈ ts, good t) → ∀ a rest, (p ts).value = some (a, rest) → post a ∧ ∀ t ∈ rest, good t

namespace Yields

variable {p q : Parser α} {post : α → Prop}

theorem mono {post' : α → Prop} (yields : Yields good p post) (weaker : ∀ a, post a → post' a) :
    Yields good p post' := by
  intro ts allGood a rest parsed
  obtain ⟨holds, restGood⟩ := yields ts allGood a rest parsed
  exact ⟨weaker a holds, restGood⟩

theorem pure {a : α} (holds : post a) : Yields good (Parser.pure a) post := by
  intro ts allGood _ _ parsed
  cases parsed
  exact ⟨holds, allGood⟩

theorem fail : Yields good (Parser.fail : Parser α) post := fun _ _ _ _ parsed => nomatch parsed

theorem bind {f : α → Parser β} {post' : β → Prop} (first : Yields good p post)
    (rest : ∀ a, post a → Yields good (f a) post') : Yields good (p >>= f) post' := by
  intro ts allGood b left parsed
  replace parsed : (Parser.bind p f ts).value = some (b, left) := parsed
  unfold Parser.bind at parsed
  split at parsed
  · cases parsed
  · rename_i a ts' _ isFirst
    obtain ⟨holds, allGood'⟩ := first ts allGood a ts' (by rw [isFirst])
    exact rest a holds ts' allGood' b left parsed

theorem orElse (first : Yields good p post) (second : Yields good q post) :
    Yields good (Parser.orElse p q) post := by
  intro ts allGood a rest parsed
  unfold Parser.orElse at parsed
  split at parsed
  · rename_i isFirst
    exact first ts allGood a rest (by rw [isFirst]; exact parsed)
  · exact second ts allGood a rest parsed

theorem choice {ps : List (Parser α)} (each : ∀ p ∈ ps, Yields good p post) :
    Yields good (Parser.choice ps) post := by
  induction ps with
  | nil => exact fun _ _ _ _ parsed => nomatch parsed
  | cons p rest ih =>
    obtain ⟨first, others⟩ := List.forall_mem_cons.1 each
    cases rest with
    | nil => exact first
    | cons q rest => exact first.orElse (ih others)

theorem option (yields : Yields good p post) :
    Yields good (Parser.option p) fun found => ∀ a, found = some a → post a := by
  refine .orElse (.bind yields fun a holds => .pure ?_) (.pure nofun)
  intro _ same
  cases same
  exact holds

theorem tokenMap {f : Token → Option α} (made : ∀ t a, good t → f t = some a → post a) :
    Yields good (Parser.tokenMap f) post := by
  intro ts allGood a rest parsed
  unfold Parser.tokenMap at parsed
  split at parsed
  · cases parsed
  · obtain ⟨goodFirst, goodRest⟩ := List.forall_mem_cons.1 allGood
    split at parsed
    · rename_i isMade
      cases parsed
      exact ⟨made _ _ goodFirst isMade, goodRest⟩
    · cases parsed

theorem satisfy (test : Token → Bool) : Yields good (Parser.satisfy test) fun t => good t ∧ test t = true := by
  intro ts allGood a rest parsed
  unfold Parser.satisfy Parser.tokenMap at parsed
  split at parsed
  · cases parsed
  · rename_i t ts'
    obtain ⟨goodFirst, goodRest⟩ := List.forall_mem_cons.1 allGood
    cases passes : test t with
    | false => simp [passes, Parser.fail] at parsed
    | true =>
      obtain ⟨rfl, rfl⟩ : t = a ∧ ts' = rest := by simpa [passes] using parsed
      exact ⟨⟨goodFirst, passes⟩, goodRest⟩

/-- The first step works on `a`, and each other one on what the last one made. -/
theorem iterate {step : α → Parser α} (keeps : ∀ a, post a → Yields good (step a) post) {a : α}
    (holds : post a) : Yields good (Parser.iterate step a) post := by
  have aux : ∀ (fuel : Nat) (a : α), post a → Yields good (iterateAux step fuel a) post := by
    intro fuel
    induction fuel with
    | zero => exact fun a holds => .pure holds
    | succ fuel ih =>
      intro a holds ts allGood b rest parsed
      unfold iterateAux at parsed
      split at parsed
      · cases parsed
        exact ⟨holds, allGood⟩
      · rename_i a' ts' _ isStep
        obtain ⟨holds', allGood'⟩ := keeps a holds ts allGood a' ts' (by rw [isStep])
        exact ih a' holds' ts' allGood' b rest parsed
  exact fun ts => aux _ a holds ts

theorem many (yields : Yields good p post) :
    Yields good (Parser.many p) fun read => ∀ a ∈ read, post a := by
  have step : ∀ read : List α, (∀ a ∈ read, post a) →
      Yields good (Parser.bind p fun a => Parser.pure (a :: read)) fun read => ∀ a ∈ read, post a :=
    fun read holds => .bind yields fun a first => .pure (List.forall_mem_cons.2 ⟨first, holds⟩)
  refine .bind (.iterate step (by simp)) fun read holds => .pure ?_
  simpa using holds

theorem sepBy1 (yields : Yields good p post) {separator : Parser Token} {post' : Token → Prop}
    (separates : Yields good separator post') :
    Yields good (Parser.sepBy1 p separator) fun read => ∀ a ∈ read, post a :=
  .bind yields fun _ first => .bind (.many (.bind separates fun _ _ => yields)) fun _ rest =>
    .pure (List.forall_mem_cons.2 ⟨first, rest⟩)

theorem sepBy (yields : Yields good p post) {separator : Parser Token} {post' : Token → Prop}
    (separates : Yields good separator post') :
    Yields good (Parser.sepBy p separator) fun read => ∀ a ∈ read, post a :=
  .orElse (yields.sepBy1 separates) (.pure (by simp))

theorem between (opening closing : String) (yields : Yields good p post) :
    Yields good (Parser.between opening closing p) post :=
  .bind (.satisfy _) fun _ _ => .bind yields fun _ holds => .bind (.satisfy _) fun _ _ => .pure holds

theorem endOfInput : Yields good Parser.endOfInput fun _ => True := by
  intro ts allGood _ rest parsed
  unfold Parser.endOfInput at parsed
  split at parsed
  · cases parsed
    exact ⟨trivial, by simp⟩
  · cases parsed

/-- What is made of all the tokens. -/
theorem run (yields : Yields good p post) {ts : List Token} (allGood : ∀ t ∈ ts, good t) {a : α}
    (parsed : p.run ts = .ok a) : post a := by
  have ended : Yields good (Parser.bind p fun a => Parser.bind Parser.endOfInput fun _ => Parser.pure a)
      post :=
    .bind yields fun _ holds => .bind .endOfInput fun _ _ => .pure holds
  unfold Parser.run at parsed
  split at parsed
  · rename_i isParsed
    cases parsed
    exact (ended ts allGood a _ (by rw [isParsed])).1
  · cases parsed

end Yields

end ContractCompiler.Parser
