import ContractCompiler.Proofs.Bind.Relate
import ContractCompiler.Proofs.Account

/-!
# Proofs.Bind.Calls — calls are bound to the functions of the contract

A bound expression calls a function only by its name, with as many arguments as the function has
parameters, and knows the type of its value; all else that it calls is offered by the host
(`Names.relates_callsOf`).
-/

namespace ContractCompiler

set_option autoImplicit false

open Outcome (Ensures)

theorem Node.allCallsOf_of_forall₂ {functions : List Signature} {es : List Expr} {ns : List Node}
    (calls : List.Forall₂ (fun _ n => n.CallsOf functions) es ns) :
    AllCallsOf functions ns ∧ ns.length = es.length := by
  induction calls with
  | nil => exact ⟨trivial, rfl⟩
  | cons first _ ih => exact ⟨⟨first, ih.1⟩, congrArg (· + 1) ih.2⟩

/-- The calls of a phrase are known. -/
def Command.CallsOf (functions : List Signature) : Command → Prop
  | .control _ operand _ => ∀ n, operand = some n → n.CallsOf functions
  | .value node => node.CallsOf functions

namespace Names

variable {names : Names}

/-- An expression calls the functions of the contract as their signatures say. -/
theorem relates_callsOf (names : Names) :
    names.Relates (fun _ => True) False fun _ n => n.CallsOf names.functions where
  stored _ _ _ _ _ _ _ := trivial
  member e name field nameLine line _ _ := by
    refine .of_ensures ((names.memberSlot_isSlot name nameLine field line).mono ?_)
    rintro _ ⟨s, rfl⟩
    trivial
  literal _ _ _ _ := trivial
  view _ _ _ _ _ _ _ _ _ _ _ _ := trivial
  deref _ _ _ calls _ := calls
  lookup _ _ _ calls calls' _ _ := ⟨calls, calls'⟩
  arrow _ _ _ _ _ calls _ := ⟨calls, trivial⟩
  prefixed _ _ _ _ _ _ calls := calls
  stepped _ _ _ _ calls := calls
  assign _ _ _ _ calls calls' := ⟨calls, calls'⟩
  binary _ _ _ calls calls' := ⟨calls, calls'⟩
  compare _ _ _ calls calls' := ⟨calls, calls'⟩
  logic _ _ _ calls calls' := ⟨calls, calls'⟩
  ternary _ calls callsYes callsNo := ⟨calls, callsYes, callsNo⟩
  call {_ _ function callee _} _ known calls := by
    obtain ⟨calls, count⟩ := Node.allCallsOf_of_forall₂ calls
    cases callee with
    | inl f =>
      have name : f.name = function := by simpa using List.find?_some known.1
      exact ⟨⟨f, name ▸ known.1, known.2.trans count.symm, rfl⟩, calls⟩
    | inr c => exact ⟨List.mem_of_find?_eq_some known.1, calls⟩

theorem phrase_callsOf (tokens : List Token) (line : Nat) :
    Ensures (names.phrase tokens line) fun found => ∀ c, found = some c →
      c.CallsOf names.functions := by
  rintro _ isPhrase c rfl
  obtain ⟨p, -, bound⟩ := phrase_relates names.relates_callsOf isPhrase
  cases bound with
  | value calls => exact calls
  | keyword _ => simp [Command.CallsOf]
  | control _ calls =>
    rintro _ ⟨⟩
    exact calls

theorem condition_callsOf (tokens : List Token) (line : Nat) :
    Ensures (names.condition tokens line) (·.CallsOf names.functions) := by
  intro n isNode
  obtain ⟨e, calls⟩ := condition_relates names.relates_callsOf isNode
  exact calls

end Names

end ContractCompiler
