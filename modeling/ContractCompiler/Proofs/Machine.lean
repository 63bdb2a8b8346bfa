import ContractCompiler.Instr
import ContractCompiler.SlotTable

/-!
# Proofs.Machine — the machine that the code runs on

The machine has a memory of 64-bit words, a stack of words and a stack of return positions. Names in
the code mean the addresses of the slot table, and labels mean their positions. An address is a word
read as a signed number, which is how the table counts addresses. Division, remainder and the shifts
are left open: any total functions will do, as long as dividing by one changes nothing.

A position counts the lines of the code; labels, comments and directives are lines that do nothing.
-/

namespace ContractCompiler

set_option autoImplicit false

/-- What the cells hold, by address. -/
abbrev Memory := Int → Word

def Memory.set (m : Memory) (a : Int) (w : Word) : Memory := fun b => if b = a then w else m b

namespace Memory

@[simp] theorem set_self (m : Memory) (a : Int) (w : Word) : m.set a w a = w := by simp [set]

theorem set_of_ne {a b : Int} (ne : b ≠ a) (m : Memory) (w : Word) : m.set a w b = m b := by
  simp [set, ne]

@[simp] theorem set_same (m : Memory) (a : Int) : m.set a (m a) = m := by
  funext b
  by_cases same : b = a <;> simp [set, same]

@[simp] theorem set_set (m : Memory) (a : Int) (v w : Word) : (m.set a v).set a w = m.set a w := by
  funext b
  by_cases same : b = a <;> simp [set, same]

end Memory

/-- The operators that the machine leaves open. -/
structure Arithmetic where
  div : Word → Word → Word
  mod : Word → Word → Word
  shl : Word → Word → Word
  shr : Word → Word → Word
  div_one : ∀ x, div x 1 = x

/-- What an operator computes. -/
def BinaryOp.apply (a : Arithmetic) : BinaryOp → Word → Word → Word
  | .add, x, y => x + y
  | .sub, x, y => x - y
  | .mul, x, y => x * y
  | .div, x, y => a.div x y
  | .or, x, y => x ||| y
  | .and, x, y => x &&& y
  | .xor, x, y => x ^^^ y
  | .mod, x, y => a.mod x y
  | .shl, x, y => a.shl x y
  | .shr, x, y => a.shr x y

theorem BinaryOp.apply_comm {op : BinaryOp} (commutative : op.isCommutative = true)
    (a : Arithmetic) (x y : Word) : op.apply a x y = op.apply a y x := by
  cases op with
  | add => exact UInt64.add_comm x y
  | mul => exact UInt64.mul_comm x y
  | or => exact UInt64.or_comm x y
  | and => exact UInt64.and_comm x y
  | xor => exact UInt64.xor_comm x y
  | _ => cases commutative

/-- Whether a relation holds, between words read as signed numbers. -/
def Relation.holds : Relation → Word → Word → Bool
  | .eq, x, y => x == y
  | .ne, x, y => x != y
  | .lt, x, y => x.toSigned < y.toSigned
  | .le, x, y => x.toSigned ≤ y.toSigned
  | .gt, x, y => y.toSigned < x.toSigned
  | .ge, x, y => y.toSigned ≤ x.toSigned

theorem Relation.holds_negate (r : Relation) (x y : Word) :
    r.negate.holds x y = !r.holds x y := by
  cases r with
  | eq => rfl
  | ne => simp [negate, holds, bne]
  | lt | gt => simp only [negate, holds, ← decide_not, Int.not_lt]
  | le | ge => simp only [negate, holds, ← decide_not, Int.not_le]

/-- What a step adds or takes away. -/
def Step.apply : Step → Word → Word
  | .up, w => w + 1
  | .down, w => w - 1

/-- A word as the truth of a test. -/
def Word.ofBool (b : Bool) : Word := if b then 1 else 0

theorem Word.ofBool_ne_zero (b : Bool) : (Word.ofBool b != 0) = b := by
  cases b <;> rfl

/-- Code, and what the names in it mean. -/
structure Machine where
  arithmetic : Arithmetic
  table : SlotTable
  code : List Instr

namespace Machine

/-- Where the machine is, and what it holds. -/
structure Config where
  pc : Nat
  memory : Memory
  stack : List Word := []
  returns : List Nat := []

namespace Config

def next (c : Config) : Config := { c with pc := c.pc + 1 }

def write (c : Config) (a : Int) (w : Word) : Config :=
  { c with pc := c.pc + 1, memory := c.memory.set a w }

end Config

variable (M : Machine)

/-- The address that a name means. Struct variables have none. -/
def cell? (name : String) : Option Int :=
  match M.table.find? name with
  | some s => if s.address = Slot.nowhere then none else some s.address
  | none => none

def position? (label : String) : Option Nat := M.code.findIdx? (· == .label label)

/-- What the cell of a name holds. -/
def get? (c : Config) (name : String) : Option Word := (M.cell? name).map c.memory

/-- The address of an indirect operand. -/
def address? (c : Config) (base : String) : Option String → Option Int
  | none => (M.get? c base).map Word.toSigned
  | some offset => do return Word.toSigned ((← M.get? c base) + (← M.get? c offset))

/-- On to a label if the condition holds, and else to the next line. -/
def jumpIf (c : Config) (condition : Bool) (target : String) : Option Config :=
  if condition then (M.position? target).map fun pc => { c with pc := pc } else some c.next

def put (c : Config) (dest : String) (w : Word) : Option Config :=
  (M.cell? dest).map fun a => c.write a w

/-- What one line does. The machine halts at the end of an activation, at a name or label that is not
declared, and where the host is called, which is outside of the machine. -/
def perform (c : Config) : Instr → Option Config
  | .program _ _ | .declare _ | .constSet _ _ | .comment _ | .label _ | .resetStart => some c.next
  | .setLiteral dest hex => do M.put c dest (← Word.ofHex? hex)
  | .set dest src => do M.put c dest (← M.get? c src)
  | .clear dest => M.put c dest 0
  | .increment dest => do M.put c dest (Step.up.apply (← M.get? c dest))
  | .decrement dest => do M.put c dest (Step.down.apply (← M.get? c dest))
  | .complement dest => do M.put c dest (~~~ (← M.get? c dest))
  | .binary op dest src => do
    M.put c dest (op.apply M.arithmetic (← M.get? c dest) (← M.get? c src))
  | .load dest base offset => do M.put c dest (c.memory (← M.address? c base offset))
  | .store base offset src => do return c.write (← M.address? c base offset) (← M.get? c src)
  | .branchZero src target => do M.jumpIf c ((← M.get? c src) == 0) target
  | .branchNonzero src target => do M.jumpIf c ((← M.get? c src) != 0) target
  | .branch relation left right target => do
    M.jumpIf c (relation.holds (← M.get? c left) (← M.get? c right)) target
  | .jump target => M.jumpIf c true target
  | .call target => do
    return { c with pc := ← M.position? target, returns := (c.pc + 1) :: c.returns }
  | .ret =>
    match c.returns with
    | [] => none
    | pc :: returns => some { c with pc := pc, returns := returns }
  | .push src => do return { c.next with stack := (← M.get? c src) :: c.stack }
  | .pop dest =>
    match c.stack with
    | [] => none
    | w :: stack => do return { c.write (← M.cell? dest) w with stack := stack }
  | .sleep src => (M.get? c src).map fun _ => c.next
  | .finish | .stop | .host _ _ _ => none

def step (c : Config) : Option Config := M.code[c.pc]?.bind (M.perform c)

end Machine

end ContractCompiler
