import RelayLadder.Fault
import RelayLadder.Negation

/-!
# Expressions and coils

An expression is the value that drives a coil.  `Coil.ofProgram` rebuilds the
coils of a program: operands are collected on a stack, and each `write` takes
the topmost one.

**Stack.** The head of the list is the top.  An instruction that finds too few
operands is refused, and the stack stays as it was.  `Operands.act` is an
instruction as an action on the stack, which counts the operands before it takes
any; `Operands.step` gives the stack after an instruction.
-/

namespace RelayLadder

/-- A boolean expression. -/
inductive Expr
  | contact (name : String)
  | call (tokens : List String)
  | not (operand : Expr)
  | and (left right : Expr)
  | or (left right : Expr)
  deriving DecidableEq, Repr

namespace Expr

/-- The name of the kind of an expression. -/
def kind : Expr → String
  | contact _ => "contact"
  | call _ => "call"
  | not _ => "not"
  | and _ _ => "and"
  | or _ _ => "or"

/-- The terms of a conjunction that leans to the left; any other expression is its only term. -/
def terms : Expr → List Expr
  | and left right => left.terms ++ [right]
  | e => [e]

/-- The branches of a disjunction that leans to the left; any other expression is its only
branch. -/
def branches : Expr → List Expr
  | or left right => left.branches ++ [right]
  | e => [e]

end Expr

/-- A named coil with the expression that drives it. -/
structure Coil where
  name : String
  value : Expr
  deriving DecidableEq, Repr

namespace Operands

/-- The refusal of an instruction that needs more operands than the stack holds. -/
def shortage (i : Instruction) (needed : Nat) (stack : List Expr) : Fault :=
  .underflow i.mnemonic needed stack.length

section Actions

variable {α : Type}

/-- The only operand of a list. -/
def one? : List Expr → Option Expr
  | [e] => some e
  | _ => none

/-- The two operands of a list. -/
def two? : List Expr → Option (Expr × Expr)
  | [left, right] => some (left, right)
  | _ => none

/-- Takes the topmost `n` operands, the earliest one first, for an instruction that needs as many.
They are counted before any of them is taken. -/
def pop (i : Instruction) (n : Nat) (convert : List Expr → Option α) :
    EStateM Fault (List Expr) α := do
  let stack ← get
  if stack.length < n then
    throw (shortage i n stack)
  else
    set (stack.drop n)
    match convert (stack.take n).reverse with
    | some operands => return operands
    | none => throw (shortage i n stack)

/-- Puts an operand on top. -/
def push (e : Expr) : EStateM Fault (List Expr) (Option Coil) := do
  modify (e :: ·)
  return none

/-- One instruction on the stack.  The result is the coil that it completes, if any. -/
def act (i : Instruction) : EStateM Fault (List Expr) (Option Coil) :=
  match i with
  | .read name => push (.contact name)
  | .call tokens => push (.call tokens)
  | .invert => do
    let operand ← pop i 1 one?
    push (.not operand)
  | .conj => do
    let (left, right) ← pop i 2 two?
    push (.and left right)
  | .disj => do
    let (left, right) ← pop i 2 two?
    push (.or left right)
  | .write name => do
    let value ← pop i 1 one?
    return some ⟨name, value⟩

end Actions

/-- One instruction: the stack after it, and the coil that it completes, if any. -/
def step (stack : List Expr) (i : Instruction) : Except Fault (List Expr × Option Coil) :=
  match i, stack with
  | .read name, stack => .ok (.contact name :: stack, none)
  | .call tokens, stack => .ok (.call tokens :: stack, none)
  | .invert, operand :: stack => .ok (.not operand :: stack, none)
  | .conj, right :: left :: stack => .ok (.and left right :: stack, none)
  | .disj, right :: left :: stack => .ok (.or left right :: stack, none)
  | .write name, value :: stack => .ok (stack, some ⟨name, value⟩)
  | .invert, stack => .error (shortage i 1 stack)
  | .conj, stack => .error (shortage i 2 stack)
  | .disj, stack => .error (shortage i 2 stack)
  | .write _, stack => .error (shortage i 1 stack)

/-- The coils of a program that starts with the given stack.  No operand may be left. -/
def coils (stack : List Expr) : Program → Except Fault (List Coil)
  | [] =>
    match stack with
    | [] => .ok []
    | stack => .error (.danglingOperands stack.length)
  | i :: rest => do
    let (stack, coil) ← step stack i
    let others ← coils stack rest
    return coil.toList ++ others

end Operands

/-- The coils of a program after its negations are folded. -/
def Coil.ofProgram (p : Program) : Except Fault (List Coil) :=
  Operands.coils [] p.folded

end RelayLadder
