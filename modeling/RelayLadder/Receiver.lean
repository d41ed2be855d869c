import RelayLadder.Canvas.Basic
import RelayLadder.Expr.Basic

/-!
# Receivers of instructions

A receiver takes the instructions of a program one at a time and is told when
the program ends.  Its state is kept when it refuses an instruction, so that a
stream can go on after a fault.

Receivers are stacked: `folding r` folds negations on the way to `r`, and
`building accept` collects operands and hands each completed coil to `accept`.
-/

namespace RelayLadder

/-- What is done with the next instruction, and at the end of the program. -/
structure Receiver (σ : Type) where
  push : Instruction → EStateM Stop σ Unit
  finish : EStateM Stop σ Unit

namespace Receiver

section State

variable {σ τ α : Type}

/-- An action on the first part of a state, whose faults are stops. -/
def onFirst (act : EStateM Fault σ α) : EStateM Stop (σ × τ) α := fun (s, t) =>
  match act s with
  | .ok a s => .ok a (s, t)
  | .error cause s => .error (.fault cause) (s, t)

/-- An action on the second part of a state. -/
def onSecond (act : EStateM Stop τ α) : EStateM Stop (σ × τ) α := fun (s, t) =>
  match act t with
  | .ok a t => .ok a (s, t)
  | .error e t => .error e (s, t)

/-- Replaces the first part of a state. -/
def setFirst (s : σ) : EStateM Stop (σ × τ) Unit :=
  modify fun (_, t) => (s, t)

end State

section Stages

variable {σ : Type}

/-- Folds negations.  The state holds the instruction held back; none is held back after a
refusal. -/
def folding (r : Receiver σ) : Receiver (Option Instruction × σ) where
  push next := do
    let (held, _) ← get
    let (settled, held) := Folding.step held next
    setFirst none
    onSecond (settled.forM r.push)
    setFirst held
  finish := do
    let (held, _) ← get
    setFirst none
    onSecond (held.toList.forM r.push)
    onSecond r.finish

/-- Builds coils.  The state holds the operands; they are dropped at the end of the program. -/
def building (accept : Coil → EStateM Stop σ Unit) : Receiver (List Expr × σ) where
  push i := do
    let coil ← onFirst (Operands.act i)
    onSecond (coil.toList.forM accept)
  finish := do
    let (stack, _) ← get
    if stack.isEmpty then
      pure ()
    else
      setFirst []
      throw (.fault (.danglingOperands stack.length))

/-- Sends a whole program. -/
def send (r : Receiver σ) (p : Program) : EStateM Stop σ Unit := do
  p.forM r.push
  r.finish

end Stages

end Receiver
end RelayLadder
