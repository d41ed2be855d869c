import RelayLadder.Instruction.Basic

/-!
# Folding negations into names

A leading `/` in a name marks its negation.  A drawing can negate only names,
so an `invert` that stands next to the name it applies to is folded into it:

* `read n`, `invert` becomes `read (toggle n)`;
* `invert`, `write n` becomes `write (toggle n)`.

**Streaming.** Folding looks one instruction ahead.  `Folding.step` takes the
instruction held back so far and the next one, and gives the instructions that
are now settled together with the one that is held back next.
-/

namespace RelayLadder

/-- The name with its negation mark removed if there is one, and added if not. -/
def toggle (name : String) : String :=
  match name.toList with
  | '/' :: plain => String.ofList plain
  | plain => String.ofList ('/' :: plain)

namespace Folding

/-- The instructions settled by `next` after `held`, and the one held back from now on.
A `write` that follows a held instruction settles both. -/
def step (held : Option Instruction) (next : Instruction) :
    List Instruction × Option Instruction :=
  match held, next with
  | some (.read name), .invert => ([.read (toggle name)], none)
  | some .invert, .write name => ([.write (toggle name)], none)
  | some held, .write name => ([held, .write name], none)
  | held, next => (held.toList, some next)

/-- What becomes of a program when `held` is held back before it. -/
def run (held : Option Instruction) : Program → Program
  | [] => held.toList
  | next :: rest =>
    let (settled, held) := step held next
    settled ++ run held rest

end Folding

/-- The program with its negations folded into names. -/
def Program.folded (p : Program) : Program :=
  Folding.run none p

end RelayLadder
