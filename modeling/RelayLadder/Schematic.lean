import RelayLadder.Drawing
import RelayLadder.Receiver
import RelayLadder.Rung.Split
import RelayLadder.Wire.Reader

/-!
# Schematics and programs

The two directions of the toolchain.

* `compile` reads the program of a schematic.
* `decompile` draws a program.  It works on the stream of instructions: a coil
  is drawn as soon as it is complete, before the rest of the program is looked
  at, so of two faults the one met first is reported.
* `Schematic.ofCoils` draws coils that are given as such.

A drawing is at least `width` columns wide between its borders.

**Canvases.** Both drawings start on a blank canvas.  `Schematic.emit` and
`Schematic.emitProgram` have to make the canvas first, and stop if no row can be
`width` columns long; otherwise they are the drawings above.
-/

namespace RelayLadder

/-- The program of a schematic. -/
def compile (text : String) : Except Fault Program :=
  Program.ofRungs (Rung.split text)

namespace Schematic

/-- The schematic that a drawing action leaves on a canvas. -/
def ofResult {σ : Type} (canvas : σ → Canvas) :
    EStateM.Result Stop σ Unit → Except Stop String
  | .ok _ s => (canvas s).finish
  | .error stop _ => .error stop

/-- The schematic of coils, one rung for each. -/
def ofCoils (coils : List Coil) (width : Nat) : Except Stop String :=
  ofResult id ((coils.forM Drawing.coil).run (.blank width))

/-- The schematic of coils, on a canvas that has to be made first. -/
def emit (coils : List Coil) (width : Nat) : Except Stop String := do
  let canvas ← Canvas.ofWidth width
  ofResult id ((coils.forM Drawing.coil).run canvas)

/-- The state of drawing a stream: the instruction held back, the operands, and the canvas. -/
abbrev Stream := Option Instruction × List Expr × Canvas

namespace Stream

/-- The state before the first instruction. -/
def start (width : Nat) : Stream :=
  (none, [], .blank width)

/-- The canvas of a stream. -/
def canvas (s : Stream) : Canvas :=
  s.2.2

/-- The receiver that draws a stream of instructions. -/
def receiver : Receiver Stream :=
  .folding (.building Drawing.coil)

end Stream
end Schematic

/-- The schematic of a program. -/
def decompile (p : Program) (width : Nat) : Except Stop String :=
  Schematic.ofResult Schematic.Stream.canvas
    ((Schematic.Stream.receiver.send p).run (.start width))

/-- The schematic of a program, on a canvas that has to be made first. -/
def Schematic.emitProgram (p : Program) (width : Nat) : Except Stop String := do
  let canvas ← Canvas.ofWidth width
  ofResult Stream.canvas ((Stream.receiver.send p).run (none, [], canvas))

end RelayLadder
