import RelayLadder.Instruction.Basic
import RelayLadder.Json.Printer
import RelayLadder.Json.Reader

/-!
# Programs as JSON

A program is an array, and each instruction the array of its tokens.

**Faults.** A text is refused for the first thing that is wrong with it in
reading order.  So a text that is no JSON value, but holds something that no
program has before the place where it stops being one, is refused for that.
-/

namespace RelayLadder

/-- The array of an instruction. -/
def Instruction.toJson (i : Instruction) : Json :=
  .ofStrings i.tokens

namespace Program

/-- Why a JSON text or value is no program. -/
inductive ReadError
  /-- The text is not JSON. -/
  | notJson
  /-- The value, or an item of it, has another shape. -/
  | shape
  /-- An instruction has no tokens. -/
  | emptyInstruction
  deriving DecidableEq, Repr

/-- The array of a program. -/
def toJson (p : Program) : Json :=
  .arr (p.map Instruction.toJson)

/-- The instruction of an array. -/
def instructionOfJson (j : Json) : Except ReadError Instruction :=
  match j.strings? with
  | none => .error .shape
  | some tokens =>
    match Instruction.ofTokens? tokens with
    | none => .error .emptyInstruction
    | some i => .ok i

/-- The program of an array; the first item that is no instruction tells what is wrong. -/
def ofJson (j : Json) : Except ReadError Program :=
  match j.arr? with
  | none => .error .shape
  | some items => items.mapM instructionOfJson

/-- What is wrong with the arrays and objects that are open, outermost first, if they are the start
of a program: the complete items come before those that are still open. -/
def framesFault? : List Json.Frame → Option ReadError
  | [] => none
  | .obj _ _ :: _ => some .shape
  | .arr items :: inner =>
    match items.reverse.mapM instructionOfJson, inner with
    | .error e, _ => some e
    | .ok _, [] => none
    | .ok _, .obj _ _ :: _ => some .shape
    | .ok _, .arr tokens :: deeper =>
      if tokens.all (·.str?.isSome) && deeper.isEmpty then none else some .shape

/-- What is wrong with the part of a program that has been read. -/
def nestingFault? : Json.Nesting → Option ReadError
  | .complete j =>
    match ofJson j with
    | .error e => some e
    | .ok _ => none
  | nesting => framesFault? nesting.frames

/-- The first fault of a text that is no JSON value.  A number, `true`, `false` or `null` is never
part of a program, whatever comes after it. -/
def firstFault (text : String) : ReadError :=
  let (p, rest) := Json.Progress.start.advance text.toList
  match nestingFault? p.nesting, p.lexeme with
  | some e, _ => e
  | none, .word read =>
    if p.nesting.wantsValue && Json.Lexeme.startsWithScalar (read.reverse ++ rest) then
      .shape
    else
      .notJson
  | none, _ => .notJson

/-- The program that a JSON text denotes. -/
def ofJsonText (text : String) : Except ReadError Program :=
  match Json.parse? text with
  | none => .error (firstFault text)
  | some j => ofJson j

end Program
end RelayLadder
