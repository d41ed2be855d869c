import RelayLadder.Rung.Basic

/-!
# Splitting a schematic into rungs

**Input.** Any text.

**Rule.** Blanks around the whole text and at the end of each line do not
count.  A line that starts and ends with `||`, the two apart, is a bordered
line; all others are commentary.  A bordered line whose content starts with `-`
opens a new rung; every other one hangs below the rung before it.
-/

namespace RelayLadder
namespace Rung

section Lines

/-- What stands between the borders of a bordered line. -/
def content? : List Char → Option (List Char)
  | '|' :: '|' :: rest =>
    match rest.reverse with
    | '|' :: '|' :: inner => some inner.reverse
    | _ => none
  | _ => none

/-- The rows of consecutive lines, the first of which starts at byte `start`. -/
def rowsFrom (start : Nat) : List (List Char) → List Row
  | [] => []
  | line :: rest =>
    let next := start + Text.byteSize line + 1
    match content? (Text.trimEnd line) with
    | some cells => ⟨cells, start + 2⟩ :: rowsFrom next rest
    | none => rowsFrom next rest

/-- The rows of a text, each with its place in it. -/
def rowsOf (text : List Char) : List Row :=
  rowsFrom (Text.byteSize (text.takeWhile Text.isBlank)) (Text.lines (Text.trim text))

end Lines

section Groups

/-- The rungs formed by rows in order. -/
def group (rows : List Row) : List Rung :=
  (rows.splitBy fun _ next => !next.opensRung).map Rung.mk

/-- The rungs of a schematic. -/
def split (text : String) : List Rung :=
  group (rowsOf text.toList)

end Groups

end Rung
end RelayLadder
