import RelayLadder.Fault
import RelayLadder.Text.Basic

/-!
# Rows and rungs

A schematic is drawn between borders `||`.  What stands between the borders of
one line is a row, and a rung is a row with the rows that hang below it.  All
rows of a rung share their columns, so a row is a list of cells.
-/

namespace RelayLadder

/-- The cells of one bordered line, and the byte at which the first of them stands. -/
structure Row where
  cells : List Char
  offset : Nat
  deriving DecidableEq, Repr

namespace Row

/-- The cell in a column. -/
def get? (row : Row) (col : Nat) : Option Char :=
  row.cells[col]?

/-- The number of cells. -/
def length (row : Row) : Nat :=
  row.cells.length

/-- The cells from `col` up to, and without, `stop`. -/
def between (row : Row) (col stop : Nat) : List Char :=
  (row.cells.take stop).drop col

/-- The byte at which a column stands; columns beyond the row stand at its end. -/
def byteAt (row : Row) (col : Nat) : Nat :=
  row.offset + Text.byteSize (row.cells.take col)

/-- The text from a column on, without the blanks at its end. -/
def remainder (row : Row) (col : Nat) : String :=
  String.ofList (Text.trimEnd (row.cells.drop col))

/-- The fault that the row cannot be read from `col` on. -/
def malformed (row : Row) (flaw : Flaw) (col : Nat) : Fault :=
  .malformed flaw (row.remainder col) ⟨row.byteAt col, row.byteAt row.length⟩

/-- Whether the row starts with a wire, as the first row of a rung does. -/
def opensRung (row : Row) : Bool :=
  row.get? 0 == some '-'

end Row

/-- A row of a schematic with the rows that hang below it. -/
structure Rung where
  rows : List Row
  deriving DecidableEq, Repr

end RelayLadder
