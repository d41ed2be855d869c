import RelayLadder.Fault

/-!
# Canvas

A canvas is a grid of characters with a cursor.  It grows while it is drawn on:
a step to the right of the last column widens every row by repeating its last
character, so that wires run on and blank rows stay blank; a step below the
last row appends a blank row.

**Depth.** The canvas remembers the lowest row reached since `openDepth`.
Depths nest: `closeDepth` gives the depth of the inner part and goes on with the
outer one.

**Stops.** A move over the left or upper edge is a fault.  All other stops are
accesses to what is not there.  A row is looked up by its number, and the width
is that of the first row, so both need a row.  A cell is written only if its row
has it, and the rest of a row is filled only from a column of the row or from
its end.  Numbers of rows and columns are not negative.  A row cannot be longer
than `widthLimit`, which is tested where a canvas is made.
-/

namespace RelayLadder

/-- A position on a canvas. -/
structure Marker where
  row : Nat
  col : Nat
  deriving DecidableEq, Repr

/-- A grid of characters, its cursor, and the lowest row reached. -/
structure Canvas where
  rows : List (List Char)
  row : Nat
  col : Nat
  deepest : Nat
  deriving DecidableEq, Repr

/-- Why drawing stops. -/
inductive Stop
  /-- The input is at fault. -/
  | fault (cause : Fault)
  /-- A row that does not exist was looked up. -/
  | noRow (row : Nat)
  /-- A cell beyond the end of its row was to be written. -/
  | noCell (row col : Nat)
  /-- A row was to be filled from a column beyond its end. -/
  | noCells (row start : Nat)
  /-- A number was to be taken away from a smaller one. -/
  | negative (minuend subtrahend : Nat)
  /-- A row was to be made longer than any row can be. -/
  | tooWide (width : Nat)
  deriving DecidableEq, Repr

/-- The wording of a stop. -/
def Stop.message : Stop → String
  | fault cause => cause.message
  | noRow row => s!"the canvas has no row {row}"
  | noCell row col => s!"row {row} has no column {col}"
  | noCells row start => s!"row {row} ends before column {start}"
  | negative minuend subtrahend => s!"{subtrahend} is more than {minuend}"
  | tooWide _ => "capacity overflow"

namespace Canvas

section Grid

/-- A canvas with one blank row. -/
def blank (width : Nat) : Canvas :=
  ⟨[List.replicate width ' '], 0, 0, 0⟩

/-- Rows are shorter than this: a cell takes four bytes, and a row takes less than `2 ^ 63`. -/
def widthLimit : Nat :=
  Nat.pow 2 61

/-- A canvas with one blank row, which must not be too long. -/
def ofWidth (width : Nat) : Except Stop Canvas :=
  if width < widthLimit then
    .ok (blank width)
  else
    .error (.tooWide width)

/-- The width, which all rows share. -/
def width (c : Canvas) : Nat :=
  (c.rows.headD []).length

/-- The number of rows. -/
def height (c : Canvas) : Nat :=
  c.rows.length

/-- A row made longer by `n` copies of its last character, or of a space if it is empty. -/
def stretch (n : Nat) (row : List Char) : List Char :=
  row ++ List.replicate n (row.getLast?.getD ' ')

/-- The canvas made wider by `n` columns. -/
def widenBy (n : Nat) (c : Canvas) : Canvas :=
  { c with rows := c.rows.map (stretch n) }

/-- The position of the cursor. -/
def marker (c : Canvas) : Marker :=
  ⟨c.row, c.col⟩

/-- The cursor moved to a position, whether or not the grid reaches it. -/
def goto (m : Marker) (c : Canvas) : Canvas :=
  { c with row := m.row, col := m.col }

/-- The rows between borders, in reading order.  The row that the canvas started with ends up
last on the grid; it is read first. -/
def schematic (c : Canvas) : String :=
  let rows := c.rows.drop (c.height - 1) ++ c.rows.take (c.height - 1)
  "\n".intercalate (rows.map fun row => "||" ++ String.ofList row ++ "||")

/-- The schematic of a canvas, which must have a row to be read first. -/
def finish (c : Canvas) : Except Stop String :=
  if 1 ≤ c.height then
    .ok c.schematic
  else
    .error (.negative c.height 1)

end Grid

/-- A drawing action.  What it has drawn stays when it stops. -/
abbrev Action := EStateM Stop Canvas

namespace Action

section Lookups

/-- A row that must exist. -/
def rowAt (i : Nat) : Action (List Char) := do
  match (← get).rows[i]? with
  | some row => return row
  | none => throw (.noRow i)

/-- The row under the cursor. -/
def currentRow : Action (List Char) := do
  rowAt (← get).row

/-- The width of the grid, which is that of its first row. -/
def gridWidth : Action Nat := do
  return (← rowAt 0).length

/-- A difference that must not be negative. -/
def difference (m n : Nat) : Action Nat :=
  if n ≤ m then
    return m - n
  else
    throw (.negative m n)

end Lookups

section Moves

/-- Widens the grid until the cursor is in one of its columns. -/
def reach : Action Unit := do
  let width ← gridWidth
  let c ← get
  if width ≤ c.col then
    set (c.widenBy (c.col + 1 - width))

/-- One cell to the left. -/
def left : Action Unit := do
  let c ← get
  if c.col = 0 then
    throw (.fault (.canvasEdge .left c.row c.col))
  else
    set { c with col := c.col - 1 }

/-- One cell to the right. -/
def right : Action Unit := do
  modify fun c => { c with col := c.col + 1 }
  reach

/-- One cell up. -/
def up : Action Unit := do
  let c ← get
  if c.row = 0 then
    throw (.fault (.canvasEdge .up c.row c.col))
  else
    set { c with row := c.row - 1 }

/-- Appends a blank row if the cursor is right below the last one. -/
def extend : Action Unit := do
  let c ← get
  if c.row = c.height then
    let width ← gridWidth
    set { c with rows := c.rows ++ [List.replicate width ' '] }

/-- One cell down. -/
def down : Action Unit := do
  modify fun c => { c with row := c.row + 1 }
  extend
  modify fun c => { c with deepest := max c.deepest c.row }

/-- To a position, whether or not the grid reaches it. -/
def goto (m : Marker) : Action Unit :=
  modify (Canvas.goto m)

/-- To the last row. -/
def bottom : Action Unit := do
  let last ← difference (← get).height 1
  modify fun c => { c with row := last }

/-- To the last column; on a grid without columns, to its edge. -/
def lineEnd : Action Unit := do
  let width ← gridWidth
  modify fun c => { c with col := width - 1 }

/-- To the first column of the next row. -/
def newline : Action Unit := do
  modify fun c => { c with col := 0 }
  down

end Moves

section Cells

/-- The character under the cursor; a space to the right of the grid. -/
def peek : Action Char := do
  let row ← currentRow
  return row.getD (← get).col ' '

/-- Writes a character into the cell under the cursor, which must exist. -/
def setCell (ch : Char) : Action Unit := do
  let row ← currentRow
  let c ← get
  if c.col < row.length then
    set { c with rows := c.rows.set c.row (row.set c.col ch) }
  else
    throw (.noCell c.row c.col)

/-- Writes a character under the cursor. -/
def put (ch : Char) : Action Unit := do
  reach
  setCell ch

/-- Writes a character into the cell to the right of the cursor. -/
def putNext (ch : Char) : Action Unit := do
  right
  put ch

/-- Writes a text from the cursor on.  The cursor ends on its last character; without a text
nothing happens. -/
def draw (text : String) : Action Unit :=
  match text.toList with
  | [] => pure ()
  | first :: rest => do
    put first
    rest.forM putNext

/-- Writes a character into the cells from the cursor to the end of the row, which must reach the
cursor. -/
def setCells (ch : Char) : Action Unit := do
  let row ← currentRow
  let c ← get
  if c.col ≤ row.length then
    let filled := row.take c.col ++ List.replicate (row.length - c.col) ch
    set { c with rows := c.rows.set c.row filled }
  else
    throw (.noCells c.row c.col)

/-- Fills the row from the cursor on.  The cursor ends on the last column; to the right of the grid
nothing happens. -/
def fill (ch : Char) : Action Unit := do
  let width ← gridWidth
  if (← get).col < width then
    setCells ch
    let last ← difference width 1
    modify fun c => { c with col := last }

/-- Goes up `n` rows.  In each row left behind, the character under the cursor is redrawn by the
text that `table` gives for it, if it gives one. -/
def redrawUp (table : Char → Option String) : Nat → Action Unit
  | 0 => pure ()
  | n + 1 => do
    let here := (← get).marker
    match table (← peek) with
    | some text => draw text
    | none => pure ()
    goto here
    up
    redrawUp table n

/-- Goes up to row `top`, redrawing the column by `table` in the rows left behind. -/
def redrawUpTo (top : Nat) (table : Char → Option String) : Action Unit := do
  redrawUp table ((← get).row - top)

end Cells

section Depth

/-- Starts a depth at the cursor's row.  The result is the depth of the outer part so far. -/
def openDepth : Action Nat := do
  let c ← get
  set { c with deepest := c.row }
  return c.deepest

/-- Ends a depth and gives it; the outer part, whose depth so far is `outer`, goes on. -/
def closeDepth (outer : Nat) : Action Nat := do
  let c ← get
  set { c with deepest := max outer c.deepest }
  return c.deepest

end Depth

end Action
end Canvas
end RelayLadder
