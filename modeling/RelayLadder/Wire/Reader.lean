import RelayLadder.Rung.Basic
import RelayLadder.Wire.Basic

/-!
# Reading the wire of a rung

**Input.** A row, the rows below it, and a region of its columns: from `col` up
to, and without, `stop`.

**Algorithm.** Cells are taken from left to right.  `-` is skipped; `[`, `{`
and, on the rung row, `(` start an element that ends at the first closing
character inside the region; `+` starts a block.  Blanks up to the end of the
region end the wire.

**Blocks.** The branch rows of a block are its own row and the rows met going
down its left column while that column shows `|` or `+`, at every `+`.  Its
right rail is the first column that shows `+` on every branch row and `|` or
`+` on the rows between them.  A branch is read in the region between the two
rails, so every region lies strictly inside the one around it.
-/

namespace RelayLadder
namespace Wire

section Elements

/-- Where a wire is read.  Coils stand on the rung row only. -/
inductive Scope
  | rung
  | branch
  deriving DecidableEq, Repr

/-- The cells after the one in column `col`, up to the first `closer` of the region. -/
def inside? (row : Row) (closer : Char) (col stop : Nat) : Option (List Char) :=
  let region := row.between (col + 1) stop
  if region.contains closer then
    some (region.takeWhile (· != closer))
  else
    none

/-- A name without the blanks around it, and whether a negation mark stands before it. -/
def nameOf (text : List Char) : String × Bool :=
  match Text.trim text with
  | '/' :: name => (String.ofList (Text.trim name), true)
  | name => (String.ofList name, false)

/-- The content of an element that must be closed and must not be empty. -/
def operand (row : Row) (closer : Char) (col stop : Nat) (isEmpty : List Char → Bool) :
    Except Fault (List Char) :=
  match inside? row closer col stop with
  | none => .error (row.malformed (.unterminated closer) col)
  | some text =>
    if isEmpty text then
      .error (row.malformed .emptyOperand col)
    else
      .ok text

/-- Whether a text holds no name. -/
def isNameless (text : List Char) : Bool :=
  (nameOf text).1.isEmpty

/-- Whether a text holds no word. -/
def isWordless (text : List Char) : Bool :=
  (Text.words text).isEmpty

end Elements

section Blocks

/-- The rows that hang from column `col`: those met going down while it shows `|` or `+`. -/
def hanging (col : Nat) (below : List Row) : List Row :=
  below.takeWhile fun row => row.get? col == some '|' || row.get? col == some '+'

/-- The branch rows among `below`, each with the rows below it. -/
def branchRows (col : Nat) : List Row → List (Row × List Row)
  | [] => []
  | row :: below =>
    if row.get? col == some '+' then
      (row, below) :: branchRows col below
    else if row.get? col == some '|' then
      branchRows col below
    else
      []

/-- The hanging rows down to the last branch row. -/
def spanned (col : Nat) (below : List Row) : List Row :=
  ((hanging col below).reverse.dropWhile fun row => row.get? col != some '+').reverse

/-- Whether `x` closes a row of a block whose left column is `col`. -/
def closesRow (col x : Nat) (row : Row) : Bool :=
  row.get? x == some '+' || (row.get? x == some '|' && row.get? col != some '+')

/-- The columns strictly between `col` and `stop`, in order. -/
def columns (col stop : Nat) : List Nat :=
  List.range' (col + 1) (stop - (col + 1))

/-- The first column that closes every row of the block at column `col` of `row`. -/
def rightRail? (row : Row) (below : List Row) (col stop : Nat) : Option Nat :=
  let rows := row :: spanned col below
  (columns col stop).find? fun x => rows.all (closesRow col x)

theorem rightRail?_bounds
    {row : Row} {below : List Row} {col stop x : Nat}
    (h : rightRail? row below col stop = some x) :
    col < x ∧ x < stop := by
  have hx := List.mem_of_find?_eq_some h
  rw [columns, List.mem_range'_1] at hx
  omega

end Blocks

section Wires

/-- The wire in the region from `col` to `stop` of `row`, above the rows `below`. -/
def readFrom (scope : Scope) (row : Row) (below : List Row) (col stop : Nat) :
    Except Fault Wire :=
  if _hcol : col < stop then
    match row.get? col with
    | none => .ok .finish
    | some '-' => readFrom scope row below (col + 1) stop
    | some '[' => do
      let text ← operand row ']' col stop isNameless
      let rest ← readFrom scope row below (col + text.length + 2) stop
      let (name, negated) := nameOf text
      return .contact name negated rest
    | some '\x7b' => do
      let text ← operand row '\x7d' col stop isWordless
      let rest ← readFrom scope row below (col + text.length + 2) stop
      return .call ((Text.words text).map String.ofList) rest
    | some '(' =>
      match scope with
      | .branch => .error (row.malformed .coilInBranch col)
      | .rung => do
        let text ← operand row ')' col stop isNameless
        let rest ← readFrom scope row below (col + text.length + 2) stop
        let (name, negated) := nameOf text
        return .coil name negated rest
    | some '+' =>
      match hrail : rightRail? row below col stop with
      | none => .error (row.malformed .unclosedBranch col)
      | some close => do
        have := rightRail?_bounds hrail
        let branches ← ((row, below) :: branchRows col below).mapM fun (top, under) =>
          readFrom .branch top under (col + 1) close
        let rest ← readFrom scope row below (close + 1) stop
        return .block branches rest
    | some _ =>
      if (row.between col stop).all Text.isBlank then
        .ok .finish
      else
        .error (row.malformed .unrecognized col)
  else
    .ok .finish
termination_by stop - col

end Wires

end Wire

namespace Rung

/-- The wire of a rung: the whole of its first row is read. -/
def wire (rung : Rung) : Except Fault Wire :=
  match rung.rows with
  | [] => .ok .finish
  | row :: below => Wire.readFrom .rung row below 0 row.length

/-- The program of a rung. -/
def program (rung : Rung) : Except Fault Program :=
  rung.wire.map Wire.code

end Rung

/-- The program of rungs in order; the first fault ends the reading. -/
def Program.ofRungs (rungs : List Rung) : Except Fault Program :=
  (rungs.mapM Rung.program).map List.flatten

end RelayLadder
