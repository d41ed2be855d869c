import RelayLadder.Canvas.Basic
import RelayLadder.Expr.Basic

/-!
# Drawing coils

**Input.** Coils in order.

**Layout.** Each coil is a rung of its own.  Elements in series are drawn from
left to right.  The branches of a block are drawn from top to bottom between
two rails; a branch starts one rail row below the lowest row that the branch
above it reaches, every branch is wired to the right edge, and the right rail
is drawn last, upward from the bottom branch.

**Negation.** Only contacts have a negated form.  Any other negation is a
fault, and what was drawn before it stays.
-/

namespace RelayLadder
namespace Drawing

open Canvas (Action)
open Canvas.Action

section Elements

/-- Draws a text and goes to the cell after it. -/
def element (text : String) : Action Unit := do
  draw text
  right

/-- Draws a contact. -/
def contact (name : String) : Action Unit :=
  element ("--[" ++ name ++ "]--")

/-- Draws a call. -/
def call (tokens : List String) : Action Unit :=
  element ("--\x7b" ++ " ".intercalate tokens ++ "\x7d--")

end Elements

section Blocks

/-- Draws `n` cells of a left rail, downward from below the cursor. -/
def leftRail : Nat → Action Unit
  | 0 => pure ()
  | n + 1 => do
    down
    put '|'
    leftRail n

/-- Draws a branch from its junction under the cursor and gives the lowest row that it reaches. -/
def branch (body : Action Unit) : Action Nat := do
  put '+'
  right
  let outer ← openDepth
  body
  let lowest ← closeDepth outer
  fill '-'
  return lowest

/-- Draws the branches below a branch whose junction is at `left` and whose lowest row is
`lowest`, and gives the junction of the last one. -/
def lowerBranches (left : Marker) (lowest : Nat) : List (Action Unit) → Action Marker
  | [] => return left
  | body :: rest => do
    goto left
    leftRail (lowest + 1 - left.row)
    down
    let left := (← get).marker
    let lowest ← branch body
    lowerBranches left lowest rest

/-- What the right rail makes of a cell: a wire becomes a junction, a gap becomes rail. -/
def railGlyph : Char → Option String
  | ' ' => some "| "
  | '-' => some "+ "
  | _ => none

/-- Draws a block from the drawings of its branches, top to bottom. -/
def block (top : Action Unit) (below : List (Action Unit)) : Action Unit := do
  element "--"
  let corner := (← get).marker
  let lowest ← branch top
  let left ← lowerBranches corner lowest below
  goto left
  lineEnd
  redrawUpTo corner.row railGlyph
  element "+--"

end Blocks

section Expressions

/-- Draws branches: a single one as it stands, several as a block. -/
def drawBranches : List (Action Unit) → Action Unit
  | [] => pure ()
  | [body] => body
  | top :: below => block top below

/-- The drawings of the branches of an expression. -/
def branchesOf : Expr → List (Action Unit)
  | .contact name => [contact name]
  | .call tokens => [call tokens]
  | .not (.contact name) => [contact (toggle name)]
  | .not operand => [throw (.fault (.undrawableNegation operand.kind))]
  | .and left right =>
    [do
      drawBranches (branchesOf left)
      drawBranches (branchesOf right)]
  | .or left right => branchesOf left ++ [drawBranches (branchesOf right)]

/-- Draws an expression. -/
def expr (e : Expr) : Action Unit :=
  drawBranches (branchesOf e)

/-- Draws a coil as a rung of its own and goes to the start of the next one. -/
def coil (c : Coil) : Action Unit := do
  let start := (← get).marker
  fill '-'
  goto start
  expr c.value
  draw ("--(" ++ c.name ++ ")--")
  bottom
  down
  newline

end Expressions

end Drawing
end RelayLadder
