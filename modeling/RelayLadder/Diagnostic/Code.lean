/-!
# Diagnostic codes

Every fault has a code.  A code has an identifier of the form `LLnnnn` and an
explanation.  The thousands digit tells where the fault was found: `1` while a
rung was read, `2` while trees were built or drawn, `3` on the canvas.
-/

namespace RelayLadder
namespace Diagnostic

/-- The kinds of fault that are reported. -/
inductive Code
  | unrecognized
  | unterminated
  | unclosedBranch
  | coilInBranch
  | emptyOperand
  | underflow
  | undrawableNegation
  | danglingOperands
  | canvasEdge
  deriving DecidableEq, Repr

namespace Code

/-- The codes in the order of their identifiers. -/
def all : List Code :=
  [unrecognized, unterminated, unclosedBranch, coilInBranch, emptyOperand,
    underflow, undrawableNegation, danglingOperands, canvasEdge]

/-- The identifier of a code. -/
def id : Code → String
  | unrecognized => "LL1001"
  | unterminated => "LL1002"
  | unclosedBranch => "LL1003"
  | coilInBranch => "LL1004"
  | emptyOperand => "LL1005"
  | underflow => "LL2001"
  | undrawableNegation => "LL2002"
  | danglingOperands => "LL2003"
  | canvasEdge => "LL3001"

/-- The code with a given identifier. -/
def ofId? (id : String) : Option Code :=
  all.find? (·.id == id)

/-- What a code means, for a person who meets it. -/
def explanation : Code → String
  | unrecognized =>
    "The rung parser expected a contact `[name]`, a coil `(name)`, a call " ++
    "`\x7btokens\x7d`, or a parallel block opening `+`, but found another character. " ++
    "Only `-` may fill the space between elements."
  | unterminated =>
    "A contact, coil, or call was opened but its closing `]`, `)`, or `\x7d` does " ++
    "not appear later on the same row (or inside the enclosing branch)."
  | unclosedBranch =>
    "A parallel block opened with `+` has no right rail: no column to its right " ++
    "shows `+` on every branch row and `|` or `+` on every row in between."
  | coilInBranch =>
    "Coils terminate a whole rung expression and must sit on the rung row, " ++
    "after every parallel block has closed."
  | emptyOperand =>
    "Contacts and coils need a name, and calls need at least one token."
  | underflow =>
    "The instruction sequence is not a well-formed postfix program: an " ++
    "instruction consumed more operands than had been pushed."
  | danglingOperands =>
    "Every value pushed onto the stack must be written to a coil by a later " ++
    "`out`. Operands remaining after the last `out` have no drawing, so the " ++
    "sequence is rejected instead of silently dropping them. In a schematic this " ++
    "means contacts follow the last coil of a rung."
  | undrawableNegation =>
    "Schematics can only negate single contacts `[/name]` and coils `(/name)`. " ++
    "A `not` applied to a combined expression or a call has no drawing."
  | canvasEdge =>
    "The schematic renderer moved its cursor above the first row or left of the " ++
    "first column. This indicates a renderer bug."

end Code

/-- The explanation of the code with a given identifier, if there is one. -/
def explain (id : String) : Option String :=
  (Code.ofId? id).map Code.explanation

end Diagnostic
end RelayLadder
