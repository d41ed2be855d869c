import RelayLadder.Diagnostic.Basic

/-!
# Faults

What can be wrong with a schematic or a program.  A fault records its cause;
`Fault.message` is its wording, `Fault.code` its diagnostic code and
`Fault.diagnostic` the full report.
-/

namespace RelayLadder

/-- What is wrong at a place of a rung. -/
inductive Flaw
  /-- No element starts with the character. -/
  | unrecognized
  /-- An element has no closing character. -/
  | unterminated (closer : Char)
  /-- A parallel block has no right rail. -/
  | unclosedBranch
  /-- A coil stands inside a branch. -/
  | coilInBranch
  /-- A contact, coil or call has no content. -/
  | emptyOperand
  deriving DecidableEq, Repr

namespace Flaw

/-- The wording of a flaw. -/
def message : Flaw → String
  | unrecognized => "unrecognized construct"
  | unterminated closer => s!"missing closing `{closer}`"
  | unclosedBranch => "parallel block has no right rail"
  | coilInBranch => "coil inside a parallel branch"
  | emptyOperand => "empty operand"

/-- The diagnostic code of a flaw. -/
def code : Flaw → Diagnostic.Code
  | unrecognized => .unrecognized
  | unterminated _ => .unterminated
  | unclosedBranch => .unclosedBranch
  | coilInBranch => .coilInBranch
  | emptyOperand => .emptyOperand

end Flaw

/-- A direction in which the drawing cursor can be refused. -/
inductive Direction
  | left
  | up
  deriving DecidableEq, Repr

/-- The written form of a direction. -/
def Direction.name : Direction → String
  | left => "left"
  | up => "up"

/-- Every cause for which a schematic or a program is refused. -/
inductive Fault
  /-- A row cannot be read from some column on.  `remainder` is its text from there,
  without the blanks at its end, and `span` the place of the whole rest of the row. -/
  | malformed (flaw : Flaw) (remainder : String) (span : Span)
  /-- An instruction needs more operands than the stack holds. -/
  | underflow (mnemonic : String) (needed available : Nat)
  /-- Operands are left when the program ends. -/
  | danglingOperands (count : Nat)
  /-- Something other than a contact is negated; `operand` names its kind. -/
  | undrawableNegation (operand : String)
  /-- The cursor was to leave the canvas at `row` and `col`. -/
  | canvasEdge (direction : Direction) (row col : Nat)
  deriving DecidableEq, Repr

namespace Fault

/-- The wording of a fault. -/
def message : Fault → String
  | malformed flaw remainder _ => s!"syntax error: {flaw.message} at `{remainder}`"
  | underflow mnemonic needed available =>
    s!"stack underflow: `{mnemonic}` needs {needed} operand(s), {available} available"
  | danglingOperands count =>
    s!"{count} operand(s) left on the stack after the last `out`"
  | undrawableNegation operand =>
    s!"cannot draw a negated {operand}; only contacts and coils can be negated"
  | canvasEdge direction row col =>
    s!"canvas cursor moved {direction.name} past the edge at row {row}, column {col}"

/-- The diagnostic code of a fault. -/
def code : Fault → Diagnostic.Code
  | malformed flaw _ _ => flaw.code
  | underflow _ _ _ => .underflow
  | danglingOperands _ => .danglingOperands
  | undrawableNegation _ => .undrawableNegation
  | canvasEdge _ _ _ => .canvasEdge

/-- The details of a fault, sorted by name. -/
def context : Fault → List (String × String)
  | malformed _ remainder _ => [("remainder", remainder)]
  | underflow mnemonic needed available =>
    [("available", toString available), ("mnemonic", mnemonic), ("needed", toString needed)]
  | danglingOperands count => [("count", toString count)]
  | undrawableNegation operand => [("operand", operand)]
  | canvasEdge direction row col =>
    [("col", toString col), ("direction", direction.name), ("row", toString row)]

/-- The report of a fault.  Only a malformed row has a place in a text; its remainder
stands among the details and not in the message. -/
def diagnostic (f : Fault) : Diagnostic where
  id := f.code.id
  severity := .error
  message :=
    match f with
    | malformed flaw _ _ => s!"syntax error: {flaw.message}"
    | f => f.message
  span :=
    match f with
    | malformed _ _ span => some span
    | _ => none
  context := some f.context

end Fault
end RelayLadder
