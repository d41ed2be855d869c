import RelayLadder.Diagnostic.Code

/-!
# Diagnostics

A diagnostic is a report about an input: an identifier, a severity, a message,
and, where they are known, the place in the text and named details.  A place is
a span of bytes.
-/

namespace RelayLadder

/-- The bytes from `start` up to, and without, `stop`. -/
structure Span where
  start : Nat
  stop : Nat
  deriving DecidableEq, Repr

namespace Span

/-- The span between two bounds, refused when they are in the wrong order. -/
def between? (start stop : Nat) : Option Span :=
  if start ≤ stop then some ⟨start, stop⟩ else none

/-- Why `between?` refuses its bounds. -/
def orderMessage (start stop : Nat) : String :=
  s!"Span end ({stop}) < start ({start})"

end Span

/-- How grave a diagnostic is. -/
inductive Severity
  | error
  | warn
  | info
  deriving DecidableEq, Repr

namespace Severity

/-- The written form of a severity. -/
def name : Severity → String
  | error => "error"
  | warn => "warn"
  | info => "info"

/-- The severity with a given written form. -/
def ofName? (name : String) : Option Severity :=
  [error, warn, info].find? (·.name == name)

end Severity

/-- A report about an input.  The details of `context` are sorted by name. -/
structure Diagnostic where
  id : String
  severity : Severity
  message : String
  span : Option Span
  context : Option (List (String × String))
  deriving DecidableEq, Repr

namespace Diagnostic

/-- The one-line form of a diagnostic. -/
def display (d : Diagnostic) : String :=
  s!"{d.severity.name}[{d.id}]: {d.message}"

/-- The explanation of the diagnostic's code, if the code is known. -/
def explanation (d : Diagnostic) : Option String :=
  explain d.id

end Diagnostic
end RelayLadder
