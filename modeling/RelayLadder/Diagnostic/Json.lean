import RelayLadder.Diagnostic.Basic
import RelayLadder.Json.Basic

/-!
# Diagnostics as JSON

**Writing.** A diagnostic is an object whose members stand in the order of its
fields; a missing place or missing details are left out.

**Reading.** Members may come in any order and unknown ones are ignored.  An
array of the fields in order is read too, if none is missing.  A place is read
as it stands, also when its bounds are in the wrong order.
-/

namespace RelayLadder

/-- The fields of a record: the members with the given names, where `null` stands for a missing
one, or all items of an array in the same order. -/
def Json.fields? (names : List String) : Json → Option (List Json)
  | .obj members => some (names.map fun name => (members.lookup name).getD .null)
  | .arr items => if items.length = names.length then some items else none
  | _ => none

/-- A value that may be missing. -/
def Json.optional? {α : Type} (read : Json → Option α) : Json → Option (Option α)
  | .null => some none
  | j => (read j).map some

namespace Span

/-- The object of a span. -/
def toJson (s : Span) : Json :=
  .obj [("start", .ofNat s.start), ("end", .ofNat s.stop)]

/-- The span of an object. -/
def ofJson? (j : Json) : Option Span := do
  match ← j.fields? ["start", "end"] with
  | [start, stop] => return ⟨← start.nat?, ← stop.nat?⟩
  | _ => none

end Span

namespace Severity

/-- The severity of its name, or of an object with its name as the only member and `null` as the
value. -/
def ofJson? : Json → Option Severity
  | .str name => ofName? name
  | .obj [(name, .null)] => ofName? name
  | _ => none

end Severity

namespace Diagnostic

section Writing

/-- The object of named details. -/
def contextToJson (context : List (String × String)) : Json :=
  .obj (context.map fun (name, value) => (name, .str value))

/-- The object of a diagnostic. -/
def toJson (d : Diagnostic) : Json :=
  .obj
    ([("id", .str d.id), ("severity", .str d.severity.name), ("message", .str d.message)] ++
      (d.span.map fun s => ("span", s.toJson)).toList ++
      (d.context.map fun c => ("context", contextToJson c)).toList)

end Writing

section Reading

/-- Details with one more, in the order of the names.  A detail of the same name is replaced. -/
def insertDetail (name value : String) : List (String × String) → List (String × String)
  | [] => [(name, value)]
  | (other, found) :: rest =>
    if name < other then (name, value) :: (other, found) :: rest
    else if name = other then (name, value) :: rest
    else (other, found) :: insertDetail name value rest

/-- The details of an object, sorted by name. -/
def contextOfJson? : Json → Option (List (String × String))
  | .obj members =>
    members.foldlM
      (fun context (name, value) => value.str?.map fun s => insertDetail name s context) []
  | _ => none

/-- The diagnostic of an object. -/
def ofJson? (j : Json) : Option Diagnostic := do
  match ← j.fields? ["id", "severity", "message", "span", "context"] with
  | [id, severity, message, span, context] =>
    return {
      id := ← id.str?
      severity := ← Severity.ofJson? severity
      message := ← message.str?
      span := ← span.optional? Span.ofJson?
      context := ← context.optional? contextOfJson? }
  | _ => none

end Reading

end Diagnostic
end RelayLadder
