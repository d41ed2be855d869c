import RelayLadder.Expr.Basic
import RelayLadder.Json.Basic

/-!
# Expressions and coils as JSON

**Writing.** An expression is an object whose first member is its `kind`,
followed by its fields.  A coil is an object with `name` and `value`.

**Reading.** Members may come in any order and unknown ones are ignored.  An
array is read too: the kind of an expression followed by its fields, or the two
fields of a coil, with none missing and none added.

**Kinds.** The kind of an expression is given by its name.  Inside another
expression it may also be given by its number, counted from zero.

Every part of a value is read as an expression on the way up, and the parts
that are none are told apart where a field asks for them.
-/

namespace RelayLadder

namespace Expr

section Writing

/-- The object of an expression. -/
def toJson : Expr → Json
  | contact name => .obj [("kind", .str "contact"), ("name", .str name)]
  | call tokens => .obj [("kind", .str "call"), ("tokens", .ofStrings tokens)]
  | not operand => .obj [("kind", .str "not"), ("operand", operand.toJson)]
  | and left right =>
    .obj [("kind", .str "and"), ("left", left.toJson), ("right", right.toJson)]
  | or left right =>
    .obj [("kind", .str "or"), ("left", left.toJson), ("right", right.toJson)]

end Writing

section Reading

/-- A value together with the expression that it denotes inside another one, if it denotes one. -/
structure Part where
  json : Json
  expr? : Option Expr

/-- Where an expression stands: by itself, or inside another one. -/
inductive Place
  | outer
  | inner
  deriving DecidableEq, Repr

/-- The names of the kinds, in the order of their numbers. -/
def kindNames : List String :=
  ["contact", "call", "not", "and", "or"]

/-- The name of the kind that a value gives. -/
def kindOf? (place : Place) (j : Json) : Option String :=
  match place with
  | .outer => j.str?
  | .inner => j.str? <|> j.nat?.bind (kindNames[·]?)

/-- The names of the fields of a kind. -/
def fieldNames : String → List String
  | "contact" => ["name"]
  | "call" => ["tokens"]
  | "not" => ["operand"]
  | "and" => ["left", "right"]
  | "or" => ["left", "right"]
  | _ => []

/-- The expression of a kind with the given fields. -/
def ofFields? : String → List Part → Option Expr
  | "contact", [name] => name.json.str?.map contact
  | "call", [tokens] => tokens.json.strings?.map call
  | "not", [operand] => operand.expr?.map not
  | "and", [left, right] => do return and (← left.expr?) (← right.expr?)
  | "or", [left, right] => do return or (← left.expr?) (← right.expr?)
  | _, _ => none

/-- The expression of an object with the given members. -/
def ofMembers? (place : Place) (members : List (String × Part)) : Option Expr := do
  let kind ← kindOf? place (← members.lookup "kind").json
  let fields ← (fieldNames kind).mapM fun name => members.lookup name
  ofFields? kind fields

/-- The expression of an array with the given items. -/
def ofItems? (place : Place) : List Part → Option Expr
  | [] => none
  | kind :: fields => do ofFields? (← kindOf? place kind.json) fields

mutual

/-- The expression that a value denotes at its place. -/
def read? (place : Place) : Json → Option Expr
  | .obj members => ofMembers? place (memberParts members)
  | .arr items => ofItems? place (itemParts items)
  | _ => none

/-- The members of an object with the expressions that they denote. -/
def memberParts : List (String × Json) → List (String × Part)
  | [] => []
  | (name, j) :: rest => (name, ⟨j, read? .inner j⟩) :: memberParts rest

/-- The items of an array with the expressions that they denote. -/
def itemParts : List Json → List Part
  | [] => []
  | j :: rest => ⟨j, read? .inner j⟩ :: itemParts rest

end

/-- The expression that a value denotes. -/
def ofJson? (j : Json) : Option Expr :=
  read? .outer j

end Reading

end Expr

namespace Coil

/-- The object of a coil. -/
def toJson (c : Coil) : Json :=
  .obj [("name", .str c.name), ("value", c.value.toJson)]

/-- The array of coils. -/
def listToJson (coils : List Coil) : Json :=
  .arr (coils.map toJson)

/-- The coil that a value denotes. -/
def ofJson? : Json → Option Coil
  | .obj members => do
    return ⟨← (← members.lookup "name").str?, ← Expr.ofJson? (← members.lookup "value")⟩
  | .arr [name, value] => do return ⟨← name.str?, ← Expr.ofJson? value⟩
  | _ => none

/-- The coils that an array denotes. -/
def listOfJson? (j : Json) : Option (List Coil) := do
  (← j.arr?).mapM ofJson?

end Coil
end RelayLadder
