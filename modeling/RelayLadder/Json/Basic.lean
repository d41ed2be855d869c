/-!
# JSON values

A number is kept as it is written, and an object as its members in order.
-/

namespace RelayLadder

/-- A JSON value. -/
inductive Json
  | null
  | bool (value : Bool)
  | num (literal : String)
  | str (value : String)
  | arr (items : List Json)
  | obj (members : List (String × Json))
  deriving Repr

namespace Json

section Building

/-- The number of a natural number. -/
def ofNat (n : Nat) : Json :=
  .num (toString n)

/-- An array of strings. -/
def ofStrings (items : List String) : Json :=
  .arr (items.map .str)

/-- The string of a text that may be missing; `null` stands for none. -/
def ofString? : Option String → Json
  | some s => .str s
  | none => .null

end Building

section Reading

/-- The text of a string. -/
def str? : Json → Option String
  | .str s => some s
  | _ => none

/-- The items of an array. -/
def arr? : Json → Option (List Json)
  | .arr items => some items
  | _ => none

/-- The value of a decimal numeral. -/
def natOfDigits (digits : List Char) : Nat :=
  digits.foldl (fun n c => 10 * n + (c.toNat - '0'.toNat)) 0

/-- The value of a number that is written with digits only and is below `2 ^ 64`. -/
def nat? : Json → Option Nat
  | .num literal =>
    let digits := literal.toList
    if digits.all Char.isDigit && natOfDigits digits < Nat.pow 2 64 then
      some (natOfDigits digits)
    else
      none
  | _ => none

/-- The texts of an array of strings. -/
def strings? (j : Json) : Option (List String) :=
  j.arr?.bind (·.mapM str?)

/-- The value of a member of an object. -/
def get? (j : Json) (name : String) : Option Json :=
  match j with
  | .obj members => members.lookup name
  | _ => none

end Reading

end Json
end RelayLadder
