import RelayLadder.Json.Basic
import RelayLadder.Text.Basic

/-!
# Writing JSON

**Compact.** No space anywhere.

**Pretty.** One item a line, each level indented by two more spaces, a space
after the colon, and nothing between the brackets of an empty array or object.

**Strings.** Only the quote, the backslash and the controls below U+0020 are
escaped; five controls have short forms, the others are written as four
hexadecimal digits in lower case.
-/

namespace RelayLadder
namespace Json

section Strings

/-- The hexadecimal digit of a number below 16, in lower case. -/
def hexDigit (n : Nat) : Char :=
  if n < 10 then Char.ofNat ('0'.toNat + n) else Char.ofNat ('a'.toNat + (n - 10))

/-- The written form of a character inside a string. -/
def escape (c : Char) : List Char :=
  if c = '"' then ['\\', '"']
  else if c = '\\' then ['\\', '\\']
  else if c = '\x08' then ['\\', 'b']
  else if c = '\x09' then ['\\', 't']
  else if c = '\x0a' then ['\\', 'n']
  else if c = '\x0c' then ['\\', 'f']
  else if c = '\x0d' then ['\\', 'r']
  else if c.toNat < 0x20 then
    ['\\', 'u', '0', '0', hexDigit (c.toNat / 16), hexDigit (c.toNat % 16)]
  else [c]

/-- The written form of a string. -/
def quoted (s : String) : List Char :=
  '"' :: s.toList.flatMap escape ++ ['"']

end Strings

section Layout

/-- How the parts of a value are set apart. -/
structure Layout where
  /-- What stands before an item at a nesting depth, and before a closing bracket. -/
  lineBreak : Nat → List Char
  /-- What stands between the name and the value of a member. -/
  colon : List Char

/-- No space anywhere. -/
def Layout.compact : Layout where
  lineBreak _ := []
  colon := [':']

/-- One item a line, two spaces a level. -/
def Layout.pretty : Layout where
  lineBreak depth := '\n' :: List.replicate (2 * depth) ' '
  colon := [':', ' ']

/-- Written items between brackets, at the depth of the brackets. -/
def Layout.bracketed (l : Layout) (depth : Nat) (opener closer : Char) :
    List (List Char) → List Char
  | [] => [opener, closer]
  | items =>
    opener :: Text.joinWith [','] (items.map (l.lineBreak (depth + 1) ++ ·)) ++
      l.lineBreak depth ++ [closer]

end Layout

section Values

mutual

/-- The written form of a value at a nesting depth. -/
def write (l : Layout) (depth : Nat) : Json → List Char
  | .null => "null".toList
  | .bool true => "true".toList
  | .bool false => "false".toList
  | .num literal => literal.toList
  | .str s => quoted s
  | .arr items => l.bracketed depth '[' ']' (writeItems l (depth + 1) items)
  | .obj members => l.bracketed depth '\x7b' '\x7d' (writeMembers l (depth + 1) members)

/-- The written forms of the items of an array. -/
def writeItems (l : Layout) (depth : Nat) : List Json → List (List Char)
  | [] => []
  | item :: rest => write l depth item :: writeItems l depth rest

/-- The written forms of the members of an object. -/
def writeMembers (l : Layout) (depth : Nat) : List (String × Json) → List (List Char)
  | [] => []
  | (name, value) :: rest =>
    (quoted name ++ l.colon ++ write l depth value) :: writeMembers l depth rest

end

/-- The compact text of a value. -/
def compact (j : Json) : String :=
  String.ofList (write .compact 0 j)

/-- The pretty text of a value. -/
def pretty (j : Json) : String :=
  String.ofList (write .pretty 0 j)

end Values

end Json
end RelayLadder
