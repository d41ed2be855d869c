import RelayLadder.Json.Number

/-!
# Reading JSON

**Input.** A text, which must be exactly one value.  Space, tab, line feed and
carriage return may stand between tokens; no other blank may.

**Algorithm.** The text is read one character at a time.  `Lexeme.step` turns
characters into tokens, and `Nesting.accept` puts tokens together to values.
Neither looks ahead, so reading is a fold over the text, and reading a text in
two halves is the same as reading it in one go.

**Objects.** Of members with the same name the last one counts.

**Strings.** Controls below U+0020 must be escaped.  A code above U+FFFF is
written as a high and a low surrogate; either alone is refused.
-/

namespace RelayLadder
namespace Json

section Tokens

/-- The smallest parts of a JSON text. -/
inductive Token
  | openArr
  | closeArr
  | openObj
  | closeObj
  | comma
  | colon
  | text (s : String)
  | scalar (value : Json)

/-- What the characters since the last complete token are part of.  Characters read so far are in
reverse order. -/
inductive Lexeme
  /-- Nothing. -/
  | between
  /-- A number, `true`, `false` or `null`. -/
  | word (read : List Char)
  /-- A string. -/
  | string (read : List Char)
  /-- A string, just after a backslash. -/
  | escape (read : List Char)
  /-- The digits of a code, of which `missing` are still to come.  `high` is the high surrogate
  before it, if there is one. -/
  | code (read : List Char) (high : Option Nat) (value missing : Nat)
  /-- A string, just after a high surrogate. -/
  | surrogate (read : List Char) (high : Nat)
  /-- A string, after a high surrogate and a backslash. -/
  | surrogateEscape (read : List Char) (high : Nat)

namespace Lexeme

/-- The value of a hexadecimal digit. -/
def hexValue? (c : Char) : Option Nat :=
  if '0' ≤ c ∧ c ≤ '9' then some (c.toNat - '0'.toNat)
  else if 'a' ≤ c ∧ c ≤ 'f' then some (c.toNat - 'a'.toNat + 10)
  else if 'A' ≤ c ∧ c ≤ 'F' then some (c.toNat - 'A'.toNat + 10)
  else none

/-- The character that a backslash and a letter stand for. -/
def shortEscape? : Char → Option Char
  | '"' => some '"'
  | '\\' => some '\\'
  | '/' => some '/'
  | 'b' => some '\x08'
  | 'f' => some '\x0c'
  | 'n' => some '\x0a'
  | 'r' => some '\x0d'
  | 't' => some '\x09'
  | _ => none

/-- The state of a string after a complete code. -/
def afterCode (read : List Char) (high : Option Nat) (value : Nat) : Option Lexeme :=
  let isHigh := 0xD800 ≤ value && value < 0xDC00
  let isLow := 0xDC00 ≤ value && value < 0xE000
  match high with
  | some h =>
    if isLow then
      some (string (Char.ofNat (0x10000 + (h - 0xD800) * 0x400 + (value - 0xDC00)) :: read))
    else
      none
  | none =>
    if isHigh then some (surrogate read value)
    else if isLow then none
    else some (string (Char.ofNat value :: read))

/-- The token of a single character. -/
def punctuation? : Char → Option Token
  | '[' => some .openArr
  | ']' => some .closeArr
  | '\x7b' => some .openObj
  | '\x7d' => some .closeObj
  | ',' => some .comma
  | ':' => some .colon
  | _ => none

/-- Whether a character may stand between tokens. -/
def isSpace (c : Char) : Bool :=
  c == ' ' || c == '\t' || c == '\n' || c == '\r'

/-- Whether a character can be part of a number, `true`, `false` or `null`. -/
def isWordChar (c : Char) : Bool :=
  c.isDigit || c.isLower || c == '-' || c == '+' || c == '.' || c == 'E'

/-- The value of a complete word. -/
def wordValue? (read : List Char) : Option Json :=
  let word := read.reverse
  if word = "null".toList then some .null
  else if word = "true".toList then some (.bool true)
  else if word = "false".toList then some (.bool false)
  else if Number.isLiteral word then some (.num (String.ofList word))
  else none

/-- Whether a text starts with a number, `true`, `false` or `null`, whatever follows it. -/
def startsWithScalar (s : List Char) : Bool :=
  ["null", "true", "false"].any (·.toList.isPrefixOf s) || Number.startsWithLiteral s

/-- A character outside strings and words. -/
def start (c : Char) : Option (List Token × Lexeme) :=
  if isSpace c then some ([], between)
  else if c = '"' then some ([], string [])
  else if isWordChar c then some ([], word [c])
  else (punctuation? c).map fun token => ([token], between)

/-- The tokens completed by a character, and the lexeme from then on. -/
def step : Lexeme → Char → Option (List Token × Lexeme)
  | between, c => start c
  | word read, c =>
    if isWordChar c then
      some ([], word (c :: read))
    else do
      let value ← wordValue? read
      let (tokens, lexeme) ← start c
      return (.scalar value :: tokens, lexeme)
  | string read, c =>
    if c = '"' then some ([.text (String.ofList read.reverse)], between)
    else if c = '\\' then some ([], escape read)
    else if c.toNat < 0x20 then none
    else some ([], string (c :: read))
  | escape read, c =>
    if c = 'u' then some ([], code read none 0 4)
    else (shortEscape? c).map fun ch => ([], string (ch :: read))
  | code read high value missing, c => do
    let digit ← hexValue? c
    let value := 16 * value + digit
    if missing ≤ 1 then
      let lexeme ← afterCode read high value
      return ([], lexeme)
    else
      return ([], code read high value (missing - 1))
  | surrogate read high, c =>
    if c = '\\' then some ([], surrogateEscape read high) else none
  | surrogateEscape read high, c =>
    if c = 'u' then some ([], code read (some high) 0 4) else none

/-- The tokens completed by the end of the text. -/
def finish : Lexeme → Option (List Token)
  | between => some []
  | word read => (wordValue? read).map fun value => [.scalar value]
  | _ => none

end Lexeme

end Tokens

section Values

/-- An open array or object.  Its items and members are in reverse order. -/
inductive Frame
  | arr (items : List Json)
  /-- An object that waits for the value of `name`. -/
  | obj (members : List (String × Json)) (name : String)

/-- What may come next, inside the open arrays and objects `outer`, innermost first. -/
inductive Nesting
  /-- A value. -/
  | value (outer : List Frame)
  /-- The first item of an array, or its end. -/
  | firstItem (outer : List Frame)
  /-- The next item of an array, or its end. -/
  | afterItem (items : List Json) (outer : List Frame)
  /-- The first member of an object, or its end. -/
  | firstName (outer : List Frame)
  /-- The name of a member. -/
  | nextName (members : List (String × Json)) (outer : List Frame)
  /-- The colon after a name. -/
  | colon (members : List (String × Json)) (name : String) (outer : List Frame)
  /-- The next member of an object, or its end. -/
  | afterMember (members : List (String × Json)) (outer : List Frame)
  /-- Nothing: the value is complete. -/
  | complete (value : Json)

namespace Nesting

/-- Whether a value may start. -/
def wantsValue : Nesting → Bool
  | value _ => true
  | firstItem _ => true
  | _ => false

/-- The open arrays and objects, outermost first. -/
def frames : Nesting → List Frame
  | value outer => outer.reverse
  | firstItem outer => (.arr [] :: outer).reverse
  | afterItem items outer => (.arr items :: outer).reverse
  | firstName outer => (.obj [] "" :: outer).reverse
  | nextName members outer => (.obj members "" :: outer).reverse
  | colon members name outer => (.obj members name :: outer).reverse
  | afterMember members outer => (.obj members "" :: outer).reverse
  | complete _ => []

/-- A value has been read. -/
def deliver (v : Json) : List Frame → Nesting
  | [] => complete v
  | .arr items :: outer => afterItem (v :: items) outer
  | .obj members name :: outer =>
    afterMember ((name, v) :: members.filter (·.1 != name)) outer

/-- A token where a value must start. -/
def begin (outer : List Frame) : Token → Option Nesting
  | .openArr => some (firstItem outer)
  | .openObj => some (firstName outer)
  | .text s => some (deliver (.str s) outer)
  | .scalar v => some (deliver v outer)
  | _ => none

/-- One token. -/
def accept : Nesting → Token → Option Nesting
  | value outer, token => begin outer token
  | firstItem outer, .closeArr => some (deliver (.arr []) outer)
  | firstItem outer, token => begin (.arr [] :: outer) token
  | afterItem items outer, .comma => some (value (.arr items :: outer))
  | afterItem items outer, .closeArr => some (deliver (.arr items.reverse) outer)
  | firstName outer, .closeObj => some (deliver (.obj []) outer)
  | firstName outer, .text s => some (colon [] s outer)
  | nextName members outer, .text s => some (colon members s outer)
  | colon members s outer, .colon => some (value (.obj members s :: outer))
  | afterMember members outer, .comma => some (nextName members outer)
  | afterMember members outer, .closeObj => some (deliver (.obj members.reverse) outer)
  | _, _ => none

end Nesting

end Values

section Reading

/-- How far a text has been read. -/
structure Progress where
  lexeme : Lexeme
  nesting : Nesting

namespace Progress

/-- Before the first character. -/
def start : Progress :=
  ⟨.between, .value []⟩

/-- One character. -/
def feed (p : Progress) (c : Char) : Option Progress := do
  let (tokens, lexeme) ← p.lexeme.step c
  let nesting ← tokens.foldlM Nesting.accept p.nesting
  return ⟨lexeme, nesting⟩

/-- Reads a text as far as it can be part of a value.  The result is the progress made and the text
that is left. -/
def advance (p : Progress) : List Char → Progress × List Char
  | [] => (p, [])
  | c :: rest =>
    match p.feed c with
    | some next => next.advance rest
    | none => (p, c :: rest)

/-- The value, if it is complete at the end of the text. -/
def result (p : Progress) : Option Json := do
  let tokens ← p.lexeme.finish
  match ← tokens.foldlM Nesting.accept p.nesting with
  | .complete v => some v
  | _ => none

end Progress

/-- The value that a text denotes. -/
def parse? (text : String) : Option Json := do
  let p ← text.toList.foldlM Progress.feed .start
  p.result

end Reading

end Json
end RelayLadder
