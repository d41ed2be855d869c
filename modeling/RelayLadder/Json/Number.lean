import RelayLadder.Json.Basic
import RelayLadder.Json.Double

/-!
# Number literals

**Form.** An optional minus sign, digits without a leading zero, an optional
fraction and an optional exponent, each with at least one digit.

**Range.** A literal is valued in double precision as a product: its leading
digits, as many as make a number below `2 ^ 64`, times a power of ten, both
rounded first.  Digits beyond those only count for the power.  The literal is
refused when the product is not finite or the power is above `10 ^ 308`.
-/

namespace RelayLadder
namespace Json
namespace Number

section Form

/-- The digits before and after the point, and the exponent.  The sign is left out. -/
structure Parts where
  whole : List Char
  fraction : List Char
  exponent : Int
  deriving DecidableEq, Repr

/-- The exponent at the front of a text, without a mark zero, and what follows it. -/
def exponent? : List Char → Option (Int × List Char)
  | [] => some (0, [])
  | mark :: rest =>
    if mark == 'e' || mark == 'E' then
      let (negative, rest) :=
        match rest with
        | '-' :: rest => (true, rest)
        | '+' :: rest => (false, rest)
        | rest => (false, rest)
      let digits := rest.takeWhile Char.isDigit
      let size : Int := natOfDigits digits
      if digits.isEmpty then
        none
      else
        some (if negative then -size else size, rest.dropWhile Char.isDigit)
    else
      some (0, mark :: rest)

/-- The rest of a literal whose whole part is `whole`, and what follows it. -/
def afterWhole? (whole : List Char) : List Char → Option (Parts × List Char)
  | '.' :: rest =>
    let digits := rest.takeWhile Char.isDigit
    if digits.isEmpty then
      none
    else
      (exponent? (rest.dropWhile Char.isDigit)).map fun (e, rest) => (⟨whole, digits, e⟩, rest)
  | rest => (exponent? rest).map fun (e, rest) => (⟨whole, [], e⟩, rest)

/-- The literal without a sign at the front of a text, and what follows it. -/
def unsigned? (s : List Char) : Option (Parts × List Char) :=
  let whole := s.takeWhile Char.isDigit
  if whole.isEmpty || (whole.head? == some '0' && 1 < whole.length) then
    none
  else
    afterWhole? whole (s.dropWhile Char.isDigit)

/-- The longest literal at the front of a text, and what follows it.  There is none if a point, a
mark or a sign lacks the digits after it. -/
def scan? : List Char → Option (Parts × List Char)
  | '-' :: rest => unsigned? rest
  | s => unsigned? s

end Form

section Range

/-- The number made of `n` and the digits that follow it, up to the first digit that would make it
`2 ^ 64` or more, and how many digits that are. -/
def leading (n : Nat) : List Char → Nat × Nat
  | [] => (n, 0)
  | digit :: rest =>
    let next := 10 * n + natOfDigits [digit]
    if next < Nat.pow 2 64 then
      let (m, count) := leading next rest
      (m, count + 1)
    else
      (n, 0)

/-- The leading digits of a literal as a number, and the power of ten that goes with them. -/
def Parts.scaled (p : Parts) : Nat × Int :=
  let (n, wholeCount) := leading 0 p.whole
  let (m, fractionCount) := leading n p.fraction
  (m, p.exponent + ((p.whole.length - wholeCount : Nat) : Int) - (fractionCount : Int))

/-- Whether a literal is in the range.  Zero and negative powers of ten never leave it. -/
def Parts.isInRange (p : Parts) : Bool :=
  let (n, power) := p.scaled
  n == 0 || power < 0 ||
    (power ≤ 308 &&
      Double.isFiniteProduct (Double.nearest n) (Double.nearest (Nat.pow 10 power.toNat)))

/-- Whether a text starts with a number literal within the range. -/
def startsWithLiteral (s : List Char) : Bool :=
  match scan? s with
  | some (p, _) => p.isInRange
  | none => false

/-- Whether a text is a number literal within the range. -/
def isLiteral (s : List Char) : Bool :=
  match scan? s with
  | some (p, []) => p.isInRange
  | _ => false

end Range

end Number
end Json
end RelayLadder
