/-!
# Blanks, pieces and byte counts

Text is handled as a list of characters.

**Blanks.** A character is blank when it has the Unicode property `White_Space`.
`trimStart`, `trimEnd` and `trim` remove blanks at the ends, and `words` takes
the maximal runs between blanks.

**Pieces.** `pieces p s` cuts `s` at every character that satisfies `p`.  The
cut characters are dropped, and a text with `n` of them has `n + 1` pieces.

**Bytes.** `byteSize` is the length of the UTF-8 form.
-/

namespace RelayLadder
namespace Text

section Blanks

/-- The characters with the Unicode property `White_Space`. -/
def isBlank (c : Char) : Bool :=
  let n := c.toNat
  (0x09 ≤ n && n ≤ 0x0D) || n == 0x20 || n == 0x85 || n == 0xA0 || n == 0x1680 ||
    (0x2000 ≤ n && n ≤ 0x200A) || n == 0x2028 || n == 0x2029 || n == 0x202F ||
    n == 0x205F || n == 0x3000

/-- The text without the blanks at its front. -/
def trimStart (s : List Char) : List Char :=
  s.dropWhile isBlank

/-- The text without the blanks at its end. -/
def trimEnd (s : List Char) : List Char :=
  (s.reverse.dropWhile isBlank).reverse

/-- The text without the blanks at both ends. -/
def trim (s : List Char) : List Char :=
  trimEnd (trimStart s)

end Blanks

section Pieces

/-- The parts of a text between the characters that satisfy `p`. -/
def pieces (p : Char → Bool) : List Char → List (List Char)
  | [] => [[]]
  | c :: s =>
    if p c then
      [] :: pieces p s
    else
      match pieces p s with
      | [] => [[c]]
      | piece :: rest => (c :: piece) :: rest

/-- The lines of a text, without the line feeds that end them. -/
def lines (s : List Char) : List (List Char) :=
  pieces (· == '\n') s

/-- The maximal runs of characters that are not blank. -/
def words (s : List Char) : List (List Char) :=
  (pieces isBlank s).filter (!·.isEmpty)

/-- The parts in order, with `separator` between neighbours. -/
def joinWith (separator : List Char) : List (List Char) → List Char
  | [] => []
  | [part] => part
  | part :: rest => part ++ separator ++ joinWith separator rest

end Pieces

section Bytes

/-- The number of bytes of the UTF-8 form. -/
def byteSize (s : List Char) : Nat :=
  s.foldr (fun ch size => ch.utf8Size + size) 0

end Bytes

end Text
end RelayLadder
