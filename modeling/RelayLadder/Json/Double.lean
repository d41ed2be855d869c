/-!
# Natural numbers in double precision

**Rounding.** `nearest n` is the number closest to `n` that has at most 53
significant bits; of two that are equally close it is the one whose last
significant bit is zero.

**Range.** A number from `limit` on has no finite double: it lies at least half
a step above the largest one, `2 ^ 1024 - 2 ^ 971`.
-/

namespace RelayLadder
namespace Double

/-- The number with at most 53 significant bits that is nearest to `n`, ties to even. -/
def nearest (n : Nat) : Nat :=
  let step := Nat.pow 2 (n.log2 + 1 - 53)
  let floor := n / step
  let twice := 2 * (n % step)
  if step < twice || (step == twice && floor % 2 == 1) then
    (floor + 1) * step
  else
    floor * step

/-- The least number that rounds to infinity. -/
def limit : Nat :=
  Nat.pow 2 1024 - Nat.pow 2 970

/-- Whether the product of two doubles is finite. -/
def isFiniteProduct (m n : Nat) : Bool :=
  m * n < limit

end Double
end RelayLadder
