import RelayLadder.Instruction.Basic

/-!
# Wires

A wire is what one row of a rung holds, from left to right: contacts, calls,
coils and parallel blocks.  Each branch of a block is a wire again.

**Code.** `Wire.code` is the postfix program of a wire.  Elements in series are
joined by `conj` after every element but the first, branches by `disj` after
every branch but the first, and a coil ends the series before it.
-/

namespace RelayLadder

/-- The elements along a row, in order. -/
inductive Wire
  | finish
  | contact (name : String) (negated : Bool) (rest : Wire)
  | call (tokens : List String) (rest : Wire)
  | coil (name : String) (negated : Bool) (rest : Wire)
  | block (branches : List Wire) (rest : Wire)

namespace Wire

/-- The instruction after an element that has another one to its left in the series. -/
def join (joined : Bool) : Program :=
  if joined then [.conj] else []

/-- The instruction that a negation mark stands for. -/
def inversion (negated : Bool) : Program :=
  if negated then [.invert] else []

mutual

/-- The program of a wire.  `joined` tells whether an operand stands to the left. -/
def codeFrom (joined : Bool) : Wire → Program
  | finish => []
  | contact name negated rest =>
    .read name :: (inversion negated ++ join joined ++ codeFrom true rest)
  | call tokens rest => .call tokens :: (join joined ++ codeFrom true rest)
  | coil name negated rest => inversion negated ++ .write name :: codeFrom false rest
  | block branches rest => blockCode branches ++ join joined ++ codeFrom true rest

/-- The program of a block, given by its branches from top to bottom. -/
def blockCode : List Wire → Program
  | [] => []
  | top :: below => codeFrom false top ++ branchesCode below

/-- The program of the branches below the top one. -/
def branchesCode : List Wire → Program
  | [] => []
  | branch :: below => codeFrom false branch ++ .disj :: branchesCode below

end

/-- The program of a wire. -/
def code (w : Wire) : Program :=
  codeFrom false w

end Wire
end RelayLadder
