/-!
# Instructions of the stack machine

A program is a list of instructions in postfix order: operands are pushed
before the operator that takes them, and every `write` ends one expression.

**Tokens.** `Instruction.tokens` gives the written parts of an instruction and
`Instruction.ofTokens?` reads them.  The five fixed mnemonics are recognised
with their exact number of parts only; every other nonempty list is a call.
-/

namespace RelayLadder

/-- An instruction of the stack machine. -/
inductive Instruction
  /-- Push the value of a named contact. -/
  | read (name : String)
  /-- Negate the top of the stack. -/
  | invert
  /-- Replace the two topmost values by their conjunction. -/
  | conj
  /-- Replace the two topmost values by their disjunction. -/
  | disj
  /-- Pop the top of the stack into a named coil. -/
  | write (name : String)
  /-- Push the result of a function; the first token is its name. -/
  | call (tokens : List String)
  deriving DecidableEq, Repr

/-- A sequence of instructions. -/
abbrev Program := List Instruction

namespace Instruction

/-- The mnemonic of an instruction, for listings and messages. -/
def mnemonic : Instruction → String
  | read _ => "in"
  | invert => "not"
  | conj => "and"
  | disj => "or"
  | write _ => "out"
  | call _ => "call"

/-- The written parts of an instruction.  A call is written as its own tokens. -/
def tokens : Instruction → List String
  | read name => ["in", name]
  | invert => ["not"]
  | conj => ["and"]
  | disj => ["or"]
  | write name => ["out", name]
  | call tokens => tokens

/-- The instruction with the given written parts; there is none without parts. -/
def ofTokens? : List String → Option Instruction
  | [] => none
  | ["in", name] => some (read name)
  | ["out", name] => some (write name)
  | ["not"] => some invert
  | ["and"] => some conj
  | ["or"] => some disj
  | tokens => some (call tokens)

/-- Why `ofTokens?` refuses the empty list. -/
def emptyMessage : String :=
  "empty instruction"

/-- The line of an instruction in a listing. -/
def display : Instruction → String
  | read name => s!"in {name}"
  | write name => s!"out {name}"
  | call tokens => "call " ++ " ".intercalate tokens
  | i => i.mnemonic

end Instruction

/-- The lines of a program, one for each instruction. -/
def Program.listing (p : Program) : List String :=
  p.map Instruction.display

end RelayLadder
