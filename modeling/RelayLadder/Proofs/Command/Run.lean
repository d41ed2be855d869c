import Mathlib.Data.List.Basic
import Mathlib.Tactic.Common
import RelayLadder.Command.Run

/-!
# Runs on a host

A run whose arguments name a command and whose source holds a text is the command on
that text, and then its file is written.  A file that is written holds what was written.

**Refusals.**  A run can end early in many ways: wrong usage, a source that cannot be
read, a fault of the text or of the program.  Each of them is a refusal: it fails and
leaves nothing to be written.

**Results.**
* `Session.run_eq_outcome`: a run is its command on the text of its source.
* `Host.read_write`: what is read from a file after it was written.
-/

namespace RelayLadder

section Refusals

/-- The run fails and leaves nothing to be written. -/
structure Outcome.Refuses (o : Outcome) : Prop where
  status_ne : o.status ≠ 0
  write_eq : o.write = none

theorem Outcome.refuses_breach
    (message : String) :
    (Outcome.breach message).Refuses :=
  ⟨show (101 : UInt32) ≠ 0 by decide, rfl⟩

theorem Outcome.refuses_ofFault
    (format : Format) (cause : Fault) :
    (Outcome.ofFault format cause).Refuses := by
  cases format with
  | json => exact ⟨show (1 : UInt32) ≠ 0 by decide, rfl⟩
  | pretty => exact ⟨show (1 : UInt32) ≠ 0 by decide, rfl⟩

theorem Outcome.refuses_ofStop
    (format : Format) (stop : Stop) :
    (Outcome.ofStop format stop).Refuses := by
  cases stop with
  | fault cause => exact refuses_ofFault format cause
  | _ => exact refuses_breach _

end Refusals

section Texts

/-- The text of bytes that were made from a text. -/
theorem fromUTF8?_toUTF8
    (text : String) :
    String.fromUTF8? text.toUTF8 = some text := by
  have hvalid : text.toUTF8.IsValidUTF8 := text.isValidUTF8
  rw [String.fromUTF8?, dif_pos hvalid]
  rfl

theorem compiled_eq_ok
    {text : String} {p : Program}
    (h : compile text = .ok p) (format : Format) :
    Command.compiled format text = .ok p := by
  rw [Command.compiled, h]
  rfl

/-- A program is drawn if a canvas can be made for it and it can be drawn on a blank one. -/
theorem Schematic.emitProgram_eq_ok_iff
    {p : Program} {width : Nat} {drawing : String} :
    emitProgram p width = .ok drawing ↔
      decompile p width = .ok drawing ∧ width < Canvas.widthLimit := by
  rw [emitProgram, Canvas.ofWidth]
  by_cases hwidth : width < Canvas.widthLimit
  · rw [if_pos hwidth, and_iff_left hwidth]
    rfl
  · simp [hwidth, bind, Except.bind]

theorem drawn_eq_ok
    {p : Program} {width : Nat} {drawing : String}
    (h : decompile p width = .ok drawing) (hwidth : width < Canvas.widthLimit)
    (format : Format) :
    Command.drawn format p width = .ok drawing := by
  rw [Command.drawn, Schematic.emitProgram_eq_ok_iff.mpr ⟨h, hwidth⟩]
  rfl

theorem Host.settle_of_write_eq
    {o : Outcome}
    (h : o.write = none) (host : Host) :
    host.settle o = o := by
  rw [Host.settle, h]

/-- **A run is its command on the text of its source**, and then its file is written. -/
theorem Session.run_eq_outcome
    {standard : Format} {args : List String} {host : Host} {format : Option Format}
    {command : Command} {source : Source} {text : String}
    (hargs : Arguments.read args = .ok (format, command))
    (hsource : command.source? = some source) (hread : host.read source = .ok text.toUTF8) :
    Session.run standard args host =
      host.settle (Command.outcome (command.runOn (format.getD standard) text)) := by
  have htext : source.text (host.read source) = .ok text := by
    rw [hread, Source.text]
    simp only [fromUTF8?_toUTF8]
  rw [Session.run, hargs]
  simp only [Command.run, hsource, htext]
  rfl

end Texts

section Files

theorem lookup_map_replace
    {files : List (String × ByteArray)} {name : String} {bytes : ByteArray}
    (h : files.lookup name = some bytes) (content : ByteArray) :
    (files.map fun (other, bytes) =>
      if some name = some other then (other, content) else (other, bytes)).lookup name =
      some content := by
  induction files with
  | nil => cases h
  | cons file files ih =>
      obtain ⟨other, bytes'⟩ := file
      by_cases hname : name = other
      · simp [hname]
      · have hne : (name == other) = false := beq_false_of_ne hname
        rw [List.lookup_cons, hne] at h
        have hrest := ih h
        simp only [List.map_cons, Option.some.injEq, hname, if_false, List.lookup_cons, hne]
          at hrest ⊢
        exact hrest

/-- A file that can be read holds, after it was written, what was written. -/
theorem Host.read_write
    {host : Host} {path : String} {bytes : ByteArray}
    (h : host.read (.file path) = .ok bytes) (content : ByteArray) :
    (host.write path content).read (.file path) = .ok content := by
  rw [Host.read] at h ⊢
  cases hname : host.resolve path with
  | error failure =>
      rw [hname] at h
      cases h
  | ok name =>
      cases hlookup : host.files.lookup name with
      | none =>
          simp only [hname, bind, Except.bind, hlookup] at h
          cases h
      | some content' =>
          simp only [Host.write, hname, bind, Except.bind, Except.toOption,
            lookup_map_replace hlookup]

end Files

end RelayLadder
