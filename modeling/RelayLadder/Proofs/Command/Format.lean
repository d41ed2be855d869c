import RelayLadder.Proofs.Command.Run
import RelayLadder.Proofs.Schematic.Idempotent

/-!
# Formatting a file

`format` compiles a text and draws its program.  With `--write` the drawing, followed by
a line feed, replaces the text; with `--check` the two are compared.

**Formatted texts.**  `Formatted text width` says that `format` has nothing to change.  A
check of such a text succeeds, and it is not written.

**Results.**
* `formatted_of_compile`: what `format` writes is formatted.
* `format_write_check`: after a file is formatted, a check of it succeeds and formatting
  it again leaves it as it is.
-/

namespace RelayLadder

section Formatted

variable {text drawing : String} {width : Nat} {p : Program}

/-- The text is its own drawing, followed by a line feed. -/
def Formatted (text : String) (width : Nat) : Prop :=
  ∃ p drawing, compile text = .ok p ∧ decompile p width = .ok drawing ∧ drawing ++ "\n" = text

/-- A line feed at the end of a text changes no rung. -/
theorem compile_append_newline
    (text : String) :
    compile (text ++ "\n") = compile text := by
  have hlist : (text ++ "\n").toList = text.toList ++ ['\n'] := String.toList_append
  rw [compile, compile, Rung.split, Rung.split, hlist, Schematic.rowsOf_append_newline]

/-- What `format` writes is formatted, if no operand waits across a coil and no name has a mark of
its own. -/
theorem formatted_of_compile
    (h : compile text = .ok p) (hplain : p.Plain) (halone : Alone p)
    (hdrawing : decompile p width = .ok drawing) :
    Formatted (drawing ++ "\n") width := by
  obtain ⟨p', hcompile, hdecompile⟩ := exists_redrawing h hplain halone hdrawing
  exact ⟨p', drawing, (compile_append_newline drawing).trans hcompile, hdecompile, rfl⟩

end Formatted

section Commands

variable {format : Format} {file text drawing : String} {redraw : Redraw} {width : Nat}
  {p : Program}

/-- A formatted text is reported as such. -/
theorem runFormat_of_formatted
    (h : Formatted text width) (hwidth : width < Canvas.widthLimit) (hredraw : redraw ≠ .print) :
    Command.runFormat format file text redraw width =
      .ok (.report format "already formatted" file) := by
  obtain ⟨p, drawing, hp, hdrawing, rfl⟩ := h
  simp only [Command.runFormat, compiled_eq_ok hp, drawn_eq_ok hdrawing hwidth, bind, Except.bind]
  cases redraw with
  | print => exact absurd rfl hredraw
  | write => exact congrArg Except.ok (if_pos trivial)
  | check => exact congrArg Except.ok (if_pos trivial)

/-- What a run that writes a file reports if the file is stored. -/
def written (format : Format) (file drawing : String) : Outcome :=
  { Outcome.report format "formatted" file with write := some (file, (drawing ++ "\n").toUTF8) }

/-- A text that is not formatted is replaced by its drawing. -/
theorem runFormat_write_of_ne
    (hp : compile text = .ok p) (hdrawing : decompile p width = .ok drawing)
    (hwidth : width < Canvas.widthLimit) (hne : drawing ++ "\n" ≠ text) :
    Command.runFormat format file text .write width =
      .ok (written format file drawing) := by
  simp only [Command.runFormat, compiled_eq_ok hp, drawn_eq_ok hdrawing hwidth, bind, Except.bind]
  exact congrArg Except.ok (if_neg hne)

theorem status_report
    (format : Format) (message file : String) :
    (Outcome.report format message file).status = 0 := by
  cases format <;> rfl

theorem write_report
    (format : Format) (message file : String) :
    (Outcome.report format message file).write = none := by
  cases format <;> rfl

end Commands

section Runs

variable {args : List String} {host : Host} {format : Option Format}
  {file text drawing : String} {redraw : Redraw} {width : Nat} {p : Program}

theorem run_format_eq_outcome
    (standard : Format)
    (hargs : Arguments.read args = .ok (format, .format file redraw width)) (hfile : file ≠ "-")
    (hread : host.read (.file file) = .ok text.toUTF8) :
    Session.run standard args host =
      host.settle
        (Command.outcome (Command.runFormat (format.getD standard) file text redraw width)) := by
  refine Session.run_eq_outcome hargs ?_ hread
  simp [Command.source?, Source.ofArgument, hfile]

/-- On a formatted file, writing and checking succeed and change nothing. -/
theorem run_of_formatted
    (standard : Format)
    (hargs : Arguments.read args = .ok (format, .format file redraw width)) (hfile : file ≠ "-")
    (hread : host.read (.file file) = .ok text.toUTF8)
    (h : Formatted text width) (hwidth : width < Canvas.widthLimit) (hredraw : redraw ≠ .print) :
    (Session.run standard args host).status = 0 ∧
      host.after (Session.run standard args host) = host := by
  have hwrite := write_report (format.getD standard) "already formatted" file
  rw [run_format_eq_outcome standard hargs hfile hread, runFormat_of_formatted h hwidth hredraw,
    Command.outcome, Host.settle_of_write_eq hwrite, Host.after, hwrite]
  exact ⟨status_report _ _ _, rfl⟩

/-- A file that is not formatted is stored. -/
theorem run_write_of_ne
    (standard : Format)
    (hargs : Arguments.read args = .ok (format, .format file .write width)) (hfile : file ≠ "-")
    (hread : host.read (.file file) = .ok text.toUTF8)
    (hp : compile text = .ok p) (hdrawing : decompile p width = .ok drawing)
    (hwidth : width < Canvas.widthLimit) (hne : drawing ++ "\n" ≠ text) :
    Session.run standard args host =
      (written (format.getD standard) file drawing).stored file
        (host.store file (drawing ++ "\n").toUTF8) := by
  rw [run_format_eq_outcome standard hargs hfile hread,
    runFormat_write_of_ne hp hdrawing hwidth hne]
  rfl

/-- Writing succeeds if the file is stored whole, and then the file holds the drawing. -/
theorem run_write
    (standard : Format)
    (hargs : Arguments.read args = .ok (format, .format file .write width)) (hfile : file ≠ "-")
    (hread : host.read (.file file) = .ok text.toUTF8)
    (hp : compile text = .ok p) (hdrawing : decompile p width = .ok drawing)
    (hwidth : width < Canvas.widthLimit)
    (hstore : host.store file (drawing ++ "\n").toUTF8 = .whole) :
    (Session.run standard args host).status = 0 ∧
      (host.after (Session.run standard args host)).read (.file file) =
        .ok (drawing ++ "\n").toUTF8 := by
  by_cases hsame : drawing ++ "\n" = text
  · obtain ⟨hstatus, hafter⟩ := run_of_formatted standard hargs hfile hread
      ⟨p, drawing, hp, hdrawing, hsame⟩ hwidth (by decide)
    rw [hafter, hread, hsame]
    exact ⟨hstatus, rfl⟩
  · rw [run_write_of_ne standard hargs hfile hread hp hdrawing hwidth hsame, hstore]
    exact ⟨status_report _ _ _, Host.read_write hread _⟩

/-- **Formatting is idempotent.**  Where no operand waits across a coil and no name has a mark of
its own, the drawing of a compiled text is compiled and drawn as it is.  So after `format` wrote a
file, and the host stored it whole, a check succeeds and writing it again changes nothing. -/
theorem format_write_check
    (hp : compile text = .ok p) (hdrawing : decompile p width = .ok drawing)
    (hplain : p.Plain) (halone : Alone p) :
    (∃ p', compile drawing = .ok p' ∧ decompile p' width = .ok drawing) ∧
    ∀ (standard : Format) (file : String) (host host' : Host) (writing checking : List String)
      (format format' : Option Format),
      Arguments.read writing = .ok (format, .format file .write width) →
      Arguments.read checking = .ok (format', .format file .check width) →
      file ≠ "-" →
      width < Canvas.widthLimit →
      host.read (.file file) = .ok text.toUTF8 →
      host.store file (drawing ++ "\n").toUTF8 = .whole →
      host' = host.after (Session.run standard writing host) →
      (Session.run standard writing host).status = 0 ∧
      host'.read (.file file) = .ok (drawing ++ "\n").toUTF8 ∧
      (Session.run standard checking host').status = 0 ∧
      (Session.run standard writing host').status = 0 ∧
      host'.after (Session.run standard writing host') = host' := by
  refine ⟨exists_redrawing hp hplain halone hdrawing, ?_⟩
  rintro standard file host _ writing checking format format' hwriting hchecking hfile hwidth
    hread hstore rfl
  have hformatted := formatted_of_compile hp hplain halone hdrawing
  obtain ⟨hstatus, hread'⟩ := run_write standard hwriting hfile hread hp hdrawing hwidth hstore
  obtain ⟨hchecked, -⟩ := run_of_formatted standard hchecking hfile hread'
    hformatted hwidth (by decide)
  exact ⟨hstatus, hread', hchecked,
    run_of_formatted standard hwriting hfile hread' hformatted hwidth (by decide)⟩

/-- A negated coil behind a series, in a file that is named by a longer path. -/
theorem format_write_check_series :
    ∃ host host' : Host,
      host.read (.file "./a.ld") = .ok "||-[A]-[B]-(/X)-||".toUTF8 ∧
      host' = host.after (Session.run .pretty ["format", "-w", "--width=30", "./a.ld"] host) ∧
      host'.read (.file "./a.ld") = .ok ("\n".intercalate [
        "||                              ||",
        "||--[A]----[B]----(/X)----------||",
        "||                              ||"] ++ "\n").toUTF8 ∧
      (Session.run .pretty ["format", "--check", "--width=30", "./a.ld"] host').status = 0 ∧
      host'.after (Session.run .pretty ["format", "-w", "--width=30", "./a.ld"] host') = host' := by
  have hp : compile "||-[A]-[B]-(/X)-||" =
      .ok [.read "A", .read "B", .conj, .invert, .write "X"] := by
    cbv
  have hdrawing : decompile [.read "A", .read "B", .conj, .invert, .write "X"] 30 =
      .ok ("\n".intercalate [
        "||                              ||",
        "||--[A]----[B]----(/X)----------||",
        "||                              ||"]) := by
    cbv
  have hplain : Program.Plain [.read "A", .read "B", .conj, .invert, .write "X"] := by
    intro name hname
    have hnames : (name = "A" ∨ name = "B") ∨ name = "X" := by simpa using hname
    rcases hnames with (rfl | rfl) | rfl <;> decide
  have halone : Alone [.read "A", .read "B", .conj, .invert, .write "X"] := by
    rintro q name ⟨rest, hrest⟩ stack cs hbuild
    obtain _ | ⟨_, _ | ⟨_, _ | ⟨_, _ | ⟨_, _ | ⟨_, q⟩⟩⟩⟩⟩ := q
    all_goals simp at hrest
    obtain ⟨rfl, rfl, rfl, rfl, -⟩ := hrest
    cases hbuild
    rfl
  obtain ⟨host, hhost⟩ : ∃ host : Host,
      host = .ofDirectory .empty [("a.ld", "||-[A]-[B]-(/X)-||".toUTF8)] := ⟨_, rfl⟩
  have hread : host.read (.file "./a.ld") = .ok "||-[A]-[B]-(/X)-||".toUTF8 := by
    rw [hhost]
    rfl
  obtain ⟨-, hwritten, hchecked, -, hkept⟩ := (format_write_check hp hdrawing hplain halone).2
    .pretty "./a.ld" host _ ["format", "-w", "--width=30", "./a.ld"]
    ["format", "--check", "--width=30", "./a.ld"] none none rfl rfl (by decide)
    (by decide) hread (by rw [hhost]; rfl) rfl
  exact ⟨host, _, hread, rfl, hwritten, hchecked, hkept⟩

end Runs

end RelayLadder
