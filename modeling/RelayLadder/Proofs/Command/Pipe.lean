import RelayLadder.Proofs.Command.Run
import RelayLadder.Proofs.Json.Program
import RelayLadder.Proofs.Schematic.Compiled

/-!
# Piping a program into the decompiler

`compile` prints a program as JSON, and `decompile -` reads it from standard input and
draws it.  `format` draws the program without writing it down.

**Reserved calls.**  A call that is written like another instruction, such as `in X`, is
read as that instruction.

**Results.**
* `run_pipe`: what is drawn from the pipe.
* `pipe_eq_format`: without reserved calls the pipe has the outcome of `format`.
  `pipe_ne_format_reserved` is a schematic with a reserved call.
-/

namespace RelayLadder

namespace Program

section Wire

variable {p : Program}

/-- No instruction of a compiled program is written without parts. -/
theorem tokens_ne_nil_of_compile
    {text : String}
    (h : compile text = .ok p) :
    ∀ i ∈ p, i.tokens ≠ [] := by
  intro i hi
  have hprinted := printed_of_compile h i hi
  cases i with
  | call tokens => exact hprinted.ne_nil
  | _ => simp [Instruction.tokens]

end Wire

end Program

section Runs

variable {args : List String} {host : Host} {format : Option Format} {file text : String}
  {width : Nat} {p : Program}

/-- The outcome of printing the drawing of a program. -/
def printedDrawing (p : Program) (width : Nat) : Outcome :=
  Command.outcome ((Command.drawn .json p width).map fun drawing => .print (drawing ++ "\n"))

theorem printedDrawing_eq_print
    {drawing : String}
    (h : decompile p width = .ok drawing) (hwidth : width < Canvas.widthLimit) :
    printedDrawing p width = .print (drawing ++ "\n") := by
  rw [printedDrawing, drawn_eq_ok h hwidth]
  rfl

theorem write_printedDrawing
    (p : Program) (width : Nat) :
    (printedDrawing p width).write = none := by
  rw [printedDrawing, Command.drawn]
  cases Schematic.emitProgram p width with
  | error stop => exact (Outcome.refuses_ofStop .json stop).write_eq
  | ok drawing => rfl

/-- `compile` prints the program of a text that can be compiled. -/
theorem run_compile
    (standard : Format)
    (hargs : Arguments.read args = .ok (format, .compile file))
    (hformat : format.getD standard = .json)
    (hread : host.read (.ofArgument file) = .ok text.toUTF8) (hp : compile text = .ok p) :
    Session.run standard args host = .print (p.toJson.compact ++ "\n") := by
  rw [Session.run_eq_outcome hargs rfl hread, hformat, Command.runOn, Command.runCompile,
    compiled_eq_ok hp]
  rfl

/-- `compile` succeeds only on a text that can be compiled. -/
theorem exists_compile_of_run
    (standard : Format)
    (hargs : Arguments.read args = .ok (format, .compile file))
    (hread : host.read (.ofArgument file) = .ok text.toUTF8)
    (hexit : (Session.run standard args host).status = 0) :
    ∃ p, compile text = .ok p := by
  cases hp : compile text with
  | ok p => exact ⟨p, rfl⟩
  | error fault =>
      rw [Session.run_eq_outcome hargs rfl hread, Command.runOn, Command.runCompile,
        Command.compiled, hp] at hexit
      cases hout : format.getD standard with
      | json =>
          rw [hout] at hexit
          cases hexit
      | pretty =>
          rw [hout] at hexit
          cases hexit

/-- `format` prints the drawing of the program. -/
theorem run_format_print
    (standard : Format)
    (hargs : Arguments.read args = .ok (format, .format file .print width))
    (hformat : format.getD standard = .json)
    (hread : host.read (.ofArgument file) = .ok text.toUTF8) (hp : compile text = .ok p) :
    Session.run standard args host = printedDrawing p width := by
  rw [Session.run_eq_outcome hargs rfl hread, hformat, Command.runOn, Command.runFormat,
    compiled_eq_ok hp]
  exact Host.settle_of_write_eq (write_printedDrawing p width) host

/-- **From the pipe the program is drawn as it is read.** -/
theorem run_pipe
    (standard : Format)
    (hargs : Arguments.read args = .ok (format, .decompile "-" width))
    (hformat : format.getD standard = .json) (hp : compile text = .ok p) :
    Session.run standard args { host with stdin := (p.toJson.compact ++ "\n").toUTF8 } =
      printedDrawing (p.map Instruction.reread) width := by
  have hread : Host.read { host with stdin := (p.toJson.compact ++ "\n").toUTF8 } .stdin =
      .ok (p.toJson.compact ++ "\n").toUTF8 := rfl
  rw [Session.run_eq_outcome hargs rfl hread, hformat, Command.runOn, Command.runDecompile,
    Program.ofJsonText_toJson (Program.tokens_ne_nil_of_compile hp)]
  exact Host.settle_of_write_eq (write_printedDrawing _ width) _

/-- **The pipe has the outcome of `format`**, if `compile` succeeds and no call of the program is
written like another instruction. -/
theorem pipe_eq_format
    {standard : Format} {compiling decompiling formatting : List String}
    {format format' format'' : Option Format}
    (hcompiling : Arguments.read compiling = .ok (format, .compile file))
    (hdecompiling : Arguments.read decompiling = .ok (format', .decompile "-" width))
    (hformatting : Arguments.read formatting = .ok (format'', .format file .print width))
    (hjson : format.getD standard = .json) (hjson' : format'.getD standard = .json)
    (hjson'' : format''.getD standard = .json)
    (hread : host.read (.ofArgument file) = .ok text.toUTF8)
    (hexit : (Session.run standard compiling host).status = 0)
    (hcalls : ∀ p, compile text = .ok p →
      ∀ tokens, .call tokens ∈ p → Instruction.isReserved tokens = false) :
    Session.run standard decompiling
        { host with stdin := (Session.run standard compiling host).out.toUTF8 } =
      Session.run standard formatting host := by
  obtain ⟨p, hp⟩ := exists_compile_of_run standard hcompiling hread hexit
  have hsame : p.map Instruction.reread = p := by
    refine (List.map_congr_left fun i hi => ?_).trans (List.map_id p)
    refine Instruction.reread_eq fun tokens hcall => ?_
    subst hcall
    exact hcalls p hp tokens hi
  rw [run_compile standard hcompiling hjson hread hp,
    run_format_print standard hformatting hjson'' hread hp]
  exact (run_pipe standard hdecompiling hjson' hp).trans (congrArg (printedDrawing · width) hsame)

/-- A call with two tokens, the first of which is a mnemonic of one part. -/
theorem pipe_eq_format_call :
    ∃ host : Host,
      (Session.run .json ["compile", "a.ld"] host).status = 0 ∧
      Session.run .json ["decompile", "--width", "30", "-"]
          { host with stdin := (Session.run .json ["compile", "a.ld"] host).out.toUTF8 } =
        Session.run .json ["--output=json", "format", "a.ld", "--width=30"] host := by
  obtain ⟨host, hhost⟩ : ∃ host : Host,
      host = .ofDirectory .empty [("a.ld", "||--[A]--\x7bnot x\x7d--(/Y)--||".toUTF8)] := ⟨_, rfl⟩
  have hread : host.read (.ofArgument "a.ld") =
      .ok "||--[A]--\x7bnot x\x7d--(/Y)--||".toUTF8 := by
    rw [hhost]
    rfl
  have hp : compile "||--[A]--\x7bnot x\x7d--(/Y)--||" =
      .ok [.read "A", .call ["not", "x"], .conj, .invert, .write "Y"] := by
    cbv
  have hcompiling : Arguments.read ["compile", "a.ld"] = .ok (none, .compile "a.ld") := rfl
  have hexit : (Session.run .json ["compile", "a.ld"] host).status = 0 := by
    rw [run_compile .json hcompiling rfl hread hp]
    rfl
  refine ⟨host, hexit, pipe_eq_format hcompiling rfl rfl rfl rfl rfl hread hexit ?_⟩
  intro p hp' tokens hcall
  rw [hp] at hp'
  cases hp'
  have htokens : tokens = ["not", "x"] := by simpa using hcall
  rw [htokens]
  rfl

/-- A call that is written like a contact comes out of the pipe as that contact. -/
theorem pipe_ne_format_reserved :
    ∃ host : Host,
      (Session.run .json ["compile", "-"] host).status = 0 ∧
      (Session.run .json ["decompile", "-"]
          { host with stdin := (Session.run .json ["compile", "-"] host).out.toUTF8 }).out ≠
        (Session.run .json ["format", "-"] host).out := by
  obtain ⟨host, hhost⟩ : ∃ host : Host,
      host = .ofDirectory "||--\x7bin X\x7d--(Y)--||".toUTF8 [] := ⟨_, rfl⟩
  have hread : host.read (.ofArgument "-") = .ok "||--\x7bin X\x7d--(Y)--||".toUTF8 := by
    rw [hhost]
    rfl
  have hp : compile "||--\x7bin X\x7d--(Y)--||" = .ok [.call ["in", "X"], .write "Y"] := by
    cbv
  have hcompiling : Arguments.read ["compile", "-"] = .ok (none, .compile "-") := rfl
  have hdecompiling : Arguments.read ["decompile", "-"] = .ok (none, .decompile "-" 0) := rfl
  have hformatting : Arguments.read ["format", "-"] = .ok (none, .format "-" .print 0) := rfl
  have hcompiled := run_compile .json hcompiling rfl hread hp
  have hpiped : Session.run .json ["decompile", "-"]
      { host with stdin := (Session.run .json ["compile", "-"] host).out.toUTF8 } =
      .print ("\n".intercalate ["||              ||", "||--[X]----(Y)--||", "||              ||"] ++
        "\n") := by
    rw [hcompiled]
    refine (run_pipe .json hdecompiling rfl hp).trans (printedDrawing_eq_print ?_ (by decide))
    cbv
  have hdirect : Session.run .json ["format", "-"] host =
      .print ("\n".intercalate [
        "||                 ||",
        "||--\x7bin X\x7d----(Y)--||",
        "||                 ||"] ++ "\n") := by
    rw [run_format_print .json hformatting rfl hread hp]
    refine printedDrawing_eq_print ?_ (by decide)
    cbv
  refine ⟨host, by rw [hcompiled]; rfl, ?_⟩
  rw [hpiped, hdirect]
  decide

end Runs

end RelayLadder
