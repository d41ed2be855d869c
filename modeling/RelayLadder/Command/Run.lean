import RelayLadder.Command.Outcome
import RelayLadder.Expr.Json
import RelayLadder.Instruction.Json
import RelayLadder.Schematic

/-!
# Running a command

A command reads at most one source, and what it does follows from the content
of that source alone.  `Command.source?` names the source and `Command.run`
gives the outcome.  `Session.run` plays a whole run on a host: standard input
and a set of named files.

**Hosts.** How paths lead to files, and what becomes of a text that is to be
written, is up to the host.  A file may be out of reach or closed to writing, and
writing may break off when part of the text is stored.  A run whose write fails is
a failure.
-/

namespace RelayLadder

section Sources

/-- Where a command reads from. -/
inductive Source
  | stdin
  | file (path : String)
  deriving DecidableEq, Repr

/-- The source of a file argument; `-` is standard input. -/
def Source.ofArgument (arg : String) : Source :=
  if arg = "-" then .stdin else .file arg

/-- Why the bytes of a source cannot be had. -/
inductive ReadFailure
  | notFound
  | other (message : String)
  deriving DecidableEq, Repr

/-- The wording of a read failure. -/
def ReadFailure.message : ReadFailure → String
  | notFound => "No such file or directory (os error 2)"
  | other message => message

/-- What is said when a source cannot be read. -/
def Source.failureMessage : Source → String
  | stdin => "failed to read stdin"
  | file path => s!"failed to read '{path}'"

/-- The text of a source, or the outcome of the failure to read it. -/
def Source.text (source : Source) (content : Except ReadFailure ByteArray) :
    Except Outcome String :=
  match content with
  | .error failure => .error (.failure source.failureMessage (some failure.message))
  | .ok bytes =>
    match String.fromUTF8? bytes with
    | some text => .ok text
    | none =>
      .error (.failure source.failureMessage (some "stream did not contain valid UTF-8"))

end Sources

namespace Command

section Steps

/-- The program of a text, or the report of what is wrong with it. -/
def compiled (format : Format) (text : String) : Except Outcome Program :=
  (RelayLadder.compile text).mapError (.ofFault format)

/-- The schematic of a program, or the report of why it has none. -/
def drawn (format : Format) (p : Program) (width : Nat) : Except Outcome String :=
  (Schematic.emitProgram p width).mapError (.ofStop format)

/-- The outcome of steps that may end early. -/
def outcome : Except Outcome Outcome → Outcome
  | .ok outcome => outcome
  | .error outcome => outcome

end Steps

section Commands

/-- Prints the program of a schematic. -/
def runCompile (format : Format) (text : String) : Except Outcome Outcome := do
  let p ← compiled format text
  return .print <|
    match format with
    | .json => p.toJson.compact ++ "\n"
    | .pretty => String.join (p.listing.map (· ++ "\n"))

/-- Reports that a schematic can be read. -/
def runCheck (format : Format) (text : String) : Except Outcome Outcome := do
  let p ← compiled format text
  return match format with
    | .json =>
      let report := Json.obj [
        ("ok", .bool true),
        ("rungs", .ofNat (Rung.split text).length),
        ("instructions", .ofNat p.length)]
      .print (report.pretty ++ "\n")
    | .pretty => { err := "syntax ok\n" }

/-- Prints the coils of a schematic. -/
def runTree (format : Format) (text : String) : Except Outcome Outcome := do
  let p ← compiled format text
  let coils ← (Coil.ofProgram p).mapError (.ofFault format)
  return .print ((Coil.listToJson coils).pretty ++ "\n")

/-- What a program text that cannot be read is refused for. -/
def programCause : Program.ReadError → String
  | .notJson => "the text is not a JSON value"
  | .shape => "the value is not an array of arrays of strings"
  | .emptyInstruction => Instruction.emptyMessage

/-- Prints the schematic of a program. -/
def runDecompile (format : Format) (file text : String) (width : Nat) :
    Except Outcome Outcome := do
  let p ← (Program.ofJsonText text).mapError fun e =>
    .failure s!"failed to read instruction sequence from '{file}'" (some (programCause e))
  return .print ((← drawn format p width) ++ "\n")

/-- Redraws a schematic and prints it, writes it back, or compares it with what is there. -/
def runFormat (format : Format) (file text : String) (redraw : Redraw) (width : Nat) :
    Except Outcome Outcome := do
  let p ← compiled format text
  let formatted := (← drawn format p width) ++ "\n"
  return match redraw with
    | .print => .print formatted
    | .check =>
      if formatted = text then
        .report format "already formatted" file
      else
        { Outcome.report format "not formatted" file with status := 1 }
    | .write =>
      if formatted = text then
        .report format "already formatted" file
      else
        { Outcome.report format "formatted" file with
          write := some (file, formatted.toUTF8) }

/-- Prints the explanation of a diagnostic code. -/
def runExplain (format : Format) (id : String) : Outcome :=
  let text := Diagnostic.explain id
  .print <|
    match format, text with
    | .json, text => (Json.obj [("explanation", .ofString? text), ("id", .str id)]).pretty ++ "\n"
    | .pretty, some text => Outcome.coloured Outcome.cyan id ++ ": " ++ text ++ "\n"
    | .pretty, none => id ++ ": (no explanation available)\n"

end Commands

/-- The source that a command reads.  There is none to read when a drawing is to be written back
to standard input. -/
def source? : Command → Option Source
  | .compile file => some (.ofArgument file)
  | .check file => some (.ofArgument file)
  | .tree file => some (.ofArgument file)
  | .decompile file _ => some (.ofArgument file)
  | .format file redraw _ => if redraw = .write && file = "-" then none else some (.ofArgument file)
  | .explain _ => none

/-- The outcome of a command on the text of its source. -/
def runOn (format : Format) (text : String) : Command → Except Outcome Outcome
  | .compile _ => runCompile format text
  | .check _ => runCheck format text
  | .tree _ => runTree format text
  | .decompile file width => runDecompile format file text width
  | .format file redraw width => runFormat format file text redraw width
  | .explain id => .ok (runExplain format id)

/-- The outcome of a command that reads nothing. -/
def runAlone (format : Format) : Command → Outcome
  | .explain id => runExplain format id
  | _ => .failure "--write needs a file path, not stdin" none

/-- The outcome of a command, given how its source can be read. -/
def run (format : Format) (command : Command)
    (read : Source → Except ReadFailure ByteArray) : Outcome :=
  match command.source? with
  | none => command.runAlone format
  | some source =>
    outcome do
      let text ← source.text (read source)
      command.runOn format text

end Command

/-- What becomes of a content that is to be written to a file. -/
inductive Storing
  /-- The file holds the content. -/
  | whole
  /-- The file cannot be opened for writing, and is as it was. -/
  | refused (cause : String)
  /-- Writing broke off, and the file holds what is left. -/
  | broken (left : ByteArray) (cause : String)

/-- The outcome of a run after the file at a path was to be written. -/
def Outcome.stored (o : Outcome) (path : String) : Storing → Outcome
  | .whole => o
  | .refused cause => .failure s!"failed to write '{path}'" (some cause)
  | .broken left cause =>
    { Outcome.failure s!"failed to write '{path}'" (some cause) with write := some (path, left) }

/-- What a run can see and change: standard input and named files, and how the host deals with
paths. -/
structure Host where
  stdin : ByteArray
  files : List (String × ByteArray)
  /-- The name of the file that a path leads to, or why it cannot be read. -/
  resolve : String → Except ReadFailure String
  /-- What becomes of a content that is to be written to the file that a path leads to. -/
  store : String → ByteArray → Storing

namespace Host

section Directories

/-- The name of a file of a directory that a relative path leads to.  Empty steps and `.` lead
nowhere, but the path must end with a name.  A path from the root leads out of the directory. -/
def nameIn? (path : String) : Option String :=
  let steps := Text.pieces (· == '/') path.toList
  let isIdle (step : List Char) : Bool := step.isEmpty || step == ['.']
  if steps.head? == some [] || steps.getLast?.all isIdle then
    none
  else
    some (String.ofList (Text.joinWith ['/'] (steps.filter (!isIdle ·))))

/-- A host with the files of one directory, which can all be read and written. -/
def ofDirectory (stdin : ByteArray) (files : List (String × ByteArray)) : Host where
  stdin
  files
  resolve path :=
    match nameIn? path with
    | some name => .ok name
    | none => .error .notFound
  store _ _ := .whole

end Directories

section Access

/-- The bytes of a source. -/
def read (h : Host) : Source → Except ReadFailure ByteArray
  | .stdin => .ok h.stdin
  | .file path => do
    let name ← h.resolve path
    match h.files.lookup name with
    | some bytes => .ok bytes
    | none => .error .notFound

/-- The host with another content in the file that a path leads to. -/
def write (h : Host) (path : String) (content : ByteArray) : Host :=
  { h with
    files := h.files.map fun (name, bytes) =>
      if (h.resolve path).toOption = some name then (name, content) else (name, bytes) }

/-- The outcome of a run after its file, if it leaves one, was to be written. -/
def settle (h : Host) (o : Outcome) : Outcome :=
  match o.write with
  | some (path, content) => o.stored path (h.store path content)
  | none => o

/-- The host after a run with the given outcome. -/
def after (h : Host) (o : Outcome) : Host :=
  match o.write with
  | some (path, content) => h.write path content
  | none => h

end Access

end Host

namespace Session

/-- The outcome of a run, where `standard` is the format used if the arguments choose none. -/
def run (standard : Format) (args : List String) (h : Host) : Outcome :=
  match Arguments.read args with
  | .error halt => .ofHalt halt
  | .ok (format, command) => h.settle (command.run (format.getD standard) h.read)

end Session
end RelayLadder
