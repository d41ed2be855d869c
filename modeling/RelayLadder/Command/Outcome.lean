import RelayLadder.Canvas.Basic
import RelayLadder.Command.Arguments
import RelayLadder.Diagnostic.Json
import RelayLadder.Json.Printer

/-!
# Outcomes of a command

What a run leaves behind: an exit status, the two output streams, and at most
one file with a new content.

**Status.** `0` is success, `1` a refusal, `2` wrong usage and `101` a breach
of the program's own rules, such as a drawing that is too wide for any row.

**Formats.** In the format `json` reports go to standard output; in the format
`pretty` they go to standard error, in colour.
-/

namespace RelayLadder

/-- What a run of the program leaves behind. -/
structure Outcome where
  status : UInt32 := 0
  out : String := ""
  err : String := ""
  /-- The path of the file that is written, and its new content. -/
  write : Option (String × ByteArray) := none

namespace Outcome

section Colours

/-- A text in the terminal colour of the given number. -/
def coloured (number : Nat) (text : String) : String :=
  s!"\x1b[{number}m{text}\x1b[0m"

/-- The number of red. -/
def red : Nat :=
  31

/-- The number of cyan. -/
def cyan : Nat :=
  36

end Colours

section Reports

/-- Success with a text on standard output. -/
def print (text : String) : Outcome where
  out := text

/-- A refusal for a reason other than a fault of the input. -/
def failure (message : String) (cause : Option String) : Outcome where
  status := 1
  err :=
    match cause with
    | some cause => s!"Error: {message}\n\nCaused by:\n    {cause}\n"
    | none => s!"Error: {message}\n"

/-- The details of a diagnostic on one line. -/
def note (context : List (String × String)) : String :=
  ", ".intercalate (context.map fun (name, value) => name ++ "=" ++ value)

/-- The lines of a diagnostic for a terminal. -/
def describe (d : Diagnostic) : String :=
  let context := d.context.getD []
  d.display ++ "\n" ++
    (if context.isEmpty then "" else "  = note: " ++ note context ++ "\n") ++
    (match d.explanation with
      | some text => "  = help: " ++ text ++ "\n"
      | none => "")

/-- The report of a fault. -/
def ofFault (format : Format) (f : Fault) : Outcome :=
  match format with
  | .json => { status := 1, out := (Json.arr [f.diagnostic.toJson]).pretty ++ "\n" }
  | .pretty =>
    { status := 1, err := describe f.diagnostic ++ coloured red "1 error" ++ "\n" }

/-- The end of a run that broke the program's own rules. -/
def breach (message : String) : Outcome where
  status := 101
  err := message ++ "\n"

/-- The report of a drawing that stopped. -/
def ofStop (format : Format) : Stop → Outcome
  | .fault cause => ofFault format cause
  | stop => breach stop.message

/-- A one-line report on a file. -/
def report (format : Format) (message file : String) : Outcome :=
  match format with
  | .json =>
    { out := (Json.obj [("file", .str file), ("status", .str message)]).pretty ++ "\n" }
  | .pretty => { err := s!"{message}: {file}\n" }

end Reports

section Usage

/-- The text of `--help`. -/
def helpText : String :=
  "\n".intercalate [
    "Ladder logic toolchain: compile ASCII relay-ladder schematics to stack instructions " ++
      "and draw them back",
    "",
    "Usage: ladder [OPTIONS] <COMMAND>",
    "",
    "Commands:",
    "  compile    Compile a schematic and print its instruction sequence",
    "  check      Syntax-check a schematic",
    "  tree       Compile a schematic and print one expression tree per coil",
    "  decompile  Draw a JSON instruction sequence as a schematic",
    "  format     Redraw a schematic in canonical form",
    "  explain    Explain a diagnostic ID (e.g. LL1002)",
    "",
    "Options:",
    "      --output <OUTPUT>  Output mode [possible values: pretty, json]",
    "  -v, --verbose...       Increase log verbosity on stderr",
    "  -h, --help             Print help",
    "  -V, --version          Print version",
    ""]

/-- The outcome of arguments that ask for no command. -/
def ofHalt : Arguments.Halt → Outcome
  | .usage => { status := 2, err := "error: wrong usage\n\n" ++ helpText }
  | .help => print helpText
  | .version => print "ladder 0.1.0\n"

end Usage

end Outcome
end RelayLadder
