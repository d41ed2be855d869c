import RelayLadder.Json.Basic

/-!
# Command-line arguments

**Input.** The arguments after the name of the program.

**Levels.** Flags before the name of the command belong to the program, those
after it to the command.  `--output` and `--verbose` are known on both levels,
and the inner `--output` wins.

**Rule.** Arguments are read from left to right and the first mistake, or the
first request for help or the version, ends the reading.  What only the whole
line can tell, a missing argument or two flags that exclude each other, is
found last.  A flag that is not a counter stands at most once on a level, `--`
ends the flags, and `-` is an ordinary argument.
-/

namespace RelayLadder

section Commands

/-- How results are written. -/
inductive Format
  | pretty
  | json
  deriving DecidableEq, Repr

/-- What `format` does with the new drawing. -/
inductive Redraw
  | print
  | write
  | check
  deriving DecidableEq, Repr

/-- A command with its arguments. -/
inductive Command
  | compile (file : String)
  | check (file : String)
  | tree (file : String)
  | decompile (file : String) (width : Nat)
  | format (file : String) (redraw : Redraw) (width : Nat)
  | explain (id : String)
  deriving DecidableEq, Repr

end Commands

namespace Arguments

section Flags

/-- The flags of all levels. -/
inductive Flag
  | output
  | verbose
  | help
  | version
  | width
  | write
  | check
  deriving DecidableEq, Repr

namespace Flag

/-- The long name of a flag. -/
def long : Flag → String
  | output => "output"
  | verbose => "verbose"
  | help => "help"
  | version => "version"
  | width => "width"
  | write => "write"
  | check => "check"

/-- The letter of a flag. -/
def short? : Flag → Option Char
  | verbose => some 'v'
  | help => some 'h'
  | version => some 'V'
  | write => some 'w'
  | _ => none

/-- Whether a flag is followed by a value. -/
def takesValue : Flag → Bool
  | output => true
  | width => true
  | _ => false

/-- Whether a flag may be repeated. -/
def isCounter : Flag → Bool
  | verbose => true
  | _ => false

end Flag

/-- The output format of a written form. -/
def format? : String → Option Format
  | "pretty" => some .pretty
  | "json" => some .json
  | _ => none

/-- The width of a numeral: digits, after an optional plus sign, below `2 ^ 64`. -/
def width? (s : String) : Option Nat :=
  let digits :=
    match s.toList with
    | '+' :: digits => digits
    | digits => digits
  let n := Json.natOfDigits digits
  if !digits.isEmpty && digits.all Char.isDigit && n < Nat.pow 2 64 then some n else none

end Flags

section Scanning

/-- Why the reading of arguments ends early. -/
inductive Halt
  | usage
  | help
  | version
  deriving DecidableEq, Repr

/-- What the flags of a level say. -/
structure Settings where
  output : Option Format := none
  width : Option Nat := none
  given : List Flag := []
  deriving DecidableEq, Repr

/-- The settings after one more flag without a value. -/
def Settings.mark (s : Settings) (flag : Flag) : Except Halt Settings :=
  match flag with
  | .help => .error .help
  | .version => .error .version
  | flag =>
    if flag.takesValue || (s.given.contains flag && !flag.isCounter) then
      .error .usage
    else
      .ok { s with given := flag :: s.given }

/-- The settings after one more flag with a value. -/
def Settings.assign (s : Settings) (flag : Flag) (value : String) : Except Halt Settings :=
  if s.given.contains flag then
    .error .usage
  else
    match flag with
    | .output =>
      match format? value with
      | some format => .ok { s with output := some format, given := flag :: s.given }
      | none => .error .usage
    | .width =>
      match width? value with
      | some width => .ok { s with width := some width, given := flag :: s.given }
      | none => .error .usage
    | _ => .error .usage

/-- The settings after the letters of one argument. -/
def Settings.markAll (known : List Flag) (s : Settings) (letters : List Char) :
    Except Halt Settings :=
  letters.foldlM
    (fun s letter =>
      match known.find? (·.short? == some letter) with
      | some flag => s.mark flag
      | none => .error .usage)
    s

/-- What an argument is. -/
inductive Shape
  /-- The end of the flags. -/
  | dashes
  /-- A long flag, with the value attached to it, if there is one. -/
  | long (name : String) (value : Option String)
  /-- Letters of flags. -/
  | letters (letters : List Char)
  /-- Any other argument. -/
  | plain
  deriving DecidableEq, Repr

/-- The shape of an argument. -/
def shapeOf (arg : String) : Shape :=
  match arg.toList with
  | ['-', '-'] => .dashes
  | '-' :: '-' :: rest =>
    let name := String.ofList (rest.takeWhile (· != '='))
    match rest.dropWhile (· != '=') with
    | [] => .long name none
    | _ :: value => .long name (some (String.ofList value))
  | '-' :: letter :: rest => .letters (letter :: rest)
  | _ => .plain

/-- Reads flags up to the first argument that is none, which is left in place, as is `--`. -/
def scan (known : List Flag) (s : Settings) : List String → Except Halt (Settings × List String)
  | [] => .ok (s, [])
  | arg :: rest =>
    match shapeOf arg with
    | .dashes => .ok (s, arg :: rest)
    | .plain => .ok (s, arg :: rest)
    | .letters letters => do scan known (← s.markAll known letters) rest
    | .long name value =>
      match known.find? (·.long == name), value with
      | none, _ => .error .usage
      | some flag, some value => do scan known (← s.assign flag value) rest
      | some flag, none =>
        if flag.takesValue then
          match rest with
          | [] => .error .usage
          | value :: rest => do scan known (← s.assign flag value) rest
        else do
          scan known (← s.mark flag) rest

/-- Reads the flags around the only argument of a command. -/
def single (known : List Flag) (args : List String) : Except Halt (Settings × String) := do
  let (s, rest) ← scan known {} args
  match rest with
  | [] => .error .usage
  | "--" :: [arg] => .ok (s, arg)
  | "--" :: _ => .error .usage
  | arg :: rest =>
    let (s, rest) ← scan known s rest
    match rest with
    | [] => .ok (s, arg)
    | ["--"] => .ok (s, arg)
    | _ => .error .usage

end Scanning

section Reading

/-- The names of the commands. -/
def commandNames : List String :=
  ["compile", "check", "tree", "decompile", "format", "explain"]

/-- The flags that a command knows besides those of every command. -/
def ownFlags : String → List Flag
  | "decompile" => [.width]
  | "format" => [.write, .check, .width]
  | _ => []

/-- What `format` does, by the flags that are given. -/
def redrawOf (s : Settings) : Except Halt Redraw :=
  match s.given.contains .write, s.given.contains .check with
  | true, true => .error .usage
  | true, false => .ok .write
  | false, true => .ok .check
  | false, false => .ok .print

/-- The command with a name, by its settings and its argument. -/
def commandOf (name : String) (s : Settings) (arg : String) : Except Halt Command :=
  let width := s.width.getD 0
  match name with
  | "compile" => .ok (.compile arg)
  | "check" => .ok (.check arg)
  | "tree" => .ok (.tree arg)
  | "decompile" => .ok (.decompile arg width)
  | "format" => (redrawOf s).map (.format arg · width)
  | "explain" => .ok (.explain arg)
  | _ => .error .usage

/-- A request for help on the commands named after `help`. -/
def helpOn (names : List String) : Halt :=
  match names with
  | [] => .help
  | [name] => if ("help" :: commandNames).contains name then .help else .usage
  | _ => .usage

/-- The command that the arguments ask for, and the output format if they choose one. -/
def read (args : List String) : Except Halt (Option Format × Command) := do
  let (outer, rest) ← scan [.output, .verbose, .help, .version] {} args
  match rest with
  | [] => .error .usage
  | "help" :: names => .error (helpOn names)
  | name :: rest =>
    if commandNames.contains name then
      let (inner, arg) ← single ([.output, .verbose, .help] ++ ownFlags name) rest
      let command ← commandOf name inner arg
      return (inner.output <|> outer.output, command)
    else
      .error .usage

end Reading

end Arguments
end RelayLadder
