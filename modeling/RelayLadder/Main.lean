import RelayLadder.Command.Run

/-!
# The command line

Reads the source of a command, runs it, and carries out what it leaves behind.
-/

namespace RelayLadder
namespace CommandLine

/-- The bytes of a stream up to its end. -/
partial def readAll (stream : IO.FS.Stream) (bytes : ByteArray) : IO ByteArray := do
  let chunk ← stream.read 65536
  if chunk.isEmpty then
    return bytes
  else
    readAll stream (bytes ++ chunk)

/-- The bytes of a source. -/
def readSource : Source → IO (Except ReadFailure ByteArray)
  | .stdin => do
    return .ok (← readAll (← IO.getStdin) ByteArray.empty)
  | .file path => do
    try
      return .ok (← IO.FS.readBinFile path)
    catch
      | .noFileOrDirectory .. => return .error .notFound
      | e => return .error (.other (toString e))

/-- Writes a file. -/
def store (path : String) (content : ByteArray) : IO Storing := do
  try
    IO.FS.writeBinFile path content
    return .whole
  catch e =>
    return .refused (toString e)

/-- Writes the file of an outcome, if there is one. -/
def settle (o : Outcome) : IO Outcome := do
  match o.write with
  | some (path, content) => return o.stored path (← store path content)
  | none => return o

/-- The outcome of a run.  Without a choice the format is `pretty` on a terminal. -/
def outcomeOf (args : List String) : IO Outcome := do
  match Arguments.read args with
  | .error halt => return .ofHalt halt
  | .ok (format, command) =>
    let standard := if ← (← IO.getStdout).isTty then Format.pretty else Format.json
    let content ←
      match command.source? with
      | some source => readSource source
      | none => pure (.error .notFound)
    settle (command.run (format.getD standard) fun _ => content)

end CommandLine
end RelayLadder

/-- Runs the program and hands over what it leaves behind. -/
def main (args : List String) : IO UInt32 := do
  let o ← RelayLadder.CommandLine.outcomeOf args
  IO.print o.out
  IO.eprint o.err
  return o.status
