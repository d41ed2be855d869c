import RelayLadder.Canvas.Basic
import RelayLadder.Command.Arguments
import RelayLadder.Command.Outcome
import RelayLadder.Command.Run
import RelayLadder.Diagnostic.Basic
import RelayLadder.Diagnostic.Code
import RelayLadder.Diagnostic.Json
import RelayLadder.Drawing
import RelayLadder.Expr.Basic
import RelayLadder.Expr.Json
import RelayLadder.Fault
import RelayLadder.Instruction.Basic
import RelayLadder.Instruction.Json
import RelayLadder.Json.Basic
import RelayLadder.Json.Double
import RelayLadder.Json.Number
import RelayLadder.Json.Printer
import RelayLadder.Json.Reader
import RelayLadder.Main
import RelayLadder.Negation
import RelayLadder.Receiver
import RelayLadder.Rung.Basic
import RelayLadder.Rung.Split
import RelayLadder.Schematic
import RelayLadder.Text.Basic
import RelayLadder.Wire.Basic
import RelayLadder.Wire.Reader
import RelayLadder.Proofs.Wire.Grammar
import RelayLadder.Proofs.Wire.Rails
import RelayLadder.Proofs.Wire.Reading
import RelayLadder.Proofs.Machine.Basic
import RelayLadder.Proofs.Machine.Trees
import RelayLadder.Proofs.Canvas.Sheet
import RelayLadder.Proofs.Drawing.Basic
import RelayLadder.Proofs.Drawing.Branch
import RelayLadder.Proofs.Drawing.Block
import RelayLadder.Proofs.Drawing.Coils
import RelayLadder.Proofs.Schematic.Rungs
import RelayLadder.Proofs.Schematic.Linear
import RelayLadder.Proofs.Receiver
import RelayLadder.Proofs.Schematic.Compiled
import RelayLadder.Proofs.Schematic.Canonical
import RelayLadder.Proofs.Schematic.RoundTrip
import RelayLadder.Proofs.Depth
import RelayLadder.Proofs.Machine.Postfix
import RelayLadder.Proofs.Wire.Balance
import RelayLadder.Proofs.Schematic.Meaning
import RelayLadder.Proofs.Schematic.Idempotent
import RelayLadder.Proofs.Command.Run
import RelayLadder.Proofs.Command.Format
import RelayLadder.Proofs.Json.ReadBack
import RelayLadder.Proofs.Json.Program
import RelayLadder.Proofs.Command.Pipe
import RelayLadder.Proofs.Schematic.Rows
import RelayLadder.Proofs.Wire.Fault
import RelayLadder.Proofs.Drawing.Refusal
import RelayLadder.Proofs.Schematic.Place
import RelayLadder.Proofs.Schematic.Stream
import RelayLadder.Proofs.Refolding
import RelayLadder.Proofs.Schematic.Refolded
import RelayLadder.Proofs.Rewriting
import RelayLadder.Proofs.Machine.Plant
import RelayLadder.Proofs.Schematic.Drawable
import RelayLadder.Proofs.Command.Files
import RelayLadder.Proofs.Building
import RelayLadder.Proofs.Shortage
import RelayLadder.Proofs.Wire.Scan
import RelayLadder.Proofs.Schematic.Partition
import RelayLadder.Proofs.Schematic.Commentary
import RelayLadder.Proofs.Drawing.Box
import RelayLadder.Proofs.Schematic.Refused
import RelayLadder.Proofs.Json.Tree
import RelayLadder.Proofs.Drawing.Frame
import RelayLadder.Proofs.Canvas.Operation
import RelayLadder.Proofs.Canvas.Depth
import RelayLadder.Proofs.Wire.Padding
