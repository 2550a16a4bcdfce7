import Tabular.Format.Document
import Tabular.Read.Rows
import Tabular.Table.Load
import Tabular.Table.Sort
import Tabular.Writer
import Tabular.Proofs.Text.Ascii
import Tabular.Proofs.Text.WholeRun
import Tabular.Proofs.Input.Memory
import Tabular.Proofs.Input.Steady
import Tabular.Proofs.Read.Chars
import Tabular.Proofs.Read.Cell
import Tabular.Proofs.Read.Start
import Tabular.Proofs.Read.Runs
import Tabular.Proofs.Read.Bytewise
import Tabular.Proofs.Read.Split
import Tabular.Proofs.Read.Whole
import Tabular.Proofs.Read.Grammar
import Tabular.Proofs.Read.Alike
import Tabular.Proofs.Read.Stream
import Tabular.Proofs.Read.Detect
import Tabular.Proofs.Read.Scan
import Tabular.Proofs.Read.Offsets
import Tabular.Proofs.Read.Learn
import Tabular.Proofs.Read.Slip
import Tabular.Proofs.Read.Heed
import Tabular.Proofs.Read.Pull
import Tabular.Proofs.Text.Canonical
import Tabular.Proofs.Read.Within
import Tabular.Proofs.Read.Decoded
import Tabular.Proofs.Read.Progress
import Tabular.Proofs.Read.Spelled
import Tabular.Proofs.Read.Cover
import Tabular.Proofs.Table.Block
import Tabular.Proofs.Table.Column
import Tabular.Proofs.Table.Add
import Tabular.Proofs.Table.Chunks
import Tabular.Proofs.Table.Points
import Tabular.Proofs.Table.Parts
import Tabular.Proofs.Table.Load
import Tabular.Proofs.Table.Cells
import Tabular.Proofs.Table.Sheet
import Tabular.Proofs.Table.Edits
import Tabular.Proofs.Table.Handles
import Tabular.Proofs.Table.Deposits
import Tabular.Proofs.Table.Changes
import Tabular.Proofs.Text.Encode
import Tabular.Proofs.Write.Mark
import Tabular.Proofs.Write.Cell
import Tabular.Proofs.Write.Rows
import Tabular.Proofs.Write.RoundTrip
import Tabular.Proofs.Input.Mended
import Tabular.Proofs.Read.Keeps
import Tabular.Proofs.Read.Standing
import Tabular.Proofs.Read.Failure
import Tabular.Proofs.Read.Mended
import Tabular.Proofs.Read.Faults
import Tabular.Proofs.Read.Interrupted
import Tabular.Proofs.Read.Retold
import Tabular.Proofs.Read.Spelling
import Tabular.Proofs.Read.Pieces
import Tabular.Proofs.Read.Folded
import Tabular.Proofs.Format.Escape
import Tabular.Proofs.Format.Settings
import Tabular.Proofs.Json.Value
import Tabular.Proofs.Format.Document
import Tabular.Proofs.Read.Boundary
import Tabular.Proofs.Read.Malformed
import Tabular.Proofs.Read.Spans
import Tabular.Proofs.Read.Broken
import Tabular.Proofs.Table.Swaps
import Tabular.Proofs.Table.Sort
import Tabular.Proofs.Format.Merge
import Tabular.Proofs.Read.Trim
import Tabular.Proofs.Read.Marked
import Tabular.Proofs.Read.Plain
import Tabular.Proofs.Read.Trails
import Tabular.Proofs.Read.Line
import Tabular.Proofs.Read.Skim
import Tabular.Proofs.Read.Skipped
import Tabular.Proofs.Format.Denoted
import Tabular.Proofs.Input.Calls
import Tabular.Input.Buffer
import Tabular.Proofs.Input.Buffer
import Tabular.Proofs.Read.Reported
