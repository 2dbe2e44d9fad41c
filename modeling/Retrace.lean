import Retrace.Number.Binary64
import Retrace.Text.Alphanumeric
import Retrace.Text.Blank
import Retrace.Text.Bytes
import Retrace.Text.Lines
import Retrace.Source.WireRange
import Retrace.Value.Payload
import Retrace.Value.Format
import Retrace.Step
import Retrace.Json.Reader
import Retrace.Trace.File
import Retrace.Replay.CallTree
import Retrace.Replay.Search
import Retrace.Replay.Source
import Retrace.Replay.Variables
import Retrace.Recorder
import Retrace.Config
import Retrace.Dump
import Retrace.CommandLine
import Retrace.Viewer.App
import Retrace.Main
import Retrace.Proofs.LineIndex
import Retrace.Proofs.EvaluatedCode
import Retrace.Proofs.Image
import Retrace.Proofs.HighlightMask
import Retrace.Proofs.Window
import Retrace.Proofs.CallTree
import Retrace.Proofs.CallFrames
import Retrace.Proofs.Dump
import Retrace.Proofs.Loading
import Retrace.Proofs.Replayable
import Retrace.Proofs.Notifying
import Retrace.Proofs.Scoping
import Retrace.Proofs.LookAhead
import Retrace.Proofs.Settling
import Retrace.Proofs.RecordedRanges
import Retrace.Proofs.Splicing
import Retrace.Proofs.ImageParts
import Retrace.Proofs.InnermostFrame
import Retrace.Proofs.Environment
import Retrace.Proofs.Positions
import Retrace.Proofs.WireRanges
import Retrace.Proofs.StatementLabels
import Retrace.Proofs.Completion
import Retrace.Proofs.Integers
import Retrace.Proofs.TypeSpelling
import Retrace.Proofs.DisplayedLines
import Retrace.Proofs.CodePane
import Retrace.Proofs.MarkedPane
import Retrace.Proofs.SourcePane
import Retrace.Proofs.Scrolling
import Retrace.Proofs.CallLines
import Retrace.Proofs.Ancestors
import Retrace.Proofs.Metadata
import Retrace.Proofs.Keys
import Retrace.Proofs.ShownLines
