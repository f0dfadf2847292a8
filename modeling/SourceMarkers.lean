import SourceMarkers.Annotation
import SourceMarkers.Command.Attempt
import SourceMarkers.Command.Inputs
import SourceMarkers.Command.Options
import SourceMarkers.Command.Session
import SourceMarkers.Dialect
import SourceMarkers.Document
import SourceMarkers.Fields
import SourceMarkers.FileTree
import SourceMarkers.Finding
import SourceMarkers.Glob.Expand
import SourceMarkers.Glob.Pattern
import SourceMarkers.Json
import SourceMarkers.Kind
import SourceMarkers.Log
import SourceMarkers.Main
import SourceMarkers.Margin
import SourceMarkers.Marker
import SourceMarkers.Nesting
import SourceMarkers.Path
import SourceMarkers.Report
import SourceMarkers.Report.Annotated
import SourceMarkers.Report.JsonLines
import SourceMarkers.Report.Listing
import SourceMarkers.Segment
import SourceMarkers.Terminal.Plain
import SourceMarkers.Terminal.Visible
import SourceMarkers.Text.Basic
import SourceMarkers.Text.Blank
import SourceMarkers.Text.Continuation
import SourceMarkers.Text.Literal
import SourceMarkers.Text.Tidy
import SourceMarkers.Proofs.Balance
import SourceMarkers.Proofs.Cut
import SourceMarkers.Proofs.Findings
import SourceMarkers.Proofs.Joining
import SourceMarkers.Proofs.FieldCuts
import SourceMarkers.Proofs.Breaking
import SourceMarkers.Proofs.Writing
import SourceMarkers.Proofs.Bytes
import SourceMarkers.Proofs.Classification
import SourceMarkers.Proofs.Keywords
import SourceMarkers.Proofs.Literals
import SourceMarkers.Proofs.NeatFields
import SourceMarkers.Proofs.Spans
import SourceMarkers.Proofs.CarriageReturns
import SourceMarkers.Proofs.LineEndings
import SourceMarkers.Proofs.ReportEndings
import SourceMarkers.Proofs.Checked
import SourceMarkers.Proofs.CheckedFields
import SourceMarkers.Proofs.Faultless
import SourceMarkers.Proofs.PathOrder
import SourceMarkers.Proofs.Routes
import SourceMarkers.Proofs.Margins
import SourceMarkers.Proofs.Passages
import SourceMarkers.Proofs.Collapsing
import SourceMarkers.Proofs.Tidying
import SourceMarkers.Proofs.Selection
import SourceMarkers.Proofs.WrittenOptions
import SourceMarkers.Proofs.FileReports
import SourceMarkers.Proofs.FileSessions
import SourceMarkers.Proofs.Wiping
import SourceMarkers.Proofs.Ineligible
import SourceMarkers.Proofs.Settled
import SourceMarkers.Proofs.Parentheses
import SourceMarkers.Proofs.Matching
import SourceMarkers.Proofs.Separators
import SourceMarkers.Proofs.BodyNesting
import SourceMarkers.Proofs.Insertions
import SourceMarkers.Proofs.Placements
import SourceMarkers.Proofs.KindSelection
import SourceMarkers.Proofs.Canonical
import SourceMarkers.Proofs.GateWidening
import SourceMarkers.Proofs.Listings
import SourceMarkers.Proofs.Readers
import SourceMarkers.Proofs.JsonReading
import SourceMarkers.Proofs.JsonRecords
import SourceMarkers.Proofs.LineOffsets
import SourceMarkers.Proofs.CharacterWalks
import SourceMarkers.Proofs.CharacterCuts
