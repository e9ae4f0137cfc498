import Conform.Binary64.Arithmetic
import Conform.Binary64.Basic
import Conform.Binary64.Numeral
import Conform.Binary64.Rounding
import Conform.Binary64.Shortest
import Conform.Calendar
import Conform.Check
import Conform.DateText.CalendarDate
import Conform.DateText.Layout
import Conform.DateText.MessageDate
import Conform.DateText.Reading
import Conform.DateText.Stamp
import Conform.Description.Basic
import Conform.Description.Normalize
import Conform.Description.Render
import Conform.Fields
import Conform.Instant
import Conform.Json.Basic
import Conform.Json.Cursor
import Conform.Json.Fault
import Conform.Json.NumeralReader
import Conform.Json.Printer
import Conform.Json.Reader
import Conform.Json.StringReader
import Conform.Kind
import Conform.Mismatch
import Conform.Node.Basic
import Conform.Node.Render
import Conform.Path
import Conform.Proofs.Acceptance
import Conform.Proofs.AcceptedTexts
import Conform.Proofs.Alternatives
import Conform.Proofs.Calls
import Conform.Proofs.CivilDates
import Conform.Proofs.Collecting
import Conform.Proofs.DateTimeSpellings
import Conform.Proofs.DigitRuns
import Conform.Proofs.Documents
import Conform.Proofs.Embedding
import Conform.Proofs.ExtendedYears
import Conform.Proofs.FailurePlaces
import Conform.Proofs.FieldOrder
import Conform.Proofs.Labels
import Conform.Proofs.LayoutReading
import Conform.Proofs.LayoutTexts
import Conform.Proofs.Lineage
import Conform.Proofs.LooseTexts
import Conform.Proofs.NearestDoubles
import Conform.Proofs.NodeContexts
import Conform.Proofs.Normalization
import Conform.Proofs.OpenWorld
import Conform.Proofs.PathTexts
import Conform.Proofs.Positions
import Conform.Proofs.Recognition
import Conform.Proofs.References
import Conform.Proofs.Reports
import Conform.Proofs.SchemaTexts
import Conform.Proofs.ShapeKeys
import Conform.Proofs.Shorthand
import Conform.Proofs.Spellings
import Conform.Proofs.StampInstants
import Conform.Proofs.StandardForms
import Conform.Proofs.StartPaths
import Conform.Proofs.Stopping
import Conform.Proofs.Times
import Conform.Proofs.Unambiguity
import Conform.Proofs.Walk
import Conform.Proofs.WholeDoubles
import Conform.Proofs.WrittenTimes
import Conform.Proofs.YearTexts
import Conform.Schema
import Conform.SchemaError
import Conform.Session
import Conform.Text.Blank
import Conform.Text.Digits
import Conform.Text.Quoted
import Conform.Value
