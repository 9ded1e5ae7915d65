import RecordFilter.Cursor
import RecordFilter.Cursor.Word
import RecordFilter.Form
import RecordFilter.Limits.Toml
import RecordFilter.Parse
import RecordFilter.Query.Text
import RecordFilter.Proofs.Acceptance
import RecordFilter.Proofs.Bounds
import RecordFilter.Proofs.Limits.Cutoff
import RecordFilter.Proofs.Limits.Monotone
import RecordFilter.Proofs.RoundTrip
import RecordFilter.Proofs.Unmatched
import RecordFilter.Proofs.Query.Relocate
import RecordFilter.Proofs.Respacing.Window
import RecordFilter.Proofs.Respacing.Reading
import RecordFilter.Proofs.Respacing.Machine
import RecordFilter.Proofs.Blanks
import RecordFilter.Proofs.Enclosure
import RecordFilter.Proofs.Joining
import RecordFilter.Proofs.Spans
import RecordFilter.Proofs.Location
import RecordFilter.Proofs.Viable
import RecordFilter.Proofs.Assembly
import RecordFilter.Proofs.Binary64.Rounding
import RecordFilter.Proofs.Reading.Number
import RecordFilter.Proofs.Reading.String
import RecordFilter.Proofs.FirstFault
import RecordFilter.Proofs.Query.Rendering
import RecordFilter.Proofs.Query.Equality
import RecordFilter.Proofs.Query.Unambiguous
import RecordFilter.Proofs.Form
import RecordFilter.Proofs.Cursor.Word
import RecordFilter.Proofs.Cursor.Excerpt
import RecordFilter.Proofs.Limits.Given
import RecordFilter.Proofs.Limits.Written
import RecordFilter.Proofs.Reading.Hint
import RecordFilter.Proofs.Machine.StepCount
import RecordFilter.Proofs.Lockstep
import RecordFilter.Proofs.Segmentation
