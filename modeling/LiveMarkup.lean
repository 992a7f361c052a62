import LiveMarkup.Live.Inspect
import LiveMarkup.Scalar
import LiveMarkup.Proofs.Consistency
import LiveMarkup.Proofs.SlotNames
import LiveMarkup.Proofs.MarkupReading
import LiveMarkup.Proofs.Written
import LiveMarkup.Proofs.Balance
import LiveMarkup.Proofs.Failure
import LiveMarkup.Proofs.Compilation
import LiveMarkup.Proofs.Network
import LiveMarkup.Proofs.Upstream
import LiveMarkup.Proofs.Aloof
import LiveMarkup.Proofs.Following
import LiveMarkup.Proofs.Mounting
import LiveMarkup.Proofs.Legible
import LiveMarkup.Proofs.Roundtrip
import LiveMarkup.Proofs.Painting
import LiveMarkup.Proofs.Showing
import LiveMarkup.Proofs.Turning
import LiveMarkup.Proofs.Staging
import LiveMarkup.Proofs.Drafting
import LiveMarkup.Proofs.Sources
import LiveMarkup.Proofs.Inscribing
import LiveMarkup.Proofs.Visiting
import LiveMarkup.Proofs.Exhibition
import LiveMarkup.Proofs.Moves
import LiveMarkup.Proofs.Likeness
import LiveMarkup.Proofs.Wording
import LiveMarkup.Proofs.Success
import LiveMarkup.Proofs.Agreement
import LiveMarkup.Proofs.Isolation
import LiveMarkup.Proofs.Outlining
import LiveMarkup.Proofs.Transitions
import LiveMarkup.Proofs.Tracing
import LiveMarkup.Proofs.Precedence
import LiveMarkup.Proofs.Marking
import LiveMarkup.Proofs.Declarations
import LiveMarkup.Proofs.Replacement
import LiveMarkup.Proofs.Registration
import LiveMarkup.Proofs.LoneElements
import LiveMarkup.Proofs.Validation
import LiveMarkup.Proofs.Sketching
import LiveMarkup.Proofs.Lettering
import LiveMarkup.Proofs.Premiere
import LiveMarkup.Proofs.Overwriting
import LiveMarkup.Proofs.Sameness
import LiveMarkup.Proofs.Excerpts
import LiveMarkup.Proofs.Cloning
import LiveMarkup.Proofs.Unsubscribing
import LiveMarkup.Proofs.Producing
import LiveMarkup.Proofs.TidyTemplates
