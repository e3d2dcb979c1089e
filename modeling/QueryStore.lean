import QueryStore.Command.Tasks
import QueryStore.Command.Arguments
import QueryStore.Main
import QueryStore.Proofs.Session.Sharing
import QueryStore.Proofs.Token.Spacing
import QueryStore.Proofs.Token.Cuts
import QueryStore.Proofs.Token.Spans
import QueryStore.Proofs.Token.Follows
import QueryStore.Proofs.Document.Alike
import QueryStore.Proofs.Document.Segments
import QueryStore.Proofs.Text.Lines
import QueryStore.Proofs.Token.Places
import QueryStore.Proofs.Fragment.Preparation
import QueryStore.Proofs.Fragment.OwnTexts
import QueryStore.Proofs.Fragment.Faithful
import QueryStore.Proofs.Fragment.Regular
import QueryStore.Proofs.Session.Transparency
import QueryStore.Proofs.Session.Conflicts
import QueryStore.Proofs.Session.Failures
import QueryStore.Proofs.Document.Locations
import QueryStore.Proofs.Session.Coherence
import QueryStore.Proofs.Document.Derivation
import QueryStore.Proofs.Document.Exact
import QueryStore.Proofs.Text.Offsets
import QueryStore.Proofs.Token.Order
import QueryStore.Proofs.Session.Accepted
import QueryStore.Proofs.Document.Meaning
import QueryStore.Proofs.Fragment.Conservative
import QueryStore.Proofs.Fragment.Excised
import QueryStore.Proofs.Fragment.Aligned
import QueryStore.Proofs.Fragment.Cutting
import QueryStore.Proofs.Fragment.Keeping
import QueryStore.Proofs.Fragment.Attached
import QueryStore.Proofs.Token.Resume
import QueryStore.Proofs.Fragment.Inserted
import QueryStore.Proofs.Fragment.Declares
import QueryStore.Proofs.Fragment.Recovered
import QueryStore.Proofs.Fragment.Declared
import QueryStore.Proofs.Command.Verdicts
import QueryStore.Proofs.Command.Reports
import QueryStore.Proofs.Session.Interpolation
import QueryStore.Proofs.Observations
import QueryStore.Proofs.Session.Replay
import QueryStore.Proofs.Session.Duplicates
import QueryStore.Proofs.Session.Gating
import QueryStore.Proofs.Session.FragmentPass
import QueryStore.Proofs.Session.Warned
import QueryStore.Proofs.Document.Agreement
import QueryStore.Proofs.Document.Stripped
import QueryStore.Proofs.Document.Spreads
import QueryStore.Proofs.Fragment.Kept
import QueryStore.Proofs.Fragment.Dotted
import QueryStore.Proofs.Fragment.Blanking
import QueryStore.Proofs.Text.Coordinates
import QueryStore.Proofs.Text.Words
import QueryStore.Proofs.Document.JsonForm
import QueryStore.Proofs.Command.Summaries
import QueryStore.Proofs.Fragment.Extracting
