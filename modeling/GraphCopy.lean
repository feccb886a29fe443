import GraphCopy.Copy.Session
import GraphCopy.Copy.Filling
import GraphCopy.Graph.Survey
import GraphCopy.Text.Json
import GraphCopy.Types.Summary
import GraphCopy.Value.Notation
import GraphCopy.Options.Load
import GraphCopy.Proofs.Sharing.History
import GraphCopy.Proofs.Copy.Once
import GraphCopy.Proofs.Copy.Independence
import GraphCopy.Proofs.Copy.Retry
import GraphCopy.Proofs.Copy.Agreement
import GraphCopy.Proofs.Graph.Scalars
import GraphCopy.Proofs.Sharing.Safety
import GraphCopy.Proofs.Copy.Failure
import GraphCopy.Proofs.Copy.Capabilities
import GraphCopy.Proofs.Copy.Depth
import GraphCopy.Proofs.Copy.Frame
import GraphCopy.Proofs.Copy.Injective
import GraphCopy.Proofs.Copy.Workshop
import GraphCopy.Proofs.Container.Insertion
import GraphCopy.Proofs.Graph.Renumbering
import GraphCopy.Proofs.Graph.Walks
import GraphCopy.Proofs.Number.Narrowing
import GraphCopy.Proofs.Value.RoundTrip
import GraphCopy.Proofs.Value.Accepting
import GraphCopy.Proofs.Types.Lens
import GraphCopy.Proofs.Copy.Arrays
import GraphCopy.Proofs.Copy.Registration
import GraphCopy.Proofs.Value.Equality
