import HotSwap.Proofs.Context.Converging
import HotSwap.Proofs.Context.Serving
import HotSwap.Proofs.Edit.Installed
import HotSwap.Proofs.Edit.OneProxy
import HotSwap.Proofs.Edit.Snapshot
import HotSwap.Proofs.Effect.Ended
import HotSwap.Proofs.Graph.Glitch
import HotSwap.Proofs.Graph.Invalidation
import HotSwap.Proofs.Graph.Recomputation
import HotSwap.Proofs.Host.Clash
import HotSwap.Proofs.Mount.Following
import HotSwap.Proofs.Redraw.Exhibition
import HotSwap.Proofs.Registry.Merge
import HotSwap.Proofs.Registry.Removal
import HotSwap.Proofs.Scope.Mounted
import HotSwap.Proofs.Snapshot.Truncation
import HotSwap.Proofs.Subscription.Interaction
import HotSwap.Proofs.Transport.Agreement
import HotSwap.Report.Json
import HotSwap.Session.Run
import HotSwap.Snapshot.Json
import HotSwap.Snapshot.MessagePack
import HotSwap.Proofs.Binding.Comparison
import HotSwap.Proofs.Json.Grammar
import HotSwap.Proofs.Json.Reading
import HotSwap.Proofs.Json.Shapes
import HotSwap.Proofs.Json.Slots
import HotSwap.Proofs.Snapshot.Entry
import HotSwap.Proofs.Snapshot.Presentation
import HotSwap.Proofs.Flatten.Bystander
import HotSwap.Proofs.Flatten.Evaluation
import HotSwap.Proofs.Flatten.Flattening
import HotSwap.Proofs.Nested.Enclosing
import HotSwap.Proofs.Nested.Agreement
import HotSwap.Proofs.Nested.Evaluation
import HotSwap.Proofs.Nested.Program
