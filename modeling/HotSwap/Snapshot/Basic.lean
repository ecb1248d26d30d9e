/-!
# Snapshots

What a registry can tell about itself outside the process: ids, names, signatures, names of
dependencies, locations. No bodies, no cells.
-/

namespace HotSwap

structure ComponentEntry where
  id : String
  name : String
  signature : Option String := none
  dependencies : Option (List String) := none
  location : Option String := none
  deriving DecidableEq

structure Snapshot where
  components : List ComponentEntry
  contexts : List String
  deriving DecidableEq

def Snapshot.isGranular (s : Snapshot) : Bool :=
  !s.components.isEmpty && s.components.all fun c => c.signature.isSome

end HotSwap
