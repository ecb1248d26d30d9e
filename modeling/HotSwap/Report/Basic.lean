/-!
# Patch reports

What one reconciliation did, id by id.
-/

namespace HotSwap

structure PatchReport where
  swapped : List String := []
  unchanged : List String := []
  added : List String := []
  removed : List String := []
  contextsPatched : List String := []
  contextsAdded : List String := []
  contextsRemoved : List String := []
  deriving DecidableEq

def PatchReport.mustReload (r : PatchReport) : Bool :=
  !r.removed.isEmpty || !r.contextsRemoved.isEmpty

end HotSwap
