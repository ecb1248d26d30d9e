import HotSwap.Flavor
import HotSwap.Json.Fault
/-!
# Errors

Reconciliation never fails: a patch that cannot be made in place is a demand to reload. Errors come
from the edges only, which read configuration and snapshots or meet a host of the wrong shape.
-/

namespace HotSwap

inductive Error
  | configuration (fault : Json.Fault)
  | unknownTransport (name : String)
  | invalidVariable (key value : String)
  | transportMismatch (flavor : Flavor)
  | undecodable
  deriving DecidableEq

def Error.message? : Error → Option String
  | .configuration (.mismatch m) => some ("invalid configuration: " ++ m.message)
  | .configuration .malformed => none
  | .configuration .unfinished => none
  | .unknownTransport n => some ("unknown transport flavor `" ++ n ++ "`")
  | .invalidVariable key value => some ("invalid value `" ++ value ++ "` for " ++ key)
  | .transportMismatch f =>
    some ("transport `" ++ f.name ++ "` expects a " ++ f.shape.handle ++ " hot handle")
  | .undecodable => none

end HotSwap
