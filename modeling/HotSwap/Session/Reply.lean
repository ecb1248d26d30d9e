import HotSwap.Config.Basic
import HotSwap.Report.Basic
import HotSwap.Snapshot.Basic
import HotSwap.Store.Basic
/-!
# Replies

What a session answers. Things are given by their labels, the names under which they are known.
-/

namespace HotSwap

inductive LabelledBinding
  | plain (b : Binding)
  | component (label : String)
  | object (label : String)

structure RegistrationInfo where
  id : String
  signature : Option String
  dependencies : Option (List (String × LabelledBinding))
  location : Option String
  component : String
  proxy : String
  current : Option String

structure ContextInfo where
  key : String
  id : String
  label : String
  fallback : Json

inductive Reply
  | nothing
  | flag (value : Bool)
  | count (n : Nat)
  | json (value : Json)
  | text (s : String)
  | memo (freshness : Freshness) (hasValue : Bool) (readers : Nat)
  | effect (runs dependencies : Nat) (disposed : Bool)
  | tracking (active : Bool) (sources : List String)
  | contexts (handle token provider own : Bool)
  | found (value : Option Json)
  | view (v : View)
  | viewState (state : Option (Freshness × Bool))
  | component (name : String) (dev : Bool)
  | proxy (id : String) (location current : Option String)
  | registry (components : List (String × RegistrationInfo)) (contexts : List ContextInfo)
      (isEmpty : Bool)
  | registration (component : Option RegistrationInfo) (context : Option String)
  | snapshot (s : Snapshot)
  | report (r : PatchReport)
  | patchedComponents (reload : Bool) (report : PatchReport)
      (components : List (String × RegistrationInfo))
  | patchedContexts (reload : Bool) (report : PatchReport) (keys : List String)
  | label (l : Option String)
  | events (id : String) (events : List HotEvent)
  | slots (labels : Option (Option String × Option String))
  | config (c : Config)
  | failure (e : Error)
  | badInput
  | exhausted
  | steps (items : List (Reply × List Event))
  | tracked (mine : Bool) (items : List (Reply × List Event)) (sources : List String)

def Event.isShown : Event → Bool
  | .read _ _ _ => false
  | _ => true

end HotSwap
