import HotSwap.Dependency
import HotSwap.Reactive.Node
/-!
# Registries

All registrations that one evaluation of a module made, in the order in which they were made. A
repeated id takes the place of the earlier registration.
-/

namespace HotSwap

abbrev RegistryId := Nat

/-- Record of one component: the body it was registered with, the proxy handed to call sites, and
the cell that the proxy reads. -/
structure Registration where
  id : String
  component : ComponentId
  proxy : ComponentId
  cell : NodeId
  signature : Option String
  dependencies : Option Dependencies
  location : Option String

structure ContextRegistration where
  id : String
  context : ContextId
  deriving DecidableEq

structure Registry where
  components : OrderedMap String Registration := .empty
  contexts : OrderedMap String ContextRegistration := .empty

structure RegistrationOptions where
  signature : Option String := none
  dependencies : Option Dependencies := none
  location : Option String := none

/-- Signature and dependencies travel together: a signature alone has no dependencies to compare,
and dependencies without a signature are ignored. -/
def RegistrationOptions.paired (o : RegistrationOptions) : Option Dependencies :=
  o.signature.map fun _ => o.dependencies.getD .empty

def Registration.handles (r : Registration) : List Handle :=
  [.component r.component, .component r.proxy, .node r.cell]
    ++ ((r.dependencies.map fun d => d.values.flatMap Binding.handles).getD [])

/-- Later edits are compared against what is installed, so its metadata comes with it. -/
def Registration.adopt (old new : Registration) : Registration :=
  { old with signature := new.signature, dependencies := new.dependencies }

namespace Registry

def isEmpty (r : Registry) : Bool := r.components.isEmpty && r.contexts.isEmpty

def handles (r : Registry) : List Handle := r.components.values.flatMap Registration.handles

end Registry

end HotSwap
