import HotSwap.Component.Program
import HotSwap.Snapshot.Basic
/-!
# Registering

Each registration makes a cell that holds the component and a proxy that reads the cell. What call
sites are given is the proxy.
-/

namespace HotSwap.Machine

def newRegistration (id : String) (component : ComponentId) (o : RegistrationOptions) :
    Machine Registration := do
  let cell ← newCell (some component)
  let proxy ← newProxy id o.location cell
  return { id, component, proxy, cell
           signature := o.signature
           dependencies := o.paired
           location := o.location }

def register (r : RegistryId) (id : String) (component : ComponentId) (o : RegistrationOptions) :
    Machine ComponentId := do
  let registration ← newRegistration id component o
  let old ← registry r
  setRegistry r { old with components := old.components.insert id registration }
  return registration.proxy

def registerContext (r : RegistryId) (id : String) (context : ContextId) : Machine ContextId := do
  let old ← registry r
  setRegistry r { old with contexts := old.contexts.insert id { id, context } }
  return context

def installed (r : Registration) : Machine (Option ComponentId) := cellContent r.cell

def redirect (r : Registration) (component : ComponentId) : Machine Unit :=
  setCell r.cell (some component)

def entryOf (r : Registration) : Machine ComponentEntry := do
  return { id := r.id
           name := ← componentName r.component
           signature := r.signature
           dependencies := r.dependencies.map OrderedMap.keys
           location := r.location }

def snapshot (r : Registry) : Machine Snapshot := do
  return { components := ← r.components.values.mapM entryOf, contexts := r.contexts.keys }

end HotSwap.Machine
