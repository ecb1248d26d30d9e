import HotSwap.Component.Basic
import HotSwap.Host.Basic
import HotSwap.Reactive.Edges
import HotSwap.Reactive.Node
import HotSwap.Registry.Basic
/-!
# The store

Everything that a running program can change: reactive nodes and who reads them, the stacks of
running computations and of providers, components, contexts, registries, hosts, and what is held. A
`Machine` is a computation over the store; it has no result if it ran out of fuel.
-/

namespace HotSwap

/-- Handle of a context. It carries a token and a provider, which another handle's may replace. -/
structure Context where
  token : Token
  provider : Nat
  fallback : Json

inductive Event
  /-- A tracked or untracked read of a source, by the computation that runs. -/
  | read (reader : Option NodeId) (source : NodeId) (value : Content)
  | memo (node : NodeId) (name : String) (value : Json)
  | effect (node : NodeId) (name : String) (value : Json)
  /-- The body of a component starts. -/
  | render (component : ComponentId) (name : String)
  /-- The computation of a reactive node in a template starts. -/
  | node (node : NodeId) (label : String)
  | note (value : Json)
  | dirty (node : NodeId) (name : String)
  | scheduled (node : NodeId) (name : String)
  | accepted (name : String) (module : Option String)
  | disposed (name : String) (handedOn : Bool)

structure Store where
  nodes : List Node := []
  edges : Edges := .empty
  /-- Running computations, the innermost first. -/
  frames : List Frame := []
  provided : Scope := []
  components : List Component := []
  contexts : List Context := []
  /-- The token that each provider serves. -/
  providers : List Token := []
  tokens : Nat := 0
  registries : List Registry := []
  data : List HotData := []
  hosts : List Host := []
  /-- For each gate, whether it has warned. The first is the gate of the whole process. -/
  gates : List Bool := [false]
  /-- What exists and has not been let go. -/
  live : List Handle := []
  /-- What is held from outside, once for each handle. -/
  roots : List Handle := []
  /-- What running computations hold. -/
  pinned : List Handle := []
  /-- The latest event first. -/
  trace : List Event := []

def processGate : GateId := 0

abbrev Machine := StateT Store Option

namespace Machine

def exhausted : Machine α := fun _ => none

def emit (e : Event) : Machine Unit := modify fun s => { s with trace := e :: s.trace }

def addNode (n : Node) : Machine NodeId := do
  let id := (← get).nodes.length
  modify fun s => { s with nodes := s.nodes ++ [n], live := .node id :: s.live }
  return id

def node? (id : NodeId) : Machine (Option Node) := return (← get).nodes[id]?

def setNode (id : NodeId) (n : Node) : Machine Unit :=
  modify fun s => { s with nodes := s.nodes.set id n }

def memo? (id : NodeId) : Machine (Option Memo) := do
  match ← node? id with
  | some (.memo m) => return some m
  | _ => return none

def effect? (id : NodeId) : Machine (Option Effect) := do
  match ← node? id with
  | some (.effect e) => return some e
  | _ => return none

def addComponent (c : Component) : Machine ComponentId := do
  let id := (← get).components.length
  modify fun s => { s with components := s.components ++ [c], live := .component id :: s.live }
  return id

def component? (id : ComponentId) : Machine (Option Component) := return (← get).components[id]?

def setComponent (id : ComponentId) (c : Component) : Machine Unit :=
  modify fun s => { s with components := s.components.set id c }

def addRegistry (r : Registry) : Machine RegistryId := do
  let id := (← get).registries.length
  modify fun s => { s with registries := s.registries ++ [r], live := .registry id :: s.live }
  return id

def registry (id : RegistryId) : Machine Registry := return ((← get).registries[id]?).getD {}

def setRegistry (id : RegistryId) (r : Registry) : Machine Unit :=
  modify fun s => { s with registries := s.registries.set id r }

def addData (d : HotData) : Machine DataId := do
  let id := (← get).data.length
  modify fun s => { s with data := s.data ++ [d], live := .data id :: s.live }
  return id

def hotData (id : DataId) : Machine HotData := return ((← get).data[id]?).getD .empty

def setHotData (id : DataId) (d : HotData) : Machine Unit :=
  modify fun s => { s with data := s.data.set id d }

def addHost (h : Host) : Machine HostId := do
  let id := (← get).hosts.length
  modify fun s => { s with hosts := s.hosts ++ [h], live := .host id :: s.live }
  return id

def host (id : HostId) : Machine Host := return ((← get).hosts[id]?).getD ⟨"", none, [], [], []⟩

def setHost (id : HostId) (h : Host) : Machine Unit :=
  modify fun s => { s with hosts := s.hosts.set id h }

def addGate : Machine GateId := do
  let id := (← get).gates.length
  modify fun s => { s with gates := s.gates ++ [false] }
  return id

end Machine

end HotSwap
