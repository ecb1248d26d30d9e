import HotSwap.Config.Basic
import HotSwap.Host.Program
/-!
# Sessions

A session drives the runtime by names. Each kind of thing has a table of its own; defining a name
again replaces its handle where it stands and lets go of the old one. What a name stands for is held
as long as the name does.
-/

namespace HotSwap

/-- A probe that has been dropped keeps its identity, but is told nothing any more. -/
structure ProbeHandle where
  node : NodeId
  held : Bool := true

structure Names where
  signals : OrderedMap String NodeId := .empty
  memos : OrderedMap String NodeId := .empty
  effects : OrderedMap String NodeId := .empty
  probes : OrderedMap String ProbeHandle := .empty
  contexts : OrderedMap String ContextId := .empty
  providers : OrderedMap String Nat := .empty
  scopes : OrderedMap String Scope := .empty
  components : OrderedMap String ComponentId := .empty
  cells : OrderedMap String NodeId := .empty
  proxies : OrderedMap String ComponentId := .empty
  views : OrderedMap String View := .empty
  objects : OrderedMap String Nat := .empty
  registries : OrderedMap String RegistryId := .empty
  shared : OrderedMap String RegistryId := .empty
  data : OrderedMap String DataId := .empty
  hosts : OrderedMap String HostId := .empty
  gates : OrderedMap String GateId := .empty
  configs : OrderedMap String Config := .empty

structure Session where
  names : Names := {}
  store : Store := {}
  reported : Nat := 0

inductive Failure
  | badInput
  | exhausted
  | failed (e : Error)

abbrev Script := ExceptT Failure (StateM Session)

/-- One kind of named thing: where its table is and what a handle of this kind holds. -/
structure Kind (υ : Type) where
  table : Names → OrderedMap String υ
  replace : OrderedMap String υ → Names → Names
  handles : υ → List Handle

namespace Kind

def signal : Kind NodeId := ⟨Names.signals, fun m n => { n with signals := m }, fun n => [.node n]⟩

def memo : Kind NodeId := ⟨Names.memos, fun m n => { n with memos := m }, fun n => [.node n]⟩

def effect : Kind NodeId := ⟨Names.effects, fun m n => { n with effects := m }, fun n => [.node n]⟩

def probe : Kind ProbeHandle :=
  ⟨Names.probes, fun m n => { n with probes := m }, fun p => if p.held then [.node p.node] else []⟩

def context : Kind ContextId := ⟨Names.contexts, fun m n => { n with contexts := m }, fun _ => []⟩

def provider : Kind Nat := ⟨Names.providers, fun m n => { n with providers := m }, fun _ => []⟩

def scope : Kind Scope := ⟨Names.scopes, fun m n => { n with scopes := m }, fun _ => []⟩

def component : Kind ComponentId :=
  ⟨Names.components, fun m n => { n with components := m }, fun k => [.component k]⟩

def cell : Kind NodeId := ⟨Names.cells, fun m n => { n with cells := m }, fun n => [.node n]⟩

def proxy : Kind ComponentId :=
  ⟨Names.proxies, fun m n => { n with proxies := m }, fun k => [.component k]⟩

def view : Kind View := ⟨Names.views, fun m n => { n with views := m }, View.handles⟩

def object : Kind Nat := ⟨Names.objects, fun m n => { n with objects := m }, fun _ => []⟩

def registry : Kind RegistryId :=
  ⟨Names.registries, fun m n => { n with registries := m }, fun r => [.registry r]⟩

def shared : Kind RegistryId :=
  ⟨Names.shared, fun m n => { n with shared := m }, fun r => [.registry r]⟩

def data : Kind DataId := ⟨Names.data, fun m n => { n with data := m }, fun d => [.data d]⟩

def host : Kind HostId := ⟨Names.hosts, fun m n => { n with hosts := m }, fun h => [.host h]⟩

def gate : Kind GateId := ⟨Names.gates, fun m n => { n with gates := m }, fun _ => []⟩

def config : Kind Config := ⟨Names.configs, fun m n => { n with configs := m }, fun _ => []⟩

end Kind

/-- What names stand for in bodies. A read finds a signal before a memo. -/
def Names.linker (n : Names) : Linker where
  readable k := (n.signals.get? k).or (n.memos.get? k)
  signal k := n.signals.get? k
  context k := n.contexts.get? k
  view k := n.views.get? k
  component k := n.components.get? k

def Names.source? (n : Names) (k : String) : Option NodeId :=
  ((n.signals.get? k).or (n.memos.get? k)).or (n.cells.get? k)

namespace Script

def badInput : Script α := throw .badInput

def orBad : Option α → Script α
  | some a => pure a
  | none => badInput

def run (m : Machine α) : Script α := do
  match m (← get).store with
  | none => throw .exhausted
  | some (a, s) =>
    modify fun old => { old with store := s }
    return a

def names : Script Names := return (← get).names

def find? (k : Kind υ) (name : String) : Script (Option υ) :=
  return (k.table (← names)).get? name

def find (k : Kind υ) (name : String) : Script υ := do orBad (← find? k name)

def setTable (k : Kind υ) (m : OrderedMap String υ) : Script Unit :=
  modify fun s => { s with names := k.replace m s.names }

def holdAll (hs : List Handle) : Script Unit := run (hs.forM Machine.hold)

def releaseAll (hs : List Handle) : Script Unit := run (hs.forM Machine.release)

def define (k : Kind υ) (name : String) (v : υ) : Script Unit := do
  let old ← find? k name
  holdAll (k.handles v)
  setTable k ((k.table (← names)).insert name v)
  releaseAll ((old.map k.handles).getD [])

def forget (k : Kind υ) (name : String) : Script Bool := do
  match ← find? k name with
  | none => return false
  | some old =>
    setTable k ((k.table (← names)).erase name)
    releaseAll (k.handles old)
    return true

def label? (k : Kind υ) (same : υ → Bool) : Script (Option String) :=
  return (k.table (← names)).label? same

def label (k : Kind υ) (same : υ → Bool) : Script String := return (← label? k same).getD "?"

def componentLabel (c : ComponentId) : Script String := label .component (· == c)

def sharedLabel (r : RegistryId) : Script String := label .shared (· == r)

def sourceLabel (n : NodeId) : Script String := do
  match ← label? .signal (· == n) with
  | some l => return l
  | none =>
    match ← label? .memo (· == n) with
    | some l => return l
    | none => label .cell (· == n)

def source (name : String) : Script NodeId := do orBad ((← names).source? name)

def link (e : NamedExpr) : Script LinkedExpr := do orBad (e.link (← names).linker)

def linkTemplate (t : NamedTemplate) : Script LinkedTemplate := do
  orBad (t.link (← names).linker)

end Script

end HotSwap
