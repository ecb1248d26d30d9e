import HotSwap.Reactive.Program
/-!
# Components and contexts at the top level

A proxy answers for whatever its cell holds: its name, its metadata and its body.
-/

namespace HotSwap.Machine

def newFunction (name title : String) (dev : Bool) (body : LinkedTemplate) :
    Machine ComponentId :=
  addComponent (.function { name, title, dev, properties := .empty, body })

def newProxy (id : String) (location : Option String) (cell : NodeId) : Machine ComponentId :=
  addComponent (.proxy { id, location, cell })

/-- The function behind a component: proxies are followed through their cells, at most `fuel` of
them. Answers the last proxy if its cell is empty. -/
def target : Nat → ComponentId → Machine (Option (ComponentId × Component))
  | 0, _ => exhausted
  | fuel + 1, k => do
    match ← component? k with
    | none => return none
    | some (.function f) => return some (k, .function f)
    | some (.proxy p) =>
      match ← cellContent p.cell with
      | none => return some (k, .proxy p)
      | some j => target fuel j

def componentName (k : ComponentId) : Machine String := do
  match ← target nesting k with
  | some (_, .function f) => return f.title
  | some (_, .proxy p) => return p.id
  | none => return ""

def property (k : ComponentId) (key : String) : Machine (Option Json) := do
  match ← target nesting k with
  | some (_, .function f) => return f.properties.get? key
  | _ => return none

def setProperty (k : ComponentId) (key : String) (v : Json) : Machine Unit := do
  match ← target nesting k with
  | some (j, .function f) =>
    setComponent j (.function { f with properties := f.properties.insert key v })
  | _ => pure ()

def newContext (fallback : Json) : Machine ContextId := do
  let id := (← get).contexts.length
  modify fun s => { s with
    tokens := s.tokens + 1
    providers := s.providers ++ [s.tokens]
    contexts := s.contexts ++ [{ token := s.tokens, provider := s.providers.length, fallback }] }
  return id

def setContext (id : ContextId) (c : Context) : Machine Unit :=
  modify fun s => { s with contexts := s.contexts.set id c }

def setDefault (id : ContextId) (v : Json) : Machine Unit := do
  let old ← context id
  setContext id { old with fallback := v }

def aliasIdentity (id canonical : ContextId) : Machine Unit := do
  let old ← context id
  let other ← context canonical
  setContext id { old with token := other.token, provider := other.provider }

end HotSwap.Machine
