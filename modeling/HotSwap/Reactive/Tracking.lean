import HotSwap.Store.Lifetime
/-!
# Tracking and providing

The stack of frames says which computation runs, so that a read knows its reader; the stack of
provided values says what consumers see. Both are pushed and popped around what runs inside.
-/

namespace HotSwap

/-- A frame lists each source once. Without a reader it lists none. -/
def Frame.reading (f : Frame) (source : NodeId) : Frame :=
  if f.reader.isSome ∧ source ∉ f.sources then { f with sources := f.sources ++ [source] } else f

namespace Machine

def reader : Machine (Option NodeId) := return (← get).frames.head?.bind Frame.reader

def track (source : NodeId) : Machine Unit := modify fun s =>
  match s.frames with
  | ⟨some r, sources⟩ :: rest =>
    { s with
      frames := (Frame.mk (some r) sources).reading source :: rest
      edges := Edges.subscribe s.edges source r }
  | _ => s

def subscribe (source reader : NodeId) : Machine Unit :=
  modify fun s => { s with edges := Edges.subscribe s.edges source reader }

def unsubscribe (reader : NodeId) : Machine Unit :=
  modify fun s => { s with edges := Edges.unsubscribe s.edges reader }

def readers (source : NodeId) : Machine (List NodeId) :=
  return Edges.readers (← get).edges source

def sources : Machine (List NodeId) := return ((← get).frames.head?.map Frame.sources).getD []

def push (f : Frame) : Machine Unit := modify fun s => { s with frames := f :: s.frames }

def pop : Machine Unit := modify fun s => { s with frames := s.frames.tail }

def inFrame (reader : Option NodeId) (act : Machine α) : Machine (α × Nat) := do
  push { reader }
  let a ← act
  let n ← sources
  pop
  return (a, n.length)

def untracked (act : Machine α) : Machine α := return (← inFrame none act).1

def providing (t : Token) (v : Json) (act : Machine α) : Machine α := do
  modify fun s => { s with provided := (t, v) :: s.provided }
  let a ← act
  modify fun s => { s with provided := s.provided.tail }
  return a

def inScope (scope : Scope) (act : Machine α) : Machine α := do
  let saved := (← get).provided
  modify fun s => { s with provided := scope }
  let a ← act
  modify fun s => { s with provided := saved }
  return a

def provided? (t : Token) : Machine (Option Json) := return (← get).provided.lookup t

end Machine

end HotSwap
