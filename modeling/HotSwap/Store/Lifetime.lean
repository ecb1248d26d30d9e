import HotSwap.Store.Basic
/-!
# Lifetimes

A thing lives as long as something holds a handle to it: the outside, a running computation, or a
thing that lives itself. Things that only hold each other live on. A reader that is let go loses its
subscriptions, and no notification starts for it again.
-/

namespace HotSwap

namespace Store

def contents (s : Store) : Handle → List Handle
  | .node n => ((s.nodes[n]?).map Node.handles).getD []
  | .component c => ((s.components[c]?).map Component.handles).getD []
  | .registry r => ((s.registries[r]?).map Registry.handles).getD []
  | .data d => ((s.data[d]?).map HotData.handles).getD []
  | .host h => ((s.hosts[h]?).map Host.handles).getD []

/-- Those of `live` that the outside, a computation or one of `live` holds. -/
def heldBy (s : Store) (live : List Handle) : List Handle :=
  let held := s.roots ++ s.pinned ++ live.flatMap s.contents
  live.filter fun h => decide (h ∈ held)

def settle (s : Store) : Nat → List Handle → List Handle
  | 0, live => live
  | fuel + 1, live =>
    let left := s.heldBy live
    if left.length = live.length then live else settle s fuel left

def survivors (s : Store) : List Handle := s.settle s.live.length s.live

def isLive (s : Store) (n : NodeId) : Bool := decide (.node n ∈ s.live)

def lost (live left : List Handle) : List NodeId :=
  live.filterMap fun h =>
    match h with
    | .node n => if h ∈ left then none else some n
    | _ => none

def collect (s : Store) : Store :=
  let left := s.survivors
  { s with live := left, edges := (lost s.live left).foldl Edges.unsubscribe s.edges }

end Store

namespace Machine

def collect : Machine Unit := modify Store.collect

def keeping (hs : List Handle) (act : Machine α) : Machine α := do
  let before := (← get).pinned
  modify fun s => { s with pinned := hs ++ s.pinned }
  let a ← act
  modify fun s => { s with pinned := before }
  return a

def borrowing (v : View) (act : Machine α) : Machine α := do
  let a ← keeping v.handles act
  collect
  return a

def hold (h : Handle) : Machine Unit := modify fun s => { s with roots := h :: s.roots }

def release (h : Handle) : Machine Unit := do
  modify fun s => { s with roots := s.roots.erase h }
  collect

end Machine

end HotSwap
