import HotSwap.OrderedMap
import HotSwap.View
/-!
# The subscription table

For each source that anything reads, its readers in the order in which they subscribed. A source
that nothing reads is not listed.
-/

namespace HotSwap

abbrev Edges := OrderedMap NodeId (List NodeId)

namespace Edges

def readers (e : Edges) (source : NodeId) : List NodeId := (e.get? source).getD []

/-- A reader subscribes once, behind those that are there. -/
def subscribe (e : Edges) (source reader : NodeId) : Edges :=
  let rs := readers e source
  if reader ∈ rs then e else e.insert source (rs ++ [reader])

def without (reader : NodeId) (rs : List NodeId) : Option (List NodeId) :=
  match rs.filter (fun r => decide (r ≠ reader)) with
  | [] => none
  | left => some left

def unsubscribe (e : Edges) (reader : NodeId) : Edges := e.restrict (without reader)

theorem subscribe_of_mem {e : Edges} {source reader : NodeId} (h : reader ∈ readers e source) :
    subscribe e source reader = e := if_pos h

theorem subscribe_of_notMem {e : Edges} {source reader : NodeId} (h : reader ∉ readers e source) :
    subscribe e source reader = e.insert source (readers e source ++ [reader]) := if_neg h

theorem readers_subscribe_self (e : Edges) (source reader : NodeId) :
    readers (subscribe e source reader) source =
      if reader ∈ readers e source then readers e source else readers e source ++ [reader] := by
  by_cases h : reader ∈ readers e source
  · rw [subscribe_of_mem h, if_pos h]
  · rw [subscribe_of_notMem h, if_neg h, readers, OrderedMap.get?_insert_self]
    rfl

theorem readers_subscribe_of_ne (e : Edges) {source other : NodeId} (h : other ≠ source)
    (reader : NodeId) : readers (subscribe e source reader) other = readers e other := by
  by_cases hr : reader ∈ readers e source
  · rw [subscribe_of_mem hr]
  · rw [subscribe_of_notMem hr, readers, OrderedMap.get?_insert_of_ne e h]
    rfl

end Edges

end HotSwap
