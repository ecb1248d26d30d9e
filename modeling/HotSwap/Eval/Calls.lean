import HotSwap.Reactive.Tracking
/-!
# What a running computation may call

Bodies read memos, writes run effects, components render components: none of this is bounded by the
size of a body. A body is therefore evaluated over a record of `Calls`, and the record for one more
level of nesting is made from the record for one less.
-/

namespace HotSwap

structure Calls where
  /-- A tracked read of a source. -/
  read : NodeId → Machine Content
  /-- Tells the readers of a source that it changed. -/
  notify : NodeId → Machine Unit
  render : ComponentId → Json → Machine View
  /-- Replaces the reactive nodes of a view by what they hold. -/
  resolve : View → Machine View

def Calls.none : Calls :=
  ⟨fun _ => Machine.exhausted, fun _ => Machine.exhausted, fun _ _ => Machine.exhausted,
    fun _ => Machine.exhausted⟩

/-- What a body may refer to besides its handles. -/
structure Env where
  props : Json := .null
  current : Json := .null

end HotSwap
