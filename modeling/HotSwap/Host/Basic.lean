import HotSwap.OrderedMap
import HotSwap.Registry.Basic
/-!
# Hosts

A host plays the dev server for one instance of a module: it records what is asked of it, keeps the
callbacks it was given, and may hold data that outlives an evaluation.
-/

namespace HotSwap

abbrev HostId := Nat

abbrev DataId := Nat

abbrev GateId := Nat

inductive HotEvent
  | accepted
  | invalidated
  | declined
  | reloaded
  | disposed
  deriving DecidableEq

namespace HotEvent

def all : List HotEvent := [.accepted, .invalidated, .declined, .reloaded, .disposed]

def name : HotEvent → String
  | .accepted => "accepted"
  | .invalidated => "invalidated"
  | .declined => "declined"
  | .reloaded => "reloaded"
  | .disposed => "disposed"

def named : List (String × HotEvent) := all.map fun e => (e.name, e)

end HotEvent

/-- Slots that survive the evaluation of a module. -/
abbrev HotData := OrderedMap String RegistryId

def currentSlot : String := "registry-current"

def previousSlot : String := "registry-previous"

/-- Run when the host delivers a new version of the module, or none if it failed to load. -/
inductive AcceptCallback
  /-- Patches the latest registry into the canonical one, and invalidates if that cannot be done. -/
  | patch (data : DataId)
  | invalidate
  /-- Reports the delivery; the first time it also registers `next`. -/
  | report (name : String) (next : Option String)
  deriving DecidableEq

/-- Run when an instance is discarded, against the data of the next one. -/
inductive DisposeCallback
  /-- Hands the canonical registry on. -/
  | persist (registry : RegistryId)
  /-- Reports whether a canonical registry has been handed on, then fills a slot. -/
  | report (name : String) (slot : Option (String × RegistryId))
  deriving DecidableEq

structure Host where
  id : String
  data : Option DataId
  events : List HotEvent := []
  acceptCallbacks : List AcceptCallback := []
  disposeCallbacks : List DisposeCallback := []
  deriving DecidableEq

def HotData.handles (d : HotData) : List Handle := d.values.map .registry

def AcceptCallback.handles : AcceptCallback → List Handle
  | .patch d => [.data d]
  | .invalidate => []
  | .report _ _ => []

def DisposeCallback.handles : DisposeCallback → List Handle
  | .persist r => [.registry r]
  | .report _ none => []
  | .report _ (some (_, r)) => [.registry r]

def Host.handles (h : Host) : List Handle :=
  (h.data.map .data).toList ++ h.acceptCallbacks.flatMap AcceptCallback.handles
    ++ h.disposeCallbacks.flatMap DisposeCallback.handles

end HotSwap
