import HotSwap.Config.Basic
import HotSwap.Host.Program
/-!
# Handing a module to its host

A freshly evaluated module hands its registry to the host. On an accept-with-module host the first
registry becomes canonical and each later one waits for the delivery of its module to be patched in.
On a dispose-then-accept host the module patches itself into the registry that its predecessor left.
-/

namespace HotSwap.Machine

/-- Whether a refresh must be skipped for want of the development runtime; the gate then has
warned. -/
def shouldDecline (g : GateId) (devMode : Bool) : Machine Bool := do
  if devMode then return false
  modify fun s => { s with gates := s.gates.set g true }
  return true

/-- Declines the cycle the way the table says. A dispose-then-accept host has no callback to put an
invalidation off to. -/
def decline (f : Flavor) (shape : Shape) (h : HostId) (inlined : Bool) (t : DeclineTable) :
    Machine Unit :=
  match DeclineTable.strategy t f inlined, shape with
  | .invalidate, _ => request h .invalidated
  | .decline, _ => request h .declined
  | .reload, _ => request h .reloaded
  | .acceptThenInvalidate, .acceptWithModule => acceptWith h .invalidate
  | .acceptThenInvalidate, .disposeThenAccept => request h .invalidated

def fillSlot (d : DataId) (key : String) (r : RegistryId) : Machine RegistryId := do
  let slots ← hotData d
  match slots.get? key with
  | some old => return old
  | none =>
    setHotData d (slots.insert key r)
    return r

def refreshEsm (cfg : Config) (g : GateId) (h : HostId) (r : RegistryId) : Machine Unit := do
  if ← shouldDecline g cfg.devMode then
    decline cfg.transport .acceptWithModule h false cfg.decline
  else
    match (← host h).data with
    | none => request h .invalidated
    | some d =>
      let _ ← fillSlot d currentSlot r
      setHotData d ((← hotData d).insert previousSlot r)
      acceptWith h (.patch d)

def canonical? (h : HostId) : Machine (Option RegistryId) := do
  match (← host h).data with
  | none => return none
  | some d => return (← hotData d).get? currentSlot

def refreshStandard (cfg : Config) (g : GateId) (h : HostId) (r : RegistryId) : Machine Unit := do
  if ← shouldDecline g cfg.devMode then
    decline cfg.transport .disposeThenAccept h false cfg.decline
  else
    let canonical ← canonical? h
    match canonical with
    | none => pure ()
    | some c =>
      if (← reconcile c r).mustReload then
        decline cfg.transport .disposeThenAccept h true cfg.decline
    disposeWith h (.persist (canonical.getD r))
    request h .accepted

def refresh (cfg : Config) (g : GateId) (shape : Shape) (h : HostId) (r : RegistryId) :
    Machine (Except Error Unit) := do
  if cfg.transport.shape = shape then
    match shape with
    | .acceptWithModule => refreshEsm cfg g h r
    | .disposeThenAccept => refreshStandard cfg g h r
    return .ok ()
  else return .error (.transportMismatch cfg.transport)

end HotSwap.Machine
