import HotSwap.Proofs.Host.Hosted
/-!
# What a host notes down

Requests and callbacks go into the record of the host they are made to. Nothing else takes notice,
and so each of them can be told by the record that it leaves.
-/

namespace HotSwap

open Machine

namespace Host

def recorded (x : Host) (es : List HotEvent) : Host := { x with events := x.events ++ es }

def accepting (x : Host) (cb : AcceptCallback) : Host :=
  { x.recorded [.accepted] with acceptCallbacks := x.acceptCallbacks ++ [cb] }

def disposing (x : Host) (cb : DisposeCallback) : Host :=
  { x with disposeCallbacks := x.disposeCallbacks ++ [cb] }

end Host

def Strategy.event : Strategy → HotEvent
  | .invalidate => .invalidated
  | .decline => .declined
  | .reload => .reloaded
  | .acceptThenInvalidate => .invalidated

/-- What an accept-with-module host is asked after a patch. -/
def PatchReport.requests (report : PatchReport) : List HotEvent :=
  if report.mustReload then [.invalidated] else []

def PatchReport.declines (report : PatchReport) (cfg : Config) : List HotEvent :=
  if report.mustReload then [(DeclineTable.strategy cfg.decline cfg.transport true).event] else []

namespace Store

def withHost (s : Store) (h : HostId) (x : Host) : Store := { s with hosts := s.hosts.set h x }

variable {s : Store} {h : HostId} {x y : Host}

theorem withHost_self (hx : s.hosts[h]? = some x) : (s.withHost h y).hosts[h]? = some y :=
  List.getElem?_set_self (List.getElem?_eq_some_iff.1 hx).1

theorem withHost_same (hx : s.hosts[h]? = some x) : s.withHost h x = s := by
  obtain ⟨hlt, rfl⟩ := List.getElem?_eq_some_iff.1 hx
  simp only [withHost, List.set_getElem_self]

theorem withHost_withHost (s : Store) (h : HostId) (x y : Host) :
    (s.withHost h x).withHost h y = s.withHost h y := by
  simp only [withHost, List.set_set]

end Store

namespace Machine

variable {s t : Store} {h : HostId} {x : Host} {cfg : Config} {c d r : Nat} {report : PatchReport}

theorem request_apply (hx : s.hosts[h]? = some x) (e : HotEvent) :
    request h e s = some ((), s.withHost h (x.recorded [e])) := by
  simp only [request, bind_apply, host_apply, hx]
  rfl

theorem acceptWith_apply (hx : s.hosts[h]? = some x) (cb : AcceptCallback) :
    acceptWith h cb s = some ((), s.withHost h (x.accepting cb)) := by
  simp only [acceptWith, bind_apply, request_apply hx, Option.bind_some, host_apply,
    Store.withHost_self hx]
  exact congrArg (fun t => some ((), t)) (Store.withHost_withHost ..)

theorem disposeWith_apply (hx : s.hosts[h]? = some x) (cb : DisposeCallback) :
    disposeWith h cb s = some ((), s.withHost h (x.disposing cb)) := by
  simp only [disposeWith, bind_apply, host_apply, hx]
  rfl

theorem takeAccepts_apply (hx : s.hosts[h]? = some x) :
    takeAccepts h s = some (x.acceptCallbacks, s.withHost h { x with acceptCallbacks := [] }) := by
  simp only [takeAccepts, bind_apply, host_apply, hx]
  rfl

theorem decline_standard_apply (hx : s.hosts[h]? = some x) (f : Flavor) (inlined : Bool)
    (t : DeclineTable) :
    decline f .disposeThenAccept h inlined t s =
      some ((), s.withHost h (x.recorded [(DeclineTable.strategy t f inlined).event])) := by
  unfold decline
  cases DeclineTable.strategy t f inlined <;> exact request_apply hx _

theorem shouldDecline_dev (g : GateId) (s : Store) : shouldDecline g true s = some (false, s) := rfl

theorem refreshEsm_apply (dev : cfg.devMode = true) (g : GateId) (hx : s.hosts[h]? = some x)
    (hd : x.data = some d) (bound : d < s.data.length) (r : RegistryId) :
    refreshEsm cfg g h r s =
      some ((), (s.handOver d r).withHost h (x.accepting (.patch d))) := by
  have found : host h s = some (x, s) := by rw [host_apply, hx, Option.getD_some]
  refine bind_eq_some.2 ⟨false, s, dev ▸ shouldDecline_dev g s, bind_eq_some.2 ⟨x, s, found, ?_⟩⟩
  simp only [hd, handOver_bind bound]
  exact acceptWith_apply (s := s.handOver d r) hx _

theorem refreshStandard_first (dev : cfg.devMode = true) (g : GateId) (hx : s.hosts[h]? = some x)
    (hd : x.data = none) (r : RegistryId) :
    refreshStandard cfg g h r s =
      some ((), s.withHost h ((x.disposing (.persist r)).recorded [.accepted])) := by
  have none : canonical? h s = some (none, s) := by
    simp only [canonical?, bind_apply, host_apply, hx, Option.bind_some, Option.getD_some, hd,
      pure_apply]
  simp only [refreshStandard, dev, bind_apply, shouldDecline_dev, Option.bind_some, none,
    Bool.false_eq_true, ↓reduceIte, Option.getD_none, disposeWith_apply hx,
    request_apply (Store.withHost_self hx), Store.withHost_withHost]

theorem canonical?_apply (hx : s.hosts[h]? = some x) (hd : x.data = some d) :
    canonical? h s = some ((s.slots d).get? currentSlot, s) := by
  simp only [canonical?, bind_apply, host_apply, hx, Option.bind_some, Option.getD_some, hd]
  rfl

theorem refreshStandard_next (dev : cfg.devMode = true) (g : GateId) (hx : s.hosts[h]? = some x)
    (hd : x.data = some d) (hc : (s.slots d).get? currentSlot = some c)
    (hr : reconcile c r s = some (report, t)) (hosts : t.hosts = s.hosts) :
    refreshStandard cfg g h r s = some ((), t.withHost h
      ((x.disposing (.persist c)).recorded (report.declines cfg ++ [.accepted]))) := by
  have ht : t.hosts[h]? = some x := hosts ▸ hx
  have slot : canonical? h s = some (some c, s) := hc ▸ canonical?_apply hx hd
  simp only [refreshStandard, dev, bind_apply, shouldDecline_dev, Option.bind_some, slot,
    Bool.false_eq_true, ↓reduceIte, Option.getD_some, hr]
  cases hm : report.mustReload
  · simp [disposeWith_apply ht, request_apply (Store.withHost_self ht), Store.withHost_withHost,
      PatchReport.declines, hm, Host.recorded, Host.disposing]
  · simp [decline_standard_apply ht, disposeWith_apply (Store.withHost_self ht),
      request_apply (Store.withHost_self ht), Store.withHost_withHost, PatchReport.declines, hm,
      Host.recorded, Host.disposing]

theorem retire_apply (hx : s.hosts[h]? = some x) (hc : (s.slots d).get? currentSlot = some c)
    (hp : (s.slots d).get? previousSlot = some r) (hne : c ≠ r)
    (hr : reconcile c r s = some (report, t)) (hosts : t.hosts = s.hosts) :
    retire h [.patch d] s = some ((), t.withHost h (x.recorded report.requests)) := by
  have ht : t.hosts[h]? = some x := hosts ▸ hx
  have patched : patchSlots d s = some (report.mustReload, t) := by
    have slots : hotData d s = some (s.slots d, s) := rfl
    simp only [patchSlots, bind_apply, slots, Option.bind_some, hc, hp, if_neg hne, hr, pure_apply]
  simp only [retire, bind_apply, host_apply, Option.bind_some, runAccepts, List.mapM_cons,
    List.mapM_nil, runAccept, patched]
  cases hm : report.mustReload
  · simp [PatchReport.requests, hm, Host.recorded, Store.withHost_same ht]
  · simp [PatchReport.requests, hm, request_apply ht]

theorem dispose_apply (hx : s.hosts[h]? = some x) (hc : x.disposeCallbacks = [.persist c]) :
    ∃ live, dispose h s = some (s.hosts.length, { s with
      hosts := s.hosts.set h { x.recorded [.disposed] with disposeCallbacks := [] } ++
        [{ id := x.id, data := some s.data.length }]
      data := s.data ++ [OrderedMap.empty.insert currentSlot c]
      live }) := by
  refine ⟨.host s.hosts.length :: .data s.data.length :: s.live, ?_⟩
  simp only [dispose, bind_apply, request_apply hx, Option.bind_some, addData, get_apply,
    modify_apply, pure_apply, host_apply, Store.withHost_self hx, Option.getD_some, Host.recorded,
    hc]
  simp [setHost, addHost, Store.withHost, runDispose, hotData, setHotData]

end Machine

end HotSwap
