import HotSwap.Registry.Patch
/-!
# Driving a host

Requests are recorded. Delivering an update runs the accept callbacks, which stay; applying one
evaluates the new version first and then runs, and retires, the callbacks that were there before.
Disposing runs the dispose callbacks against fresh data, which the next instance is given.
-/

namespace HotSwap.Machine

/-- A host whose data lasts as long as the module. -/
def newEsmHost (id : String) : Machine HostId := do
  addHost { id, data := some (← addData .empty) }

def newStandardHost (id : String) : Machine HostId := addHost { id, data := none }

def request (h : HostId) (e : HotEvent) : Machine Unit := do
  let old ← host h
  setHost h { old with events := old.events ++ [e] }

def acceptWith (h : HostId) (callback : AcceptCallback) : Machine Unit := do
  request h .accepted
  let old ← host h
  setHost h { old with acceptCallbacks := old.acceptCallbacks ++ [callback] }

def disposeWith (h : HostId) (callback : DisposeCallback) : Machine Unit := do
  let old ← host h
  setHost h { old with disposeCallbacks := old.disposeCallbacks ++ [callback] }

/-- Patches the latest registry into the canonical one; answers whether the module has to reload.
The first evaluation has nothing to be patched into but itself. -/
def patchSlots (d : DataId) : Machine Bool := do
  let slots ← hotData d
  match slots.get? currentSlot, slots.get? previousSlot with
  | some current, some previous =>
    if current = previous then return false
    else return (← reconcile current previous).mustReload
  | _, _ => return false

/-- Runs a callback and answers what it is the next time. -/
def runAccept (h : HostId) (module : Option String) : AcceptCallback → Machine AcceptCallback
  | .patch d => do
    let reload ← match module with
      | some _ => patchSlots d
      | none => pure true
    if reload then request h .invalidated
    return .patch d
  | .invalidate => do
    request h .invalidated
    return .invalidate
  | .report name next => do
    emit (.accepted name module)
    match next with
    | some n => acceptWith h (.report n none)
    | none => pure ()
    return .report name none

def runAccepts (h : HostId) (module : Option String) (callbacks : List AcceptCallback) :
    Machine (List AcceptCallback) := callbacks.mapM (runAccept h module)

def takeAccepts (h : HostId) : Machine (List AcceptCallback) := do
  let old ← host h
  setHost h { old with acceptCallbacks := [] }
  return old.acceptCallbacks

/-- Callbacks registered while the others run come behind them. -/
def deliverUpdate (h : HostId) (module : Option String) : Machine Unit := do
  let callbacks ← takeAccepts h
  let kept ← keeping (.host h :: callbacks.flatMap AcceptCallback.handles)
    (runAccepts h module callbacks)
  let now ← host h
  setHost h { now with acceptCallbacks := kept ++ now.acceptCallbacks }

/-- The second half of applying an update: `callbacks` were there before the evaluation. -/
def retire (h : HostId) (callbacks : List AcceptCallback) : Machine Unit := do
  let _ ← runAccepts h (some (← host h).id) callbacks

def runDispose (d : DataId) : DisposeCallback → Machine Unit
  | .persist r => do setHotData d ((← hotData d).insert currentSlot r)
  | .report name slot => do
    let slots ← hotData d
    emit (.disposed name (slots.contains currentSlot))
    match slot with
    | some (key, r) => setHotData d (slots.insert key r)
    | none => pure ()

def dispose (h : HostId) : Machine HostId := do
  request h .disposed
  let d ← addData .empty
  let old ← host h
  setHost h { old with disposeCallbacks := [] }
  old.disposeCallbacks.forM (runDispose d)
  addHost { id := old.id, data := some d }

end HotSwap.Machine
