import HotSwap.Session.Basic
import HotSwap.Session.Command
import HotSwap.Session.Reply

namespace HotSwap.Script

def defineEffect (name : String) (body : LinkedExpr) (deferred : Bool) : Script Unit := do
  let id ← run (Machine.newLazyEffect name body)
  run (Machine.hold (.node id))
  if !deferred then run (Machine.execute id)
  define .effect name id
  run (Machine.release (.node id))

def memoReply (n : NodeId) : Script Reply := do
  let m ← orBad (← run (Machine.memo? n))
  return .memo m.freshness m.value.isSome (← run (Machine.readerCount n))

def effectReply (n : NodeId) : Script Reply := do
  let e ← orBad (← run (Machine.effect? n))
  return .effect e.runs e.dependencies e.disposed

def shareHandle (name other : String) : Script Unit := do
  match ← find? .signal name with
  | some n => define .signal other n
  | none =>
    match ← find? .memo name with
    | some n => define .memo other n
    | none =>
      match ← find? .effect name with
      | some n => define .effect other n
      | none => define .component other (← find .component name)

def dropProbe (name : String) : Script Bool := do
  match ← find? .probe name with
  | none => return false
  | some p =>
    define .probe name { p with held := false }
    return p.held

def dropName (name : String) : Droppable → Script Bool
  | .signal => forget .signal name
  | .memo => forget .memo name
  | .effect => forget .effect name
  | .view => forget .view name
  | .probe => dropProbe name

def trackingReply : Script Reply := do
  let active ← run Machine.isTracking
  let sources ← run Machine.sources
  return .tracking active (← sources.mapM sourceLabel)

def reactive : ReactiveCommand → Script Reply
  | .signal name v => do
    define .signal name (← run (Machine.newSignal v))
    return .nothing
  | .set name v => do
    let n ← find .signal name
    run (Machine.setSignal n v)
    return .nothing
  | .get name => do
    let n ← orBad ((← names).linker.readable name)
    return .json (← run (Machine.read n)).toJson
  | .peek name => do
    let n ← find .signal name
    return .json (← run (Machine.peek n))
  | .update name body => do
    let n ← find .signal name
    let e ← link body
    return .json (← run (Machine.updateSignal n e))
  | .memo name body => do
    let e ← link body
    define .memo name (← run (Machine.newMemo name e))
    return .nothing
  | .effect name body deferred => do
    let e ← link body
    defineEffect name e deferred
    return .nothing
  | .memoInfo name => do memoReply (← find .memo name)
  | .markDirty name => do
    let n ← find .memo name
    run (Machine.markDirty n)
    return .nothing
  | .markMaybeDirty name => do
    let n ← find .memo name
    run (Machine.markMaybeDirty n)
    return .nothing
  | .effectInfo name => do effectReply (← find .effect name)
  | .execute name => do
    let n ← find .effect name
    run (Machine.execute n)
    return .nothing
  | .disposeEffect name => do
    let n ← find .effect name
    run (Machine.disposeEffect n)
    return .nothing
  | .readerCount name => do
    let n ← source name
    return .count (← run (Machine.readerCount n))
  | .share name other => do
    shareHandle name other
    return .nothing
  | .sameMemo a b => return .flag ((← find .memo a) == (← find .memo b))
  | .sameSignal a b => return .flag ((← find .signal a) == (← find .signal b))
  | .earlierSource a b => return .flag (decide ((← source a) < (← source b)))
  | .drop name kind => return .flag (← dropName name kind)
  | .probe name eager => do
    define .probe name { node := ← run (Machine.addNode (.probe name eager)) }
    return .nothing
  | .subscribe probe name => do
    let p ← find .probe probe
    let n ← source name
    run (Machine.subscribe n p.node)
    return .count (← run (Machine.readerCount n))
  | .unsubscribe probe => do
    let p ← find .probe probe
    run (Machine.unsubscribe p.node)
    return .nothing
  | .notify name => do
    let n ← source name
    run (Machine.notify n)
    return .nothing
  | .evaluate body props => do
    let e ← link body
    return .json (← run (Machine.evaluate { props } e))
  | .tracking => trackingReply

end HotSwap.Script
