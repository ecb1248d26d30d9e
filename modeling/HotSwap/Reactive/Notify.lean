import HotSwap.Eval.Body
/-!
# Notification

A change reaches the readers that are subscribed when it happens: first all are marked, in the order
of their subscription, then those that are eager run. A clean memo that is marked tells its own
readers at once; one that is not clean has told them before.
-/

namespace HotSwap.Machine

def runEffect (c : Calls) (n : NodeId) : Machine Unit := do
  match ← effect? n with
  | none => pure ()
  | some e =>
    if e.disposed then pure ()
    else
      unsubscribe n
      let (_, count) ← inFrame (some n) do
        let v ← e.body.eval c {}
        emit (.effect n e.name v)
      match ← effect? n with
      | none => pure ()
      | some e => setNode n (.effect { e with runs := e.runs + 1, dependencies := count })

def markMemo (c : Calls) (n : NodeId) (m : Memo) : Machine Unit := do
  match m.freshness with
  | .clean =>
    setNode n (.memo { m with freshness := .maybeDirty })
    c.notify n
  | _ => pure ()

def mark (c : Calls) (n : NodeId) : Machine Unit := do
  match ← node? n with
  | some (.memo m) => markMemo c n m
  | some (.probe name _) => emit (.dirty n name)
  | _ => pure ()

def schedule (c : Calls) (n : NodeId) : Machine Unit := do
  match ← node? n with
  | some (.effect _) => runEffect c n
  | some (.probe name true) => emit (.scheduled n name)
  | _ => pure ()

def liveReaders (source : NodeId) : Machine (List NodeId) := do
  let s ← get
  return (Edges.readers s.edges source).filter s.isLive

def forEach (act : NodeId → Machine Unit) : List NodeId → Machine Unit
  | [] => pure ()
  | n :: rest => do act n; forEach act rest

def notifyNode (c : Calls) (source : NodeId) : Machine Unit := do
  let targets ← liveReaders source
  forEach (mark c) targets
  forEach (schedule c) targets

end HotSwap.Machine
