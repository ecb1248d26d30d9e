import HotSwap.Eval.Body
/-!
# Reading sources

A read subscribes whoever runs. A memo computes when it is read and is not clean; its run starts
without subscriptions and makes those it needs anew.
-/

namespace HotSwap.Machine

def runRecipe (c : Calls) (n : NodeId) : Recipe → Machine Content
  | .value name body => do
    let v ← body.eval c {}
    emit (.memo n name v)
    return .json v
  | .template label body props => do
    emit (.node n label)
    return .view (← body.eval c { props })
  | .mount cell props scope => do
    match ← c.read cell with
    | .component (some k) => return .view (← inScope scope (untracked (c.render k props)))
    | _ => return .view .empty

def settleMemo (n : NodeId) (v : Content) : Machine Unit := do
  match ← memo? n with
  | none => pure ()
  | some m =>
    setNode n (.memo { m with value := some v, freshness := .clean })
    match m.value with
    | some (.view _) => collect
    | _ => pure ()

def recompute (c : Calls) (n : NodeId) (m : Memo) : Machine Content := do
  unsubscribe n
  let (v, _) ← inFrame (some n) (runRecipe c n m.recipe)
  settleMemo n v
  return v

def memoContent (c : Calls) (n : NodeId) (m : Memo) : Machine Content :=
  match m.freshness, m.value with
  | .clean, some v => return v
  | _, _ => recompute c n m

def content (c : Calls) (n : NodeId) : Machine Content := do
  match ← node? n with
  | some (.signal v) => return .json v
  | some (.cell k) => return .component k
  | some (.memo m) => memoContent c n m
  | _ => return .json .null

def readNode (c : Calls) (n : NodeId) : Machine Content := do
  track n
  let v ← content c n
  emit (.read (← reader) n v)
  return v

end HotSwap.Machine
