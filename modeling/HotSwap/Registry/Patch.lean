import HotSwap.Registry.Program
import HotSwap.Report.Basic
/-!
# Patching

`reconcile old new` brings the canonical registry up to date with the latest evaluation of its
module. An id that only the old registry knows was removed: nothing can take over its instances, so
the module has to reload, and the phase that finds it stops there. An id that only the new registry
knows is adopted. An id of both is swapped, unless its signature and dependencies say that nothing
changed; in either case the new proxy is made to delegate to the old one, so that there is one true
proxy for each id.

Contexts are patched first, so that bodies swapped in already see aliased contexts.
-/

namespace HotSwap.Machine

/-- Without a signature a body is always swapped. -/
def needsSwap (old new : Registration) : Bool :=
  match new.signature with
  | none => true
  | some s => old.signature ≠ some s || Dependencies.changed old.dependencies new.dependencies

def patchComponent (old new : Registration) (report : PatchReport) :
    Machine (Registration × PatchReport) := do
  if needsSwap old new then
    let patched := old.adopt new
    redirect patched new.component
    redirect new patched.proxy
    return (patched, { report with swapped := report.swapped ++ [old.id] })
  else
    redirect new old.proxy
    return (old, { report with unchanged := report.unchanged ++ [old.id] })

abbrev Components := OrderedMap String Registration

abbrev Contexts := OrderedMap String ContextRegistration

def patchKnown (new : Components) :
    List String → Components → PatchReport → Machine (Bool × Components × PatchReport)
  | [], old, report => return (false, old, report)
  | id :: rest, old, report =>
    match old.get? id, new.get? id with
    | some o, some n => do
      let (patched, report) ← patchComponent o n report
      patchKnown new rest (old.insert id patched) report
    | _, _ => return (true, old, { report with removed := report.removed ++ [id] })

def adoptNew (new : List (String × Registration)) (old : Components) (report : PatchReport) :
    Components × PatchReport :=
  new.foldl
    (fun (old, report) (id, r) =>
      if old.contains id then (old, report)
      else (old.insert id r, { report with added := report.added ++ [id] }))
    (old, report)

def patchComponents (old new : Components) (report : PatchReport) :
    Machine (Bool × Components × PatchReport) := do
  let (reload, patched, report) ← patchKnown new old.keys old report
  if reload then return (true, patched, report)
  else return (false, adoptNew new.entries patched report)

/-- The old context takes the new default, the new one the old identity. -/
def patchContext (old new : ContextId) : Machine Unit := do
  setDefault old (← context new).fallback
  aliasIdentity new old

def patchKnownContexts (new : Contexts) :
    List (String × ContextRegistration) → PatchReport → Machine (Bool × PatchReport)
  | [], report => return (false, report)
  | (id, o) :: rest, report =>
    match new.get? id with
    | some n => do
      patchContext o.context n.context
      patchKnownContexts new rest { report with contextsPatched := report.contextsPatched ++ [id] }
    | none => return (true, { report with contextsRemoved := report.contextsRemoved ++ [id] })

def adoptNewContexts (new : List (String × ContextRegistration)) (old : Contexts)
    (report : PatchReport) : Contexts × PatchReport :=
  new.foldl
    (fun (old, report) (id, c) =>
      if old.contains id then (old, report)
      else (old.insert id c, { report with contextsAdded := report.contextsAdded ++ [id] }))
    (old, report)

def patchContexts (old new : Contexts) (report : PatchReport) :
    Machine (Bool × Contexts × PatchReport) := do
  let (reload, report) ← patchKnownContexts new old.entries report
  if reload then return (true, old, report)
  else return (false, adoptNewContexts new.entries old report)

/-- Both phases over two registries. A removed context does not stop the second phase. -/
def patchRegistry (old new : Registry) : Machine (Registry × PatchReport) := do
  let (_, contexts, report) ← patchContexts old.contexts new.contexts {}
  let (_, components, report) ← patchComponents old.components new.components report
  return ({ components, contexts }, report)

def reconcile (old new : RegistryId) : Machine PatchReport := do
  let (patched, report) ← patchRegistry (← registry old) (← registry new)
  setRegistry old patched
  return report

end HotSwap.Machine
