import HotSwap.Session.Component

namespace HotSwap.Script

/-- A component that is named for the first time in a binding has an empty body. -/
def bindComponent (name : String) : Script ComponentId := do
  match ← find? .component name with
  | some k => return k
  | none =>
    let k ← run (Machine.newFunction name name false .empty)
    define .component name k
    return k

def bindObject (name : String) : Script Nat := do
  match ← find? .object name with
  | some o => return o
  | none =>
    let o := (← names).objects.size
    define .object name o
    return o

def bind : NamedBinding → Script Binding
  | .plain b => return b
  | .component name => return .component (← bindComponent name)
  | .object name => return .object (← bindObject name)

def bindAll (bs : NamedBindings) : Script Dependencies := do
  return .ofList (← bs.mapM fun b => return (b.1, ← bind b.2))

def labelled : Binding → Script LabelledBinding
  | .component k => return .component (← componentLabel k)
  | .object o => return .object (← label .object (· == o))
  | b => return .plain b

def registrationInfo (r : Registration) : Script RegistrationInfo := do
  let dependencies ← match r.dependencies with
    | none => pure none
    | some d => some <$> d.entries.mapM fun e => return (e.1, ← labelled e.2)
  return { id := r.id
           signature := r.signature
           dependencies
           location := r.location
           component := ← componentLabel r.component
           proxy := ← componentLabel r.proxy
           current := ← currentLabel r.cell }

def componentInfos (m : Machine.Components) : Script (List (String × RegistrationInfo)) :=
  m.entries.mapM fun e => return (e.1, ← registrationInfo e.2)

def contextLabel (c : ContextId) : Script String := label .context (· == c)

def contextInfo (key : String) (r : ContextRegistration) : Script ContextInfo := do
  return { key, id := r.id, label := ← contextLabel r.context
           fallback := (← run (Machine.context r.context)).fallback }

def anyRegistry (name : String) : Script RegistryId := do
  match ← find? .registry name with
  | some r => return r
  | none => find .shared name

def dump (r : Registry) : Script Reply := do
  return .registry (← componentInfos r.components)
    (← r.contexts.entries.mapM fun e => contextInfo e.1 e.2) r.isEmpty

def twoRegistries (name new : String) : Script (RegistryId × RegistryId) := do
  if name == new then badInput
  return (← find .registry name, ← anyRegistry new)

def registry : RegistryCommand → Script Reply
  | .registry name => do
    define .registry name (← run (Machine.addRegistry {}))
    return .nothing
  | .register name id body signature dependencies location result => do
    let r ← find .registry name
    let k ← find .component body
    let deps ← match dependencies with
      | none => pure none
      | some bs => some <$> bindAll bs
    let proxy ← run (Machine.register r id k { signature, dependencies := deps, location })
    define .component result proxy
    return .nothing
  | .registerContext name id ctx => do
    let r ← find .registry name
    let c ← find .context ctx
    return .flag ((← run (Machine.registerContext r id c)) == c)
  | .dump name => do dump (← run (Machine.registry (← anyRegistry name)))
  | .lookup name id => do
    let r ← run (Machine.registry (← anyRegistry name))
    let component ← match r.components.get? id with
      | none => pure none
      | some c => some <$> registrationInfo c
    let context ← match r.contexts.get? id with
      | none => pure none
      | some c => some <$> contextLabel c.context
    return .registration component context
  | .snapshot name => do
    let r ← run (Machine.registry (← anyRegistry name))
    return .snapshot (← run (Machine.snapshot r))
  | .redirect name id body => do
    let r ← run (Machine.registry (← anyRegistry name))
    let k ← find .component body
    let registration ← orBad (r.components.get? id)
    run (Machine.redirect registration k)
    return .nothing
  | .reconcile name new brief => do
    let (a, b) ← twoRegistries name new
    let report ← run (Machine.reconcile a b)
    return if brief then .flag report.mustReload else .report report
  | .patchComponents name new => do
    let (a, b) ← twoRegistries name new
    let old ← run (Machine.registry a)
    let latest ← run (Machine.registry b)
    let (reload, patched, report) ←
      run (Machine.patchComponents old.components latest.components {})
    return .patchedComponents reload report (← componentInfos patched)
  | .patchContexts name new => do
    let (a, b) ← twoRegistries name new
    let old ← run (Machine.registry a)
    let latest ← run (Machine.registry b)
    let (reload, patched, report) ← run (Machine.patchContexts old.contexts latest.contexts {})
    return .patchedContexts reload report patched.keys
  | .share name own => do
    let r ← find .registry own
    define .shared name r
    let _ ← forget .registry own
    return .nothing
  | .sameShared a b => return .flag ((← find .shared a) == (← find .shared b))

end HotSwap.Script
