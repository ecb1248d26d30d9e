import HotSwap.Session.Basic
import HotSwap.Session.Command
import HotSwap.Session.Reply

namespace HotSwap.Script

def compareContexts (a b : ContextId) : Script Reply := do
  let x ← run (Machine.context a)
  let y ← run (Machine.context b)
  let served ← run (Machine.providerToken x.provider)
  return .contexts (a == b) (x.token == y.token) (x.provider == y.provider) (served == x.token)

def context : ContextCommand → Script Reply
  | .context name v => do
    define .context name (← run (Machine.newContext v))
    return .nothing
  | .use name => do
    let c ← find .context name
    return .json (← run (Machine.useContext c))
  | .fallback name => do
    let c ← find .context name
    return .json (← run (Machine.context c)).fallback
  | .setFallback name v => do
    let c ← find .context name
    run (Machine.setDefault c v)
    return .nothing
  | .aliasIdentity name other => do
    let c ← find .context name
    let d ← find .context other
    run (Machine.aliasIdentity c d)
    return .nothing
  | .compare a b => do compareContexts (← find .context a) (← find .context b)
  | .provider name ctx => do
    let c ← find .context ctx
    define .provider name (← run (Machine.context c)).provider
    return .nothing
  | .scope name => do
    define .scope name (← get).store.provided
    return .nothing
  | .lookup name => do
    let c ← find .context name
    let t := (← run (Machine.context c)).token
    return .found (← run (Machine.provided? t))

end HotSwap.Script
