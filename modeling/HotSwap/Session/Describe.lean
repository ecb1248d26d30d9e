import HotSwap.Describe
import HotSwap.Session.Registry

namespace HotSwap.Script

def describe : DescribeCommand → Script Reply
  | .component name => do
    let k ← find .component name
    return .text (← run (Machine.describeComponent k))
  | .proxy name => do
    let p ← proxyOf (← find .proxy name)
    return .text (← run (Machine.describeProxy p))
  | .view name => return .text (← find .view name).diagnostic
  | .signal name => do
    let n ← find .signal name
    return .text (signalDiagnostic (← run (Machine.peek n)))
  | .memo name => do
    let n ← find .memo name
    return .text (← orBad (← run (Machine.memo? n))).diagnostic
  | .effect name => do
    let n ← find .effect name
    return .text (← orBad (← run (Machine.effect? n))).diagnostic
  | .context name => do
    let c ← find .context name
    return .text (← run (Machine.context c)).diagnostic
  | .provider name => do
    let _ ← find .provider name
    return .text providerDiagnostic
  | .host name => do
    let h ← find .host name
    return .text (← run (Machine.host h)).diagnostic
  | .gate name => do
    let g ← find .gate name
    return .text (gateDiagnostic (((← get).store.gates[g]?).getD false))
  | .registry name => do
    let r ← run (Machine.registry (← anyRegistry name))
    return .text (← run (Machine.describeRegistry r))
  | .registration name id => do
    let r ← run (Machine.registry (← anyRegistry name))
    return .text (← orBad (r.components.get? id)).diagnostic
  | .handle hostName shape => do
    let _ ← find .host hostName
    return .text shape.diagnostic
  | .binding b => do
    let value ← bind b
    return .text (← run (Machine.describeBinding value))

end HotSwap.Script
