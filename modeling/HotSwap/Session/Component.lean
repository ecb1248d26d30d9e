import HotSwap.Session.Basic
import HotSwap.Session.Command
import HotSwap.Session.Reply

namespace HotSwap.Script

def optionalComponent : Option String → Script (Option ComponentId)
  | none => return none
  | some name => return some (← find .component name)

def proxyOf (k : ComponentId) : Script Proxy := do
  match ← run (Machine.component? k) with
  | some (.proxy p) => return p
  | _ => badInput

def currentLabel (cell : NodeId) : Script (Option String) := do
  match ← run (Machine.cellContent cell) with
  | none => return none
  | some k => return some (← componentLabel k)

def viewState (v : View) : Script Reply := do
  match v with
  | .dynamic n =>
    let m ← orBad (← run (Machine.memo? n))
    return .viewState (some (m.freshness, m.value.isSome))
  | _ => return .viewState none

def component : ComponentCommand → Script Reply
  | .component name title dev body => do
    let t ← linkTemplate body
    define .component name (← run (Machine.newFunction name title dev t))
    return .nothing
  | .render name props result => do
    let k ← find .component name
    let v ← run (Machine.render k props)
    match result with
    | some n => define .view n v
    | none => pure ()
    return .view v
  | .view name body props => do
    let t ← linkTemplate body
    let v ← run (Machine.build { props } t)
    define .view name v
    return .view v
  | .resolve name => do
    let v ← find .view name
    return .view (← run (Machine.resolve v))
  | .text name => do
    let v ← find .view name
    return .text (← run (Machine.viewText v))
  | .isDynamic name => return .flag (← find .view name).isDynamic
  | .sameView a b => return .flag ((← find .view a).same (← find .view b))
  | .viewState name => do viewState (← find .view name)
  | .info name => do
    let k ← find .component name
    return .component (← run (Machine.componentName k)) (← run (Machine.isDev k))
  | .sameComponent a b => return .flag ((← find .component a) == (← find .component b))
  | .property name key => do
    let k ← find .component name
    return .found (← run (Machine.property k key))
  | .setProperty name key v => do
    let k ← find .component name
    run (Machine.setProperty k key v)
    return .nothing
  | .cell name content => do
    let k ← optionalComponent content
    define .cell name (← run (Machine.newCell k))
    return .nothing
  | .setCell name content => do
    let n ← find .cell name
    let k ← optionalComponent content
    run (Machine.setCell n k)
    return .nothing
  | .proxy name id location cell => do
    let n ← find .cell cell
    let k ← run (Machine.newProxy id location n)
    define .proxy name k
    define .component name k
    return .nothing
  | .proxyInfo name => do
    let p ← proxyOf (← find .proxy name)
    return .proxy p.id p.location (← currentLabel p.cell)
  | .setProxy name content => do
    let p ← proxyOf (← find .proxy name)
    let k ← find .component content
    run (Machine.setCell p.cell (some k))
    return .nothing

end HotSwap.Script
