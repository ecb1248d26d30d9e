import HotSwap.Config.Json
import HotSwap.Refresh.Program
import HotSwap.Session.Basic
import HotSwap.Session.Command
import HotSwap.Session.Reply

namespace HotSwap.Script

def orFailed : Except Error α → Script α
  | .ok a => pure a
  | .error e => throw (.failed e)

def tableOf : Option (List (Flavor × DeclineRule)) → DeclineTable
  | none => .standard
  | some rules => .ofList rules

def slotLabel : Option RegistryId → Script (Option String)
  | none => return none
  | some r => return some (← sharedLabel r)

def nameSlot (name : Option String) (r : Option RegistryId) : Script Unit :=
  match name, r with
  | some n, some id => define .shared n id
  | _, _ => pure ()

def configOf (p : ConfigParts) : Script Config := do
  let transport ← orFailed (Config.flavorOf p.transport)
  return { transport, devMode := p.devMode, decline := tableOf p.decline }

/-- The registry is given away whatever comes of it. -/
def refresh (cfg : Config) (g : Option GateId) (h : HostId) (shape : Shape) (direct : Bool)
    (registryName : String) : Script Reply := do
  let r ← find .registry registryName
  let result ← match g, direct, shape with
    | some gate, true, .acceptWithModule => do
      run (Machine.refreshEsm cfg gate h r)
      pure (.ok ())
    | some gate, true, .disposeThenAccept => do
      run (Machine.refreshStandard cfg gate h r)
      pure (.ok ())
    | _, _, _ => run (Machine.refresh cfg (g.getD processGate) shape h r)
  let _ ← forget .registry registryName
  orFailed result
  return .nothing

def optionalGate : Option String → Script (Option GateId)
  | none => return none
  | some name => return some (← find .gate name)

def host : HostCommand → Script Reply
  | .data name none => do
    define .data name (← run (Machine.addData .empty))
    return .flag true
  | .data name (some hostName) => do
    let h ← find .host hostName
    match (← run (Machine.host h)).data with
    | none => return .flag false
    | some d =>
      define .data name d
      return .flag true
  | .sameData a b => return .flag ((← find .data a) == (← find .data b))
  | .dataGet name key => do
    let d ← run (Machine.hotData (← find .data name))
    return .label (← slotLabel (d.get? key))
  | .dataInsert name key shared => do
    let d ← find .data name
    let r ← find .shared shared
    let slots ← run (Machine.hotData d)
    run (Machine.setHotData d (slots.insert key r))
    return .nothing
  | .dataFill name key shared => do
    let d ← find .data name
    let r ← find .shared shared
    return .label (some (← sharedLabel (← run (Machine.fillSlot d key r))))
  | .host name id shape => do
    let h ← match shape with
      | .acceptWithModule => run (Machine.newEsmHost id)
      | .disposeThenAccept => run (Machine.newStandardHost id)
    define .host name h
    return .nothing
  | .events name => do
    let h ← run (Machine.host (← find .host name))
    return .events h.id h.events
  | .slots hostName current previous => do
    let h ← run (Machine.host (← find .host hostName))
    match h.data with
    | none => return .slots none
    | some d =>
      let slots ← run (Machine.hotData d)
      let c := slots.get? currentSlot
      let p := slots.get? previousSlot
      nameSlot current c
      nameSlot previous p
      return .slots (some (← slotLabel c, ← slotLabel p))
  | .gate name => do
    define .gate name (← run Machine.addGate)
    return .nothing
  | .gateInfo name => do
    let g ← find .gate name
    return .flag (((← get).store.gates[g]?).getD false)
  | .shouldDecline name devMode => do
    let g ← find .gate name
    return .flag (← run (Machine.shouldDecline g devMode))
  | .configJson name text => do
    let cfg ← orFailed (Config.ofJson text)
    define .config name cfg
    return .config cfg
  | .config name parts => do
    let cfg ← configOf parts
    define .config name cfg
    return .config cfg
  | .refresh cfgName hostName shape registryName gateName direct => do
    let cfg ← find .config cfgName
    let h ← find .host hostName
    let g ← optionalGate gateName
    refresh cfg g h shape direct registryName
  | .deliver hostName module => do
    let h ← find .host hostName
    run (Machine.deliverUpdate h module)
    return .nothing
  | .dispose hostName next => do
    let h ← find .host hostName
    define .host next (← run (Machine.dispose h))
    return .nothing
  | .decline transport hostName shape inlined table => do
    let f ← orFailed (Config.flavorOf transport)
    let h ← find .host hostName
    run (Machine.decline f shape h inlined (tableOf table))
    return .nothing
  | .request hostName _ .invalidate => do
    let h ← find .host hostName
    run (Machine.request h .invalidated)
    return .nothing
  | .request hostName _ .decline => do
    let h ← find .host hostName
    run (Machine.request h .declined)
    return .nothing
  | .request hostName _ .reload => do
    let h ← find .host hostName
    run (Machine.request h .reloaded)
    return .nothing
  | .accept hostName name .acceptWithModule again => do
    let h ← find .host hostName
    run (Machine.acceptWith h (.report name again))
    return .nothing
  | .accept hostName _ .disposeThenAccept _ => do
    let h ← find .host hostName
    run (Machine.request h .accepted)
    return .nothing
  | .onDispose hostName name slot => do
    let h ← find .host hostName
    let filled ← match slot with
      | none => pure none
      | some (key, shared) => do
        let r ← find .shared shared
        pure (some (key, r))
    run (Machine.disposeWith h (.report name filled))
    return .nothing

end HotSwap.Script
