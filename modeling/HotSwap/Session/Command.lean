import HotSwap.Expr
import HotSwap.Decline.Table
import HotSwap.Dependency
/-!
# Commands

What a session can be told to do, by names.
-/

namespace HotSwap

inductive Droppable
  | signal
  | memo
  | effect
  | view
  | probe
  deriving DecidableEq

inductive ReactiveCommand
  | signal (name : String) (value : Json)
  | set (name : String) (value : Json)
  | get (name : String)
  | peek (name : String)
  | update (name : String) (body : NamedExpr)
  | memo (name : String) (body : NamedExpr)
  | effect (name : String) (body : NamedExpr) (deferred : Bool)
  | memoInfo (name : String)
  | markDirty (name : String)
  | markMaybeDirty (name : String)
  | effectInfo (name : String)
  | execute (name : String)
  | disposeEffect (name : String)
  | readerCount (name : String)
  | share (name other : String)
  | sameMemo (a b : String)
  | sameSignal (a b : String)
  | earlierSource (a b : String)
  | drop (name : String) (kind : Droppable)
  | probe (name : String) (eager : Bool)
  | subscribe (probe source : String)
  | unsubscribe (probe : String)
  | notify (name : String)
  | evaluate (body : NamedExpr) (props : Json)
  | tracking

inductive ContextCommand
  | context (name : String) (fallback : Json)
  | use (name : String)
  | fallback (name : String)
  | setFallback (name : String) (value : Json)
  | aliasIdentity (name other : String)
  | compare (a b : String)
  | provider (name context : String)
  | scope (name : String)
  | lookup (name : String)

inductive ComponentCommand
  | component (name title : String) (dev : Bool) (body : NamedTemplate)
  | render (component : String) (props : Json) (name : Option String)
  | view (name : String) (body : NamedTemplate) (props : Json)
  | resolve (name : String)
  | text (name : String)
  | isDynamic (name : String)
  | sameView (a b : String)
  | viewState (name : String)
  | info (name : String)
  | sameComponent (a b : String)
  | property (name key : String)
  | setProperty (name key : String) (value : Json)
  | cell (name : String) (component : Option String)
  | setCell (name : String) (component : Option String)
  | proxy (name id : String) (location : Option String) (cell : String)
  | proxyInfo (name : String)
  | setProxy (name component : String)

inductive NamedBinding
  | plain (b : Binding)
  | component (name : String)
  | object (name : String)

abbrev NamedBindings := List (String × NamedBinding)

inductive RegistryCommand
  | registry (name : String)
  | register (name id component : String) (signature : Option String)
      (dependencies : Option NamedBindings) (location : Option String) (result : String)
  | registerContext (name id context : String)
  | dump (name : String)
  | lookup (name id : String)
  | snapshot (name : String)
  | redirect (name id component : String)
  | reconcile (name new : String) (brief : Bool)
  | patchComponents (name new : String)
  | patchContexts (name new : String)
  | share (name registry : String)
  | sameShared (a b : String)

structure ConfigParts where
  transport : String
  devMode : Bool
  decline : Option (List (Flavor × DeclineRule))

inductive HostRequest
  | invalidate
  | decline
  | reload
  deriving DecidableEq

inductive HostCommand
  | data (name : String) (host : Option String)
  | sameData (a b : String)
  | dataGet (name key : String)
  | dataInsert (name key shared : String)
  | dataFill (name key shared : String)
  | host (name id : String) (shape : Shape)
  | events (name : String)
  | slots (host : String) (current previous : Option String)
  | gate (name : String)
  | gateInfo (name : String)
  | shouldDecline (name : String) (devMode : Bool)
  | configJson (name text : String)
  | config (name : String) (parts : ConfigParts)
  | refresh (config host : String) (shape : Shape) (registry : String) (gate : Option String)
      (direct : Bool)
  | deliver (host : String) (module : Option String)
  | dispose (host next : String)
  | decline (transport : String) (host : String) (shape : Shape) (inlined : Bool)
      (table : Option (List (Flavor × DeclineRule)))
  | request (host : String) (shape : Shape) (request : HostRequest)
  | accept (host name : String) (shape : Shape) (again : Option String)
  | onDispose (host name : String) (slot : Option (String × String))

inductive DescribeCommand
  | component (name : String)
  | proxy (name : String)
  | view (name : String)
  | signal (name : String)
  | memo (name : String)
  | effect (name : String)
  | context (name : String)
  | provider (name : String)
  | host (name : String)
  | gate (name : String)
  | registry (name : String)
  | registration (name id : String)
  | handle (host : String) (shape : Shape)
  | binding (b : NamedBinding)

inductive Command
  | malformed
  | reactive (c : ReactiveCommand)
  | context (c : ContextCommand)
  | component (c : ComponentCommand)
  | registry (c : RegistryCommand)
  | host (c : HostCommand)
  | describe (c : DescribeCommand)
  | track (probe : Option String) (steps : List Command)
  | untracked (steps : List Command)
  | provideContext (context : String) (value : Json) (steps : List Command)
  | provideWith (provider : String) (value : Json) (steps : List Command)
  | inScope (name : String) (steps : List Command)
  | apply (host : String) (steps : List Command)

instance : Inhabited Command := ⟨.malformed⟩

end HotSwap
