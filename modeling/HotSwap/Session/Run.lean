import HotSwap.Session.Context
import HotSwap.Session.Describe
import HotSwap.Session.Host
import HotSwap.Session.Reactive
/-!
# Running commands

Each command is answered with a reply and with the events that it caused. A command that fails
leaves what it did so far, and the session goes on. What a command leaves unheld is let go at its
end.
-/

namespace HotSwap

def Failure.reply : Failure → Reply
  | .badInput => .badInput
  | .exhausted => .exhausted
  | .failed e => .failure e

namespace Script

def news : Script (List Event) := do
  let s ← get
  let all := s.store.trace
  modify fun s => { s with reported := all.length }
  return ((all.take (all.length - s.reported)).reverse).filter Event.isShown

def answer (act : Script Reply) : Script (Reply × List Event) := do
  let reply ← tryCatch act fun f => return f.reply
  run Machine.collect
  return (reply, ← news)

def pinning (hs : List Handle) (act : Script α) : Script α := do
  let before := (← get).store.pinned
  run (modify fun s => { s with pinned := hs ++ s.pinned })
  let a ← act
  run (modify fun s => { s with pinned := before })
  return a

def framed (reader : Option NodeId) (act : Script α) : Script (α × List String) := do
  run (Machine.push { reader })
  let a ← act
  let sources ← (← run Machine.sources).mapM sourceLabel
  run Machine.pop
  return (a, sources)

/-- Tracks what `act` reads under a probe, or under an identity of its own that is forgotten
afterwards. -/
def tracked (probe : Option String) (act : Script (List (Reply × List Event))) :
    Script Reply := do
  match probe with
  | some name =>
    let p ← find .probe name
    let (items, sources) ← framed (some p.node) act
    return .tracked true items sources
  | none =>
    let n ← run (Machine.addNode .observer)
    let (items, sources) ← pinning [.node n] (framed (some n) act)
    run (Machine.unsubscribe n)
    return .tracked true items sources

def providing (t : Token) (v : Json) (act : Script α) : Script α := do
  run (modify fun s => { s with provided := (t, v) :: s.provided })
  let a ← act
  run (modify fun s => { s with provided := s.provided.tail })
  return a

def inScope (scope : Scope) (act : Script α) : Script α := do
  let saved := (← get).store.provided
  run (modify fun s => { s with provided := scope })
  let a ← act
  run (modify fun s => { s with provided := saved })
  return a

def applied (h : HostId) (act : Script α) : Script α := do
  let callbacks ← run (Machine.takeAccepts h)
  pinning (.host h :: callbacks.flatMap AcceptCallback.handles) do
    let a ← act
    run (Machine.retire h callbacks)
    return a

mutual

def command : Command → Script Reply
  | .malformed => badInput
  | .reactive c => reactive c
  | .context c => context c
  | .component c => component c
  | .registry c => registry c
  | .host c => host c
  | .describe c => describe c
  | .track probe steps => tracked probe (commands steps)
  | .untracked steps => return .steps (← framed none (commands steps)).1
  | .provideContext name v steps => do
    let c ← find .context name
    let t ← run (Machine.contextToken c)
    return .steps (← providing t v (commands steps))
  | .provideWith name v steps => do
    let p ← find .provider name
    let t ← run (Machine.providerToken p)
    return .steps (← providing t v (commands steps))
  | .inScope name steps => do
    let scope ← find .scope name
    return .steps (← inScope scope (commands steps))
  | .apply name steps => do
    let h ← find .host name
    return .steps (← applied h (commands steps))

def commands : List Command → Script (List (Reply × List Event))
  | [] => return []
  | c :: rest => do
    let item ← answer (command c)
    let items ← commands rest
    return item :: items

end

end Script

namespace Session

def run (cs : List Command) : List (Reply × List Event) :=
  match (ExceptT.run (Script.commands cs) {}).1 with
  | .ok items => items
  | .error _ => []

structure Comparison where
  old : Option Dependencies
  new : Option Dependencies

def compare (old new : Option NamedBindings) : Option Comparison :=
  let bindSide : Option NamedBindings → Script (Option Dependencies)
    | none => pure none
    | some bs => some <$> Script.bindAll bs
  match (ExceptT.run (do return Comparison.mk (← bindSide old) (← bindSide new)) {}).1 with
  | .ok c => some c
  | .error _ => none

end Session

end HotSwap
