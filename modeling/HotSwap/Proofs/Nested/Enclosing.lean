import HotSwap.Eval.Depth
/-!
# Evaluating with the surroundings in hand

The evaluator keeps what runs and what is provided on two stacks of the store, and pushes and pops
around whatever it runs inside. Here the same is evaluated without stacks: everything is handed what
encloses it, which nobody has to put back. What the running computation has read so far is passed on
from one part to the next, and each computation starts anew with nothing.
-/

namespace HotSwap

inductive Enclosure
  /-- A computation; it has no reader if it is untracked. -/
  | computation (reader : Option NodeId)
  | provider (token : Token) (value : Json)
  /-- A scope that was captured earlier, in place of the providers further out. -/
  | scope (captured : Scope)

abbrev Enclosures := List Enclosure

namespace Enclosures

def reader : Enclosures → Option NodeId
  | [] => none
  | .computation r :: _ => r
  | .provider _ _ :: rest | .scope _ :: rest => reader rest

/-- The value of the innermost provider of a token within the nearest scope, or else the innermost
that the scope captured. -/
def value? (t : Token) : Enclosures → Option Json
  | [] => none
  | .computation _ :: rest => value? t rest
  | .provider u v :: rest => if t = u then some v else value? t rest
  | .scope captured :: _ => captured.lookup t

def captured : Enclosures → Scope
  | [] => []
  | .computation _ :: rest => captured rest
  | .provider t v :: rest => (t, v) :: captured rest
  | .scope scope :: _ => scope

end Enclosures

/-- What runs inside some enclosures, and adds to what its computation has read. -/
abbrev Enclosed (α : Type) := ReaderT Enclosures (StateT (List NodeId) Machine) α

namespace Enclosed

structure Calls where
  read : NodeId → Enclosed Content
  notify : NodeId → Enclosed Unit
  render : ComponentId → Json → Enclosed View
  resolve : View → Enclosed View

def exhausted {α : Type} : Enclosed α := fun _ _ => Machine.exhausted

def Calls.none : Calls :=
  ⟨fun _ => exhausted, fun _ => exhausted, fun _ _ => exhausted, fun _ => exhausted⟩

variable {α : Type}

def enclosures : Enclosed Enclosures := read

def reader : Enclosed (Option NodeId) := return (← enclosures).reader

def track (source : NodeId) : Enclosed Unit := do
  match ← reader with
  | some r =>
    modify fun xs => if source ∈ xs then xs else xs ++ [source]
    Machine.subscribe source r
  | none => pure ()

def inFrame (reader : Option NodeId) (act : Enclosed α) : Enclosed (α × Nat) := fun π xs => do
  let (a, ys) ← act (.computation reader :: π) []
  return ((a, ys.length), xs)

def untracked (act : Enclosed α) : Enclosed α := return (← inFrame none act).1

def providing (t : Token) (v : Json) (act : Enclosed α) : Enclosed α :=
  fun π => act (.provider t v :: π)

def inScope (scope : Scope) (act : Enclosed α) : Enclosed α := fun π => act (.scope scope :: π)

def useContext (id : ContextId) : Enclosed Json := do
  let ctx ← Machine.context id
  return ((← enclosures).value? ctx.token).getD ctx.fallback

def keeping (hs : List Handle) (act : Enclosed α) : Enclosed α := fun π xs =>
  Machine.keeping hs (act π xs)

def borrowing (v : View) (act : Enclosed α) : Enclosed α := do
  let a ← keeping v.handles act
  Machine.collect
  return a

def write (c : Calls) (n : NodeId) (v : Json) : Enclosed Unit := do
  match ← Machine.node? n with
  | some (.signal _) =>
    Machine.setNode n (.signal v)
    c.notify n
  | _ => pure ()

def textOf (c : Calls) (v : View) : Enclosed String :=
  return (← borrowing v (c.resolve v)).flatText

end Enclosed

open Enclosed in
mutual

def Expr.enclosed (c : Enclosed.Calls) (env : Env) : LinkedExpr → Enclosed Json
  | .literal v => return v
  | .props => return env.props
  | .current => return env.current
  | .member k => return env.props.member k
  | .get n => return (← c.read n).toJson
  | .peek n => Machine.peek n
  | .untrack e => untracked (e.enclosed c env)
  | .add es => do
    let vs ← Expr.enclosedAll c env es
    return Json.ofWord (vs.foldl (fun a v => a + v.word) 0)
  | .mul es => do
    let vs ← Expr.enclosedAll c env es
    return Json.ofWord (vs.foldl (fun a v => a * v.word) 1)
  | .less a b => do
    let x ← a.enclosed c env
    let y ← b.enclosed c env
    return .bool (decide (x.word < y.word))
  | .cond t a b => do
    if (← t.enclosed c env).truthy then a.enclosed c env else b.enclosed c env
  | .concat es => do
    let vs ← Expr.enclosedAll c env es
    return .string (String.join (vs.map Json.plain))
  | .list es => do
    let vs ← Expr.enclosedAll c env es
    return .array vs
  | .seq es => do
    let vs ← Expr.enclosedAll c env es
    return vs.getLastD .null
  | .set n e => do
    let v ← e.enclosed c env
    write c n v
    return v
  | .use ctx => useContext ctx
  | .provide ctx v e => do
    let x ← v.enclosed c env
    let t ← Machine.contextToken ctx
    providing t x (e.enclosed c env)
  | .text v => return .string (← textOf c v)
  | .render k e => do
    let props ← e.enclosed c env
    let v ← c.render k props
    return .string (← textOf c v)
  | .log e => do
    let v ← e.enclosed c env
    Machine.emit (.note v)
    return v
  | .tracking => return .bool (← reader).isSome
  | .dispose n => do
    Machine.disposeEffect n
    return .null
  | .release n => do
    Machine.release (.node n)
    return .null

def Expr.enclosedAll (c : Enclosed.Calls) (env : Env) : List LinkedExpr → Enclosed (List Json)
  | [] => return []
  | e :: rest => do
    let v ← e.enclosed c env
    let vs ← Expr.enclosedAll c env rest
    return v :: vs

end

open Enclosed in
mutual

def Template.enclosed (c : Enclosed.Calls) (env : Env) : LinkedTemplate → Enclosed View
  | .empty => return .empty
  | .text e => return .text (← e.enclosed c env).plain
  | .fragment children => return .fragment (← Template.enclosedAll c env children)
  | .dynamic label body => Machine.reactiveView (.template label body env.props)
  | .child k e => do
    let props ← e.enclosed c env
    c.render k props
  | .provide ctx v body => do
    let x ← v.enclosed c env
    let t ← Machine.contextToken ctx
    providing t x (body.enclosed c env)
  | .cond t a b => do
    if (← t.enclosed c env).truthy then a.enclosed c env else b.enclosed c env
  | .use v => return v

def Template.enclosedAll (c : Enclosed.Calls) (env : Env) :
    List LinkedTemplate → Enclosed (List View)
  | [] => return []
  | t :: rest => do
    let v ← t.enclosed c env
    let vs ← keeping v.handles (Template.enclosedAll c env rest)
    return v :: vs

end

namespace Enclosed

def runRecipe (c : Calls) (n : NodeId) : Recipe → Enclosed Content
  | .value name body => do
    let v ← body.enclosed c {}
    Machine.emit (.memo n name v)
    return .json v
  | .template label body props => do
    Machine.emit (.node n label)
    return .view (← body.enclosed c { props })
  | .mount cell props scope => do
    match ← c.read cell with
    | .component (some k) => return .view (← inScope scope (untracked (c.render k props)))
    | _ => return .view .empty

def recompute (c : Calls) (n : NodeId) (m : Memo) : Enclosed Content := do
  Machine.unsubscribe n
  let (v, _) ← inFrame (some n) (runRecipe c n m.recipe)
  Machine.settleMemo n v
  return v

def memoContent (c : Calls) (n : NodeId) (m : Memo) : Enclosed Content :=
  match m.freshness, m.value with
  | .clean, some v => return v
  | _, _ => recompute c n m

def content (c : Calls) (n : NodeId) : Enclosed Content := do
  match ← Machine.node? n with
  | some (.signal v) => return .json v
  | some (.cell k) => return .component k
  | some (.memo m) => memoContent c n m
  | _ => return .json .null

def readNode (c : Calls) (n : NodeId) : Enclosed Content := do
  track n
  let v ← content c n
  Machine.emit (.read (← reader) n v)
  return v

/-- A proxy that leaves a node captures what is provided where it is rendered. -/
def renderProxy (c : Calls) (p : Proxy) (props : Json) : Enclosed View := do
  let mount : Enclosed View := do
    Machine.reactiveView (.mount p.cell props (← enclosures).captured)
  match ← Machine.cellContent p.cell with
  | none => mount
  | some k => if ← Machine.isDev k then mount else c.render k props

def renderComponent (c : Calls) (k : ComponentId) (props : Json) : Enclosed View := do
  match ← Machine.component? k with
  | none => return .empty
  | some (.proxy p) => renderProxy c p props
  | some (.function f) =>
    Machine.emit (.render k f.name)
    f.body.enclosed c { props }

mutual

def resolveView (c : Calls) : View → Enclosed View
  | .empty => return .empty
  | .text s => return .text s
  | .fragment children => return .fragment (← resolveViews c children)
  | .dynamic n => do
    let v := (← c.read n).toView
    borrowing v (c.resolve v)

def resolveViews (c : Calls) : List View → Enclosed (List View)
  | [] => return []
  | v :: rest => do
    let w ← resolveView c v
    let ws ← resolveViews c rest
    return w :: ws

end

def runEffect (c : Calls) (n : NodeId) : Enclosed Unit := do
  match ← Machine.effect? n with
  | none => pure ()
  | some e =>
    if e.disposed then pure ()
    else
      Machine.unsubscribe n
      let (_, count) ← inFrame (some n) do
        let v ← e.body.enclosed c {}
        Machine.emit (.effect n e.name v)
      match ← Machine.effect? n with
      | none => pure ()
      | some e => Machine.setNode n (.effect { e with runs := e.runs + 1, dependencies := count })

def markMemo (c : Calls) (n : NodeId) (m : Memo) : Enclosed Unit := do
  match m.freshness with
  | .clean =>
    Machine.setNode n (.memo { m with freshness := .maybeDirty })
    c.notify n
  | _ => pure ()

def mark (c : Calls) (n : NodeId) : Enclosed Unit := do
  match ← Machine.node? n with
  | some (.memo m) => markMemo c n m
  | some (.probe name _) => Machine.emit (.dirty n name)
  | _ => pure ()

def schedule (c : Calls) (n : NodeId) : Enclosed Unit := do
  match ← Machine.node? n with
  | some (.effect _) => runEffect c n
  | some (.probe name true) => Machine.emit (.scheduled n name)
  | _ => pure ()

def forEach (act : NodeId → Enclosed Unit) : List NodeId → Enclosed Unit
  | [] => pure ()
  | n :: rest => do act n; forEach act rest

def notifyNode (c : Calls) (source : NodeId) : Enclosed Unit := do
  let targets ← Machine.liveReaders source
  forEach (mark c) targets
  forEach (schedule c) targets

def calls : Nat → Calls
  | 0 => .none
  | depth + 1 =>
    { read := fun n => readNode (calls depth) n
      notify := fun n => notifyNode (calls depth) n
      render := fun k props => renderComponent (calls depth) k props
      resolve := fun v => resolveView (calls depth) v }

end Enclosed

end HotSwap
