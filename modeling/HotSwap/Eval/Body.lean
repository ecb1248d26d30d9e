import HotSwap.Eval.Calls
import HotSwap.Json.Writer
/-!
# Evaluating bodies

Operands are evaluated from left to right, and of two branches only the chosen one.
-/

namespace HotSwap

namespace Machine

def peek (n : NodeId) : Machine Json := do
  match ← node? n with
  | some (.signal v) => return v
  | _ => return .null

def cellContent (n : NodeId) : Machine (Option ComponentId) := do
  match ← node? n with
  | some (.cell c) => return c
  | _ => return none

def write (c : Calls) (n : NodeId) (v : Json) : Machine Unit := do
  match ← node? n with
  | some (.signal _) =>
    setNode n (.signal v)
    c.notify n
  | _ => pure ()

def writeCell (c : Calls) (n : NodeId) (component : Option ComponentId) : Machine Unit := do
  setNode n (.cell component)
  collect
  c.notify n

def context (id : ContextId) : Machine Context := return ((← get).contexts[id]?).getD ⟨0, 0, .null⟩

def useContext (id : ContextId) : Machine Json := do
  let ctx ← context id
  return (← provided? ctx.token).getD ctx.fallback

def providerToken (p : Nat) : Machine Token := return ((← get).providers[p]?).getD 0

def contextToken (id : ContextId) : Machine Token := do providerToken (← context id).provider

def textOf (c : Calls) (v : View) : Machine String :=
  return (← borrowing v (c.resolve v)).flatText

def disposeEffect (n : NodeId) : Machine Unit := do
  match ← effect? n with
  | some e =>
    setNode n (.effect { e with disposed := true })
    unsubscribe n
  | none => pure ()

def isTracking : Machine Bool := return (← reader).isSome

end Machine

open Machine in
mutual

def Expr.eval (c : Calls) (env : Env) : LinkedExpr → Machine Json
  | .literal v => return v
  | .props => return env.props
  | .current => return env.current
  | .member k => return env.props.member k
  | .get n => return (← c.read n).toJson
  | .peek n => Machine.peek n
  | .untrack e => untracked (e.eval c env)
  | .add es => do
    let vs ← Expr.evalAll c env es
    return Json.ofWord (vs.foldl (fun a v => a + v.word) 0)
  | .mul es => do
    let vs ← Expr.evalAll c env es
    return Json.ofWord (vs.foldl (fun a v => a * v.word) 1)
  | .less a b => do
    let x ← a.eval c env
    let y ← b.eval c env
    return .bool (decide (x.word < y.word))
  | .cond t a b => do
    if (← t.eval c env).truthy then a.eval c env else b.eval c env
  | .concat es => do
    let vs ← Expr.evalAll c env es
    return .string (String.join (vs.map Json.plain))
  | .list es => do
    let vs ← Expr.evalAll c env es
    return .array vs
  | .seq es => do
    let vs ← Expr.evalAll c env es
    return vs.getLastD .null
  | .set n e => do
    let v ← e.eval c env
    write c n v
    return v
  | .use ctx => useContext ctx
  | .provide ctx v e => do
    let x ← v.eval c env
    let t ← contextToken ctx
    providing t x (e.eval c env)
  | .text v => return .string (← textOf c v)
  | .render k e => do
    let props ← e.eval c env
    let v ← c.render k props
    return .string (← textOf c v)
  | .log e => do
    let v ← e.eval c env
    emit (.note v)
    return v
  | .tracking => return .bool (← isTracking)
  | .dispose n => do
    disposeEffect n
    return .null
  | .release n => do
    Machine.release (.node n)
    return .null

def Expr.evalAll (c : Calls) (env : Env) : List LinkedExpr → Machine (List Json)
  | [] => return []
  | e :: rest => do
    let v ← e.eval c env
    let vs ← Expr.evalAll c env rest
    return v :: vs

end

def Machine.reactiveView (r : Recipe) : Machine View := do
  return .dynamic (← Machine.addNode (.memo { recipe := r }))

open Machine in
mutual

def Template.eval (c : Calls) (env : Env) : LinkedTemplate → Machine View
  | .empty => return .empty
  | .text e => return .text (← e.eval c env).plain
  | .fragment children => return .fragment (← Template.evalAll c env children)
  | .dynamic label body => reactiveView (.template label body env.props)
  | .child k e => do
    let props ← e.eval c env
    c.render k props
  | .provide ctx v body => do
    let x ← v.eval c env
    let t ← contextToken ctx
    providing t x (body.eval c env)
  | .cond t a b => do
    if (← t.eval c env).truthy then a.eval c env else b.eval c env
  | .use v => return v

/-- The views made so far are held while the next ones are made. -/
def Template.evalAll (c : Calls) (env : Env) : List LinkedTemplate → Machine (List View)
  | [] => return []
  | t :: rest => do
    let v ← t.eval c env
    let vs ← keeping v.handles (Template.evalAll c env rest)
    return v :: vs

end

end HotSwap
