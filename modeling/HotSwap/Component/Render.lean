import HotSwap.Eval.Body
/-!
# Rendering

A proxy whose cell holds a plain component renders it directly. Otherwise it answers a reactive node
that reads the cell: redirecting the cell dirties that node alone, and what is rendered there sees
the providers that surrounded the proxy.
-/

namespace HotSwap.Machine

def isDev (k : ComponentId) : Machine Bool :=
  return ((← component? k).map Component.isDev).getD false

def renderProxy (c : Calls) (p : Proxy) (props : Json) : Machine View := do
  let mount : Machine View := do
    reactiveView (.mount p.cell props (← get).provided)
  match ← cellContent p.cell with
  | none => mount
  | some k => if ← isDev k then mount else c.render k props

def renderComponent (c : Calls) (k : ComponentId) (props : Json) : Machine View := do
  match ← component? k with
  | none => return .empty
  | some (.proxy p) => renderProxy c p props
  | some (.function f) =>
    emit (.render k f.name)
    f.body.eval c { props }

mutual

def resolveView (c : Calls) : View → Machine View
  | .empty => return .empty
  | .text s => return .text s
  | .fragment children => return .fragment (← resolveViews c children)
  | .dynamic n => do
    let v := (← c.read n).toView
    borrowing v (c.resolve v)

def resolveViews (c : Calls) : List View → Machine (List View)
  | [] => return []
  | v :: rest => do
    let w ← resolveView c v
    let ws ← resolveViews c rest
    return w :: ws

end

end HotSwap.Machine
