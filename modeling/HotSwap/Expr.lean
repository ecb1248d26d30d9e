import HotSwap.Json.Basic
import HotSwap.View
/-!
# Bodies

`Expr` is what memos and effects compute, `Template` what components render. Both are given over what
stands for a source, a context, a view and a component in them: names as they are written down, and
identities once the names are linked.
-/

namespace HotSwap

inductive Expr (σ κ ν χ : Type)
  | literal (value : Json)
  | props
  /-- The value that an update starts from. -/
  | current
  | member (key : String)
  | get (source : σ)
  | peek (source : σ)
  | untrack (e : Expr σ κ ν χ)
  | add (es : List (Expr σ κ ν χ))
  | mul (es : List (Expr σ κ ν χ))
  | less (a b : Expr σ κ ν χ)
  | cond (test yes no : Expr σ κ ν χ)
  | concat (es : List (Expr σ κ ν χ))
  | list (es : List (Expr σ κ ν χ))
  | seq (es : List (Expr σ κ ν χ))
  | set (source : σ) (e : Expr σ κ ν χ)
  | use (context : κ)
  | provide (context : κ) (value body : Expr σ κ ν χ)
  | text (view : ν)
  | render (component : χ) (input : Expr σ κ ν χ)
  | log (e : Expr σ κ ν χ)
  | tracking
  | dispose (effect : σ)
  /-- Lets go of one handle to a memo or effect that is held from outside. -/
  | release (node : σ)

inductive Template (σ κ ν χ : Type)
  | empty
  | text (e : Expr σ κ ν χ)
  | fragment (children : List (Template σ κ ν χ))
  | dynamic (label : String) (body : Template σ κ ν χ)
  | child (component : χ) (input : Expr σ κ ν χ)
  | provide (context : κ) (value : Expr σ κ ν χ) (body : Template σ κ ν χ)
  | cond (test : Expr σ κ ν χ) (yes no : Template σ κ ν χ)
  | use (view : ν)

inductive Handle
  | node (id : NodeId)
  | component (id : ComponentId)
  | registry (id : Nat)
  | data (id : Nat)
  | host (id : Nat)
  deriving DecidableEq

abbrev NamedExpr := Expr String String String String

abbrev NamedTemplate := Template String String String String

abbrev LinkedExpr := Expr NodeId ContextId View ComponentId

abbrev LinkedTemplate := Template NodeId ContextId View ComponentId

def View.handles (v : View) : List Handle := v.nodes.map .node

namespace Expr

mutual

def handles : LinkedExpr → List Handle
  | .literal _ => []
  | .props => []
  | .current => []
  | .member _ => []
  | .get n => [.node n]
  | .peek n => [.node n]
  | .untrack e => handles e
  | .add es => handlesAll es
  | .mul es => handlesAll es
  | .less a b => handles a ++ handles b
  | .cond c a b => handles c ++ handles a ++ handles b
  | .concat es => handlesAll es
  | .list es => handlesAll es
  | .seq es => handlesAll es
  | .set n e => .node n :: handles e
  | .use _ => []
  | .provide _ v e => handles v ++ handles e
  | .text v => v.handles
  | .render c p => .component c :: handles p
  | .log e => handles e
  | .tracking => []
  | .dispose n => [.node n]
  | .release _ => []

def handlesAll : List LinkedExpr → List Handle
  | [] => []
  | e :: rest => handles e ++ handlesAll rest

end

end Expr

namespace Template

mutual

def handles : LinkedTemplate → List Handle
  | .empty => []
  | .text e => e.handles
  | .fragment children => handlesAll children
  | .dynamic _ body => handles body
  | .child c p => .component c :: p.handles
  | .provide _ v body => v.handles ++ handles body
  | .cond c a b => c.handles ++ handles a ++ handles b
  | .use v => v.handles

def handlesAll : List LinkedTemplate → List Handle
  | [] => []
  | t :: rest => handles t ++ handlesAll rest

end

end Template

/-- What names stand for. `readable` also knows memos, `signal` only signals. -/
structure Linker where
  readable : String → Option NodeId
  signal : String → Option NodeId
  context : String → Option ContextId
  view : String → Option View
  component : String → Option ComponentId

mutual

def Expr.link (l : Linker) : NamedExpr → Option LinkedExpr
  | .literal v => some (.literal v)
  | .props => some .props
  | .current => some .current
  | .member k => some (.member k)
  | .get n => return .get (← l.readable n)
  | .peek n => return .peek (← l.signal n)
  | .untrack e => return .untrack (← e.link l)
  | .add es => return .add (← Expr.linkAll l es)
  | .mul es => return .mul (← Expr.linkAll l es)
  | .less a b => return .less (← a.link l) (← b.link l)
  | .cond c a b => return .cond (← c.link l) (← a.link l) (← b.link l)
  | .concat es => return .concat (← Expr.linkAll l es)
  | .list es => return .list (← Expr.linkAll l es)
  | .seq es => return .seq (← Expr.linkAll l es)
  | .set n e => return .set (← l.signal n) (← e.link l)
  | .use c => return .use (← l.context c)
  | .provide c v e => return .provide (← l.context c) (← v.link l) (← e.link l)
  | .text v => return .text (← l.view v)
  | .render c p => return .render (← l.component c) (← p.link l)
  | .log e => return .log (← e.link l)
  | .tracking => some .tracking
  | .dispose n => return .dispose (← l.readable n)
  | .release n => return .release (← l.readable n)

def Expr.linkAll (l : Linker) : List NamedExpr → Option (List LinkedExpr)
  | [] => some []
  | e :: rest => return (← e.link l) :: (← Expr.linkAll l rest)

end

mutual

def Template.link (l : Linker) : NamedTemplate → Option LinkedTemplate
  | .empty => some .empty
  | .text e => return .text (← e.link l)
  | .fragment children => return .fragment (← Template.linkAll l children)
  | .dynamic label body => return .dynamic label (← body.link l)
  | .child c p => return .child (← l.component c) (← p.link l)
  | .provide c v body => return .provide (← l.context c) (← v.link l) (← body.link l)
  | .cond c a b => return .cond (← c.link l) (← a.link l) (← b.link l)
  | .use v => return .use (← l.view v)

def Template.linkAll (l : Linker) : List NamedTemplate → Option (List LinkedTemplate)
  | [] => some []
  | t :: rest => return (← t.link l) :: (← Template.linkAll l rest)

end

end HotSwap
