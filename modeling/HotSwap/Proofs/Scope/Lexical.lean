import HotSwap.Proofs.Context.Spared
/-!
# Rendering with the providers in hand

The evaluator keeps what is provided on a stack, and a reactive node puts the stack that it was made
under back in place when it runs. Bodies that build their views from props, contexts, provided parts
and other components can be rendered without any of this: whatever is provided is handed to every
part, nothing is cached, and a reactive node is no more than the component to be rendered with what
was provided around it.
-/

namespace HotSwap

open Machine

mutual

/-- Nothing but props and contexts is read, and components of `K` are rendered. -/
def Expr.Contextual (K : ComponentId → Prop) : LinkedExpr → Prop
  | .literal _ => True
  | .props => True
  | .current => True
  | .member _ => True
  | .get _ => False
  | .peek _ => False
  | .untrack e => e.Contextual K
  | .add es => Expr.ContextualAll K es
  | .mul es => Expr.ContextualAll K es
  | .less a b => a.Contextual K ∧ b.Contextual K
  | .cond t a b => t.Contextual K ∧ a.Contextual K ∧ b.Contextual K
  | .concat es => Expr.ContextualAll K es
  | .list es => Expr.ContextualAll K es
  | .seq es => Expr.ContextualAll K es
  | .set _ _ => False
  | .use _ => True
  | .provide _ v e => v.Contextual K ∧ e.Contextual K
  | .text _ => False
  | .render k e => K k ∧ e.Contextual K
  | .log e => e.Contextual K
  | .tracking => False
  | .dispose _ => False
  | .release _ => False

def Expr.ContextualAll (K : ComponentId → Prop) : List LinkedExpr → Prop
  | [] => True
  | e :: rest => e.Contextual K ∧ Expr.ContextualAll K rest

end

mutual

def Template.Contextual (K : ComponentId → Prop) : LinkedTemplate → Prop
  | .empty => True
  | .text e => e.Contextual K
  | .fragment children => Template.ContextualAll K children
  | .dynamic _ _ => False
  | .child k e => K k ∧ e.Contextual K
  | .provide _ v body => v.Contextual K ∧ body.Contextual K
  | .cond t a b => t.Contextual K ∧ a.Contextual K ∧ b.Contextual K
  | .use _ => False

def Template.ContextualAll (K : ComponentId → Prop) : List LinkedTemplate → Prop
  | [] => True
  | t :: rest => t.Contextual K ∧ Template.ContextualAll K rest

end

namespace Store

def Occupied (s : Store) (K : ComponentId → Prop) (cell : NodeId) : Prop :=
  ∃ k, s.nodes[cell]? = some (.cell k) ∧ ∀ j, k = some j → K j

/-- Whatever is rendered from `K` on has a body of this kind. -/
structure Contextual (s : Store) (K : ComponentId → Prop) : Prop where
  function : ∀ ⦃k f⦄, K k → s.components[k]? = some (.function f) → f.body.Contextual K
  proxy : ∀ ⦃k p⦄, K k → s.components[k]? = some (.proxy p) → s.Occupied K p.cell

def seen (s : Store) (scope : Scope) (c : ContextId) : Json :=
  (scope.lookup (s.contextAt c).token).getD (s.contextAt c).fallback

def dev (s : Store) (k : ComponentId) : Bool := ((s.components[k]?).map Component.isDev).getD false

end Store

/-- A view of which no node has been read: each stands for what is rendered from its cell, where
`scope` is provided. -/
inductive Draft
  | empty
  | text (content : String)
  | fragment (children : List Draft)
  | mount (cell : NodeId) (props : Json) (scope : Scope)

structure Lexical where
  cell : NodeId → Option (Option ComponentId)
  mount : NodeId → Json → Scope → Option Draft
  render : Scope → ComponentId → Json → Option Draft
  resolve : Draft → Option View

def Lexical.none : Lexical :=
  ⟨fun _ => .none, fun _ _ _ => .none, fun _ _ _ => .none, fun _ => .none⟩

mutual

def Expr.under (s : Store) (l : Lexical) (env : Env) (scope : Scope) : LinkedExpr → Option Json
  | .literal v => some v
  | .props => some env.props
  | .current => some env.current
  | .member k => some (env.props.member k)
  | .untrack e => e.under s l env scope
  | .add es => do
    let vs ← Expr.underAll s l env scope es
    return Json.ofWord (vs.foldl (fun a v => a + v.word) 0)
  | .mul es => do
    let vs ← Expr.underAll s l env scope es
    return Json.ofWord (vs.foldl (fun a v => a * v.word) 1)
  | .less a b => do
    let x ← a.under s l env scope
    let y ← b.under s l env scope
    return .bool (decide (x.word < y.word))
  | .cond t a b => do
    if (← t.under s l env scope).truthy then a.under s l env scope else b.under s l env scope
  | .concat es => do
    let vs ← Expr.underAll s l env scope es
    return .string (String.join (vs.map Json.plain))
  | .list es => do
    let vs ← Expr.underAll s l env scope es
    return .array vs
  | .seq es => do
    let vs ← Expr.underAll s l env scope es
    return vs.getLastD .null
  | .use c => some (s.seen scope c)
  | .provide c v e => do
    let x ← v.under s l env scope
    e.under s l env ((s.provides c, x) :: scope)
  | .render k e => do
    let props ← e.under s l env scope
    let d ← l.render scope k props
    return .string (← l.resolve d).flatText
  | .log e => e.under s l env scope
  | .get _ | .peek _ | .set _ _ | .text _ | .tracking | .dispose _ | .release _ => .none

def Expr.underAll (s : Store) (l : Lexical) (env : Env) (scope : Scope) :
    List LinkedExpr → Option (List Json)
  | [] => some []
  | e :: rest => do
    let v ← e.under s l env scope
    let vs ← Expr.underAll s l env scope rest
    return v :: vs

end

mutual

def Template.under (s : Store) (l : Lexical) (env : Env) (scope : Scope) :
    LinkedTemplate → Option Draft
  | .empty => some .empty
  | .text e => return .text (← e.under s l env scope).plain
  | .fragment children => return .fragment (← Template.underAll s l env scope children)
  | .child k e => do
    let props ← e.under s l env scope
    l.render scope k props
  | .provide c v body => do
    let x ← v.under s l env scope
    body.under s l env ((s.provides c, x) :: scope)
  | .cond t a b => do
    if (← t.under s l env scope).truthy then a.under s l env scope else b.under s l env scope
  | .dynamic _ _ | .use _ => .none

def Template.underAll (s : Store) (l : Lexical) (env : Env) (scope : Scope) :
    List LinkedTemplate → Option (List Draft)
  | [] => some []
  | t :: rest => do
    let d ← t.under s l env scope
    let ds ← Template.underAll s l env scope rest
    return d :: ds

end

mutual

def Draft.resolved (l : Lexical) : Draft → Option View
  | .empty => some .empty
  | .text content => some (.text content)
  | .fragment children => return .fragment (← Draft.resolvedAll l children)
  | .mount cell props scope => do l.resolve (← l.mount cell props scope)

def Draft.resolvedAll (l : Lexical) : List Draft → Option (List View)
  | [] => some []
  | d :: rest => do
    let v ← d.resolved l
    let vs ← Draft.resolvedAll l rest
    return v :: vs

end

def Lexical.mounted (l : Lexical) (cell : NodeId) (props : Json) (scope : Scope) : Option Draft := do
  match ← l.cell cell with
  | some k => l.render scope k props
  | .none => return .empty

namespace Store

/-- A proxy over a plain component renders that component at once, any other leaves a node. -/
def rendered (s : Store) (l : Lexical) (scope : Scope) (k : ComponentId) (props : Json) :
    Option Draft :=
  match s.components[k]? with
  | none => some .empty
  | some (.proxy p) =>
    match s.held p.cell with
    | none => some (.mount p.cell props scope)
    | some j => if s.dev j then some (.mount p.cell props scope) else l.render scope j props
  | some (.function f) => f.body.under s l { props } scope

def lexical (s : Store) : Nat → Lexical
  | 0 => .none
  | depth + 1 =>
    { cell := fun n => some (s.held n)
      mount := fun cell props scope => (s.lexical depth).mounted cell props scope
      render := fun scope k props => s.rendered (s.lexical depth) scope k props
      resolve := fun d => d.resolved (s.lexical depth) }

end Store

end HotSwap
