import HotSwap.Expr
/-!
# Reactive nodes

Sources are signals, cells and memos; readers are memos, effects and probes. All are numbered
together, in the order of their creation.
-/

namespace HotSwap

/-- Token that a provider and its consumers match on. -/
abbrev Token := Nat

/-- Provided values, the innermost first. -/
abbrev Scope := List (Token × Json)

inductive Content
  | json (value : Json)
  | view (value : View)
  | component (id : Option ComponentId)

def Content.toJson : Content → Json
  | .json v => v
  | _ => .null

def Content.toView : Content → View
  | .view v => v
  | _ => .empty

def Content.handles : Content → List Handle
  | .json _ => []
  | .view v => v.handles
  | .component none => []
  | .component (some c) => [.component c]

inductive Freshness
  | clean
  | maybeDirty
  | dirty
  deriving DecidableEq

inductive Recipe
  | value (name : String) (body : LinkedExpr)
  | template (label : String) (body : LinkedTemplate) (props : Json)
  /-- A mounted proxy: renders what the cell holds, with the providers it was created under. -/
  | mount (cell : NodeId) (props : Json) (scope : Scope)

def Recipe.handles : Recipe → List Handle
  | .value _ body => body.handles
  | .template _ body _ => body.handles
  | .mount cell _ _ => [.node cell]

structure Memo where
  recipe : Recipe
  value : Option Content := none
  freshness : Freshness := .dirty

structure Effect where
  name : String
  body : LinkedExpr
  disposed : Bool := false
  runs : Nat := 0
  /-- How many sources the last run read. -/
  dependencies : Nat := 0

inductive Node
  | signal (value : Json)
  | cell (component : Option ComponentId)
  | memo (m : Memo)
  | effect (e : Effect)
  /-- A reader that only reports what it is told. -/
  | probe (name : String) (eager : Bool)
  /-- A bare identity to track reads under. -/
  | observer

def Node.handles : Node → List Handle
  | .signal _ => []
  | .cell none => []
  | .cell (some c) => [.component c]
  | .memo m => m.recipe.handles ++ (m.value.map Content.handles).getD []
  | .effect e => e.body.handles
  | .probe _ _ => []
  | .observer => []

/-- One running computation: who reads, and what it has read so far. An untracked frame has no
reader. -/
structure Frame where
  reader : Option NodeId
  sources : List NodeId := []
  deriving DecidableEq

end HotSwap
