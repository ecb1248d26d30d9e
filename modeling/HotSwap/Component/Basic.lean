import HotSwap.Expr
import HotSwap.OrderedMap
/-!
# Components

A component is a body with a name and metadata, or a proxy: a stable stand-in that delegates to
whatever its cell holds. Its identity is its number.
-/

namespace HotSwap

structure FunctionComponent where
  /-- What it is called in a trace. -/
  name : String
  /-- What it shows as its name. -/
  title : String
  /-- Whether it carries the mark of a development component. -/
  dev : Bool
  properties : OrderedMap String Json
  body : LinkedTemplate

structure Proxy where
  id : String
  location : Option String
  cell : NodeId
  deriving DecidableEq

inductive Component
  | function (f : FunctionComponent)
  | proxy (p : Proxy)

/-- Proxies count as development components. -/
def Component.isDev : Component → Bool
  | .function f => f.dev
  | .proxy _ => true

def Component.handles : Component → List Handle
  | .function f => f.body.handles
  | .proxy p => [.node p.cell]

end HotSwap
