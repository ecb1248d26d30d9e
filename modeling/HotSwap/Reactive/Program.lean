import HotSwap.Eval.Depth
/-!
# The reactive interface

What a program does with signals, memos and effects at its top level.
-/

namespace HotSwap.Machine

def newSignal (v : Json) : Machine NodeId := addNode (.signal v)

def newCell (k : Option ComponentId) : Machine NodeId := addNode (.cell k)

def newMemo (name : String) (body : LinkedExpr) : Machine NodeId :=
  addNode (.memo { recipe := .value name body })

def newLazyEffect (name : String) (body : LinkedExpr) : Machine NodeId :=
  addNode (.effect { name, body })

def read (n : NodeId) : Machine Content := topCalls.read n

def notify (n : NodeId) : Machine Unit := topCalls.notify n

def setSignal (n : NodeId) (v : Json) : Machine Unit := write topCalls n v

def evaluate (env : Env) (e : LinkedExpr) : Machine Json := e.eval topCalls env

def updateSignal (n : NodeId) (e : LinkedExpr) : Machine Json := do
  let v ← evaluate { current := ← peek n } e
  setSignal n v
  peek n

def setCell (n : NodeId) (k : Option ComponentId) : Machine Unit := writeCell topCalls n k

def execute (n : NodeId) : Machine Unit := runEffect topCalls n

/-- The next read computes; readers are not told. -/
def markDirty (n : NodeId) : Machine Unit := do
  match ← memo? n with
  | some m => setNode n (.memo { m with freshness := .dirty })
  | none => pure ()

def markMaybeDirty (n : NodeId) : Machine Unit := mark topCalls n

def render (k : ComponentId) (props : Json) : Machine View := topCalls.render k props

def build (env : Env) (t : LinkedTemplate) : Machine View := t.eval topCalls env

def resolve (v : View) : Machine View := topCalls.resolve v

def viewText (v : View) : Machine String := textOf topCalls v

def readerCount (source : NodeId) : Machine Nat := return (← readers source).length

end HotSwap.Machine
