import HotSwap.Expr
import HotSwap.OrderedMap
/-!
# Closed-over bindings

A snapshot of the free variables of a component. Two snapshots are compared shallowly: plain values
by value, components and objects by identity. Every NaN is the same, and so are the two zeros.
-/

namespace HotSwap

inductive Binding
  | undefined
  | null
  | bool (value : Bool)
  | number (bits : UInt64)
  | text (value : String)
  | component (id : ComponentId)
  | object (id : Nat)
  deriving DecidableEq

abbrev Dependencies := OrderedMap String Binding

def isNaN (bits : UInt64) : Bool := 0x7ff0000000000000 < bits.toNat % 0x8000000000000000

def isZero (bits : UInt64) : Bool := bits.toNat % 0x8000000000000000 == 0

namespace Binding

def ofInt32 (i : Int) : Binding := .number (Float.ofInt i).toBits

def sameNumber (a b : UInt64) : Bool :=
  if isNaN a || isNaN b then isNaN a && isNaN b
  else a == b || (isZero a && isZero b)

def same : Binding → Binding → Bool
  | .undefined, .undefined => true
  | .null, .null => true
  | .bool a, .bool b => a == b
  | .number a, .number b => sameNumber a b
  | .text a, .text b => a == b
  | .component a, .component b => a == b
  | .object a, .object b => a == b
  | _, _ => false

def handles : Binding → List Handle
  | .component c => [.component c]
  | _ => []

end Binding

namespace Dependencies

def kept (old new : Dependencies) : Bool :=
  old.entries.all fun e => (new.get? e.1).any e.2.same

/-- Whether two snapshots differ. A snapshot that is present differs from one that is not. -/
def changed : Option Dependencies → Option Dependencies → Bool
  | none, none => false
  | some old, some new => old.size != new.size || !kept old new
  | _, _ => true

end Dependencies

end HotSwap
