import HotSwap.Component.Render
import HotSwap.Reactive.Notify
import HotSwap.Reactive.Read
/-!
# Nesting

`calls n` answers every call whose nested calls go at most `n` deep.
-/

namespace HotSwap

def Calls.next (c : Calls) : Calls where
  read := Machine.readNode c
  notify := Machine.notifyNode c
  render := Machine.renderComponent c
  resolve := Machine.resolveView c

def calls : Nat → Calls
  | 0 => .none
  | depth + 1 =>
    { read := fun n => (calls depth).next.read n
      notify := fun n => (calls depth).next.notify n
      render := fun k props => (calls depth).next.render k props
      resolve := fun v => (calls depth).next.resolve v }

theorem calls_zero : calls 0 = .none := rfl

theorem calls_succ (depth : Nat) : calls (depth + 1) = (calls depth).next := rfl

/-- Deeper than any computation that ends in practice. -/
def nesting : Nat := 100000

def topCalls : Calls := calls nesting

end HotSwap
