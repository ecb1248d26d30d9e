import HotSwap.Flavor
import HotSwap.OrderedMap
/-!
# Declining an update

Two things end a refresh without a patch: the gate, when the reactive runtime lacks its development
half, and an inline decline, when a patch found a removed registration. What to ask of the host then
is a table from flavors to rules. A flavor that the table does not list has a built-in rule.
-/

namespace HotSwap

inductive Strategy
  | invalidate
  | decline
  | reload
  | acceptThenInvalidate
  deriving DecidableEq

namespace Strategy

def all : List Strategy := [.invalidate, .decline, .reload, .acceptThenInvalidate]

def name : Strategy → String
  | .invalidate => "invalidate"
  | .decline => "decline"
  | .reload => "reload"
  | .acceptThenInvalidate => "accept-then-invalidate"

def named : List (String × Strategy) := all.map fun s => (s.name, s)

def ofName? (n : String) : Option Strategy := all.find? fun s => s.name == n

theorem mem_all (s : Strategy) : s ∈ all := by cases s <;> simp [all]

end Strategy

structure DeclineRule where
  gate : Strategy
  inlined : Strategy
  deriving DecidableEq

def DeclineRule.builtin : Flavor → DeclineRule
  | .esm => ⟨.decline, .invalidate⟩
  | .vite => ⟨.acceptThenInvalidate, .invalidate⟩
  | .standard => ⟨.decline, .reload⟩
  | .webpack5 => ⟨.decline, .invalidate⟩
  | .rspackEsm => ⟨.decline, .invalidate⟩

def DeclineRule.strategy (r : DeclineRule) (inlined : Bool) : Strategy :=
  if inlined then r.inlined else r.gate

abbrev DeclineTable := OrderedMap Flavor DeclineRule

namespace DeclineTable

def standard : DeclineTable := .ofList (Flavor.all.map fun f => (f, DeclineRule.builtin f))

def rule (t : DeclineTable) (f : Flavor) : DeclineRule := (t.get? f).getD (.builtin f)

def strategy (t : DeclineTable) (f : Flavor) (inlined : Bool) : Strategy :=
  (rule t f).strategy inlined

def same (t u : DeclineTable) : Bool := t.sameEntries u

end DeclineTable

end HotSwap
