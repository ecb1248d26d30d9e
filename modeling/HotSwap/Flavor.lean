/-!
# Dev-server flavors

A flavor names a dev server. All that matters of it is its shape: how it hands over a new version
of a module.
-/

namespace HotSwap

inductive Flavor
  | esm
  | vite
  | standard
  | webpack5
  | rspackEsm
  deriving DecidableEq

/-- How a host hands over module versions: it calls back with the new module, or it disposes of the
old instance and evaluates a new one. -/
inductive Shape
  | acceptWithModule
  | disposeThenAccept
  deriving DecidableEq

def Shape.handle : Shape → String
  | .acceptWithModule => "esm"
  | .disposeThenAccept => "standard"

namespace Flavor

def all : List Flavor := [.esm, .vite, .standard, .webpack5, .rspackEsm]

def name : Flavor → String
  | .esm => "esm"
  | .vite => "vite"
  | .standard => "standard"
  | .webpack5 => "webpack5"
  | .rspackEsm => "rspack-esm"

def named : List (String × Flavor) := all.map fun f => (f.name, f)

def ofName? (s : String) : Option Flavor := all.find? fun f => f.name == s

def shape : Flavor → Shape
  | .esm => .acceptWithModule
  | .vite => .acceptWithModule
  | .standard => .disposeThenAccept
  | .webpack5 => .disposeThenAccept
  | .rspackEsm => .disposeThenAccept

theorem mem_all (f : Flavor) : f ∈ all := by cases f <;> simp [all]

theorem ofName?_name (f : Flavor) : ofName? f.name = some f := by cases f <;> rfl

end Flavor

end HotSwap
