import HotSwap.Component.Program
import HotSwap.Proofs.Evaluation.Steady
/-!
# Chains of proxies

What stands behind a proxy is found by following the contents of cells. A proxy whose cell holds the
proxy itself has nothing behind it.
-/

namespace HotSwap

open Machine

namespace Store

variable {s t : Store} {q k : ComponentId}

/-- `q` is a proxy, and its cell holds `k`. -/
def Delegates (s : Store) (q k : ComponentId) : Prop :=
  ∃ p, s.components[q]? = some (.proxy p) ∧ s.nodes[p.cell]? = some (.cell (some k))

theorem Delegates.unique {j : ComponentId} (h : s.Delegates q k) (h' : s.Delegates q j) : k = j := by
  obtain ⟨p, hp, hc⟩ := h
  obtain ⟨p', hp', hc'⟩ := h'
  obtain rfl : p = p' := by simpa [hp] using hp'
  simpa [hc] using hc'

/-- `k` is reached from a component by following `n` proxies. -/
inductive Stands (s : Store) (k : ComponentId) : Nat → ComponentId → Prop
  | self : Stands s k 0 k
  | proxy {n : Nat} {q j : ComponentId} (hd : s.Delegates q j) (hj : Stands s k n j) :
    Stands s k (n + 1) q

theorem Stands.target_eq {n : Nat} (h : s.Stands k n q) {f : FunctionComponent}
    (hf : s.components[k]? = some (.function f)) (fuel : Nat) :
    target (n + fuel + 1) q s = some (some (k, .function f), s) := by
  induction h with
  | self => simp [target, component?_apply, hf]
  | @proxy n q j hd _ ih =>
    obtain ⟨p, hp, hc⟩ := hd
    have hheld : s.held p.cell = some j := by simp [held, hc]
    rw [show n + 1 + fuel + 1 = (n + fuel + 1) + 1 by omega, target]
    simpa [component?_apply, hp, cellContent_apply, hheld] using ih

theorem Stands.set_function {n : Nat} (h : s.Stands k n q) {f : FunctionComponent}
    (hf : s.components[k]? = some (.function f)) (g : FunctionComponent) :
    Stands { s with components := s.components.set k (.function g) } k n q := by
  induction h with
  | self => exact .self
  | proxy hd _ ih =>
    obtain ⟨p, hp, hc⟩ := hd
    refine .proxy ⟨p, ?_, hc⟩ ih
    rw [List.getElem?_set_ne (by rintro rfl; simp [hf] at hp), hp]

def Ends (s : Store) (q : ComponentId) : Prop :=
  ∃ n k f, s.Stands k n q ∧ s.components[k]? = some (.function f)

theorem Delegates.ends {f : FunctionComponent} (h : s.Delegates q k)
    (hf : s.components[k]? = some (.function f)) : s.Ends q :=
  ⟨1, k, f, .proxy h .self, hf⟩

/-- No chain is cut as long as no cell is redirected. -/
theorem Ends.carry (h : s.Ends q) (hg : s.Grows t)
    (hc : ∀ {n : NodeId} {k : Option ComponentId}, s.nodes[n]? = some (.cell k) →
      t.nodes[n]? = some (.cell k)) : t.Ends q := by
  obtain ⟨n, k, f, hs, hf⟩ := h
  obtain ⟨g, hg', -⟩ := hg.function hf
  refine ⟨n, k, g, ?_, hg'⟩
  clear hf
  induction hs with
  | self => exact .self
  | proxy hd _ ih =>
    obtain ⟨p, hp, hn⟩ := hd
    exact .proxy ⟨p, hg.proxy hp, hc hn⟩ ih

theorem Delegates.not_ends (h : s.Delegates q q) : ¬ s.Ends q := by
  rintro ⟨n, k, f, hs, hf⟩
  induction n with
  | zero =>
    cases hs
    obtain ⟨p, hp, -⟩ := h
    simp [hf] at hp
  | succ n ih =>
    cases hs with
    | proxy hd hj =>
      obtain rfl := h.unique hd
      exact ih hj

end Store

namespace Machine

variable {s : Store} {q k : ComponentId} {n : Nat} {f : FunctionComponent}

theorem componentName_of_stands (h : s.Stands k n q) (hn : n < nesting)
    (hf : s.components[k]? = some (.function f)) : componentName q s = some (f.title, s) := by
  have ht := h.target_eq hf (nesting - n - 1)
  rw [show n + (nesting - n - 1) + 1 = nesting by omega] at ht
  simp [componentName, ht]

theorem property_of_stands (h : s.Stands k n q) (hn : n < nesting)
    (hf : s.components[k]? = some (.function f)) (key : String) :
    property q key s = some (f.properties.get? key, s) := by
  have ht := h.target_eq hf (nesting - n - 1)
  rw [show n + (nesting - n - 1) + 1 = nesting by omega] at ht
  simp [property, ht]

theorem setProperty_of_stands (h : s.Stands k n q) (hn : n < nesting)
    (hf : s.components[k]? = some (.function f)) (key : String) (v : Json) :
    setProperty q key v s = some ((), { s with
      components := s.components.set k
        (.function { f with properties := f.properties.insert key v }) }) := by
  have ht := h.target_eq hf (nesting - n - 1)
  rw [show n + (nesting - n - 1) + 1 = nesting by omega] at ht
  simp [setProperty, ht, setComponent]

end Machine

end HotSwap
