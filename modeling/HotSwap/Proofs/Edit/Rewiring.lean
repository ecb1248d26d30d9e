import HotSwap.Proofs.Program.Action
import HotSwap.Registry.Patch
/-!
# Rewiring

What patching does to the cells: each cell's content changes by a function of the cell, and nothing
else that a proxy relies on changes.
-/

namespace HotSwap

open Machine

/-- How the content of each cell changes. -/
abbrev Rewiring := NodeId → Option ComponentId → Option ComponentId

def Rewiring.point (cell : NodeId) (k : ComponentId) : Rewiring :=
  fun n old => if n = cell then some k else old

def Rewiring.comp (g f : Rewiring) : Rewiring := fun n k => g n (f n k)

namespace Store

/-- The cells of `t` hold what `f` makes of those of `s`. -/
structure Rewired (f : Rewiring) (s t : Store) : Prop extends Grows s t where
  content : ∀ {n : NodeId} {k : Option ComponentId}, s.nodes[n]? = some (.cell k) →
    t.nodes[n]? = some (.cell (f n k))
  registries : t.registries = s.registries
  data : t.data = s.data
  hosts : t.hosts = s.hosts

variable {s t u : Store} {f g : Rewiring}

theorem Steady.rewired (h : s.Steady t) : Rewired (fun _ k => k) s t := { h with }

theorem Rewired.congr (h : Rewired f s t) (e : ∀ n k, f n k = g n k) : Rewired g s t where
  toGrows := h.toGrows
  content hn := by rw [h.content hn, e]
  registries := h.registries
  data := h.data
  hosts := h.hosts

theorem Rewired.trans (h : Rewired f s t) (h' : Rewired g t u) : Rewired (g.comp f) s u where
  toGrows := h.toGrows.trans h'.toGrows
  content hn := h'.content (h.content hn)
  registries := h'.registries.trans h.registries
  data := h'.data.trans h.data
  hosts := h'.hosts.trans h.hosts

theorem Rewired.set_cell {cell : NodeId} {old : Option ComponentId}
    (h : s.nodes[cell]? = some (.cell old)) (k : ComponentId) :
    Rewired (.point cell k) s { s with nodes := s.nodes.set cell (.cell (some k)) } where
  nodes := by simp
  proxy := id
  function h := ⟨_, h, .refl _⟩
  cell {n j} hn := by
    by_cases hc : cell = n
    · subst hc
      exact ⟨_, List.getElem?_set_self (List.getElem?_eq_some_iff.1 hn).1⟩
    · exact ⟨j, by rw [List.getElem?_set_ne hc, hn]⟩
  memo {n m} hn := by
    have hc : cell ≠ n := by
      rintro rfl
      simp [h] at hn
    exact ⟨m, by rw [List.getElem?_set_ne hc, hn], rfl⟩
  readers := rfl
  live _ := id
  content {n j} hn := by
    by_cases hc : cell = n
    · subst hc
      rw [Rewiring.point, if_pos rfl, List.getElem?_set_self (List.getElem?_eq_some_iff.1 hn).1]
    · simpa [Rewiring.point, Ne.symm hc, List.getElem?_set_ne hc] using hn
  registries := rfl
  data := rfl
  hosts := rfl

def Celled (s : Store) (r : Registration) : Prop := ∃ k, s.nodes[r.cell]? = some (.cell k)

theorem Grows.celled (h : s.Grows t) {r : Registration} : s.Celled r → t.Celled r :=
  fun ⟨_, hk⟩ => h.cell hk

end Store

namespace Machine

theorem redirect_rewired {r : Registration} {k : ComponentId} {s t : Store} (hr : s.Celled r)
    (h : redirect r k s = some ((), t)) : Store.Rewired (.point r.cell k) s t := by
  obtain ⟨old, hold⟩ := hr
  obtain ⟨_, u, hu, h⟩ := bind_eq_some.1 h
  cases hu
  obtain ⟨_, v, hv, h⟩ := bind_eq_some.1 h
  cases hv
  have hcollect := indifferent_steady.collect
    { s with nodes := s.nodes.set r.cell (.cell (some k)) }
  have hnotify := (topCalls_steady.notify r.cell _ h).2
  exact (Store.Rewired.set_cell hold k).trans (hcollect.trans hnotify).rewired

end Machine

end HotSwap
