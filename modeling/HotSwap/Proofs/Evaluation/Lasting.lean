import HotSwap.Proofs.Evaluation.Steady
/-!
# What a node is for good

Signals stay signals, memos keep their recipes and effects their bodies, whatever is evaluated.
-/

namespace HotSwap

open Machine

/-- A node without what changes in it. -/
def Node.gist : Node → Node
  | .signal _ => .signal .null
  | .cell _ => .cell none
  | .memo m => .memo { recipe := m.recipe }
  | .effect e => .effect { name := e.name, body := e.body }
  | .probe name eager => .probe name eager
  | .observer => .observer

theorem Node.effect_of_gist {x : Node} {e : Effect} (h : (Node.effect e).gist = x.gist) :
    ∃ e', x = .effect e' ∧ e'.name = e.name ∧ e'.body = e.body := by
  cases x with
  | effect e' =>
    injection h with h
    injection h with hname hbody
    exact ⟨e', rfl, hname.symm, hbody.symm⟩
  | _ => cases h

namespace Store

structure Lasts (s t : Store) : Prop where
  node : ∀ {n : NodeId} {x : Node}, s.nodes[n]? = some x →
    ∃ y, t.nodes[n]? = some y ∧ y.gist = x.gist

theorem Lasts.refl (s : Store) : s.Lasts s := ⟨fun h => ⟨_, h, rfl⟩⟩

theorem Lasts.trans {s t u : Store} (h : s.Lasts t) (h' : t.Lasts u) : s.Lasts u := by
  constructor
  intro n x hx
  obtain ⟨y, hy, e⟩ := h.node hx
  obtain ⟨z, hz, e'⟩ := h'.node hy
  exact ⟨z, hz, e'.trans e⟩

theorem Lasts.set {s : Store} {n : NodeId} {x y : Node} (hx : s.nodes[n]? = some x)
    (hy : y.gist = x.gist) : s.Lasts { s with nodes := s.nodes.set n y } := by
  constructor
  intro k z hz
  by_cases hk : n = k
  · subst hk
    obtain rfl : x = z := by simpa [hx] using hz
    exact ⟨y, List.getElem?_set_self (List.getElem?_eq_some_iff.1 hx).1, hy⟩
  · exact ⟨z, (List.getElem?_set_ne hk).trans hz, rfl⟩

theorem Lasts.effect {s t : Store} (h : s.Lasts t) {n : NodeId} {e : Effect}
    (he : s.nodes[n]? = some (.effect e)) :
    ∃ e', t.nodes[n]? = some (.effect e') ∧ e'.name = e.name ∧ e'.body = e.body := by
  obtain ⟨y, hy, hgist⟩ := h.node he
  obtain ⟨e', rfl, hname, hbody⟩ := Node.effect_of_gist hgist.symm
  exact ⟨e', hy, hname, hbody⟩

theorem indifferent_lasts : Indifferent Lasts where
  refl := Lasts.refl
  trans _ _ _ := .trans
  emit s _ := { Lasts.refl s with }
  addMemo _ := ⟨fun h => ⟨_, getElem?_append_of_some h, rfl⟩⟩
  signal _ h := .set h rfl
  mark h := .set h rfl
  effect _ _ _ h := .set h rfl
  track _ _ := { Lasts.refl _ with }
  unsubscribe _ := { Lasts.refl _ with }
  collect s := { Lasts.refl s with }
  roots s _ := { Lasts.refl s with }
  frame _ h := { h with }
  providing _ h := { h with }
  scope _ h := { h with }
  pinned _ h := { h with }
  edges s _ := { Lasts.refl s with }
  settle _ h := .set h rfl

end Store

end HotSwap
