import HotSwap.Proofs.Mount.Coherent
import HotSwap.Proofs.Program.Action
/-!
# What keeps a store coherent

Everything that a program does between edits does, whatever is pending. Most of its changes are mild;
the recomputation of a memo is not, and comes with the evaluator.
-/

namespace HotSwap

open Machine

namespace Store

variable {s t u : Store}

theorem Mild.of_same (hs : s.Steady t) (hn : t.nodes = s.nodes) (hc : t.components = s.components)
    (he : t.edges = s.edges) (hl : t.live = s.live) : s.Mild t where
  precedes := hs.toGrows.precedes
  cell h := hn ▸ h
  cell_of h := hn ▸ h
  proxy_of h := hc ▸ h
  memo_of {_ m} h := .inr ⟨m, hn ▸ h, rfl, rfl, id⟩
  live := hs.live
  subscribed _ _ _ h := he ▸ h
  held _ _ _ h := hl ▸ h

theorem Mild.set_node {n : NodeId} {x y : Node} (hx : s.nodes[n]? = some x)
    (hc : ∀ k, x ≠ .cell k) (hc' : ∀ k, y ≠ .cell k)
    (hm : ∀ m, x = .memo m → ∃ m', y = .memo m' ∧ m'.recipe = m.recipe)
    (hm' : ∀ m', y = .memo m' → ∃ m, x = .memo m ∧ m'.recipe = m.recipe ∧ m'.value = m.value ∧
      (m'.freshness = .clean → m.freshness = .clean)) :
    s.Mild { s with nodes := s.nodes.set n y } where
  precedes := (Steady.set_node hx hc hm).toGrows.precedes
  cell := (Steady.set_node hx hc hm).content
  cell_of {c k} h := by
    by_cases hn : n = c
    · subst hn
      rw [List.getElem?_set_self (List.getElem?_eq_some_iff.1 hx).1] at h
      exact absurd (Option.some.inj h) (hc' k)
    · rwa [List.getElem?_set_ne hn] at h
  proxy_of h := h
  memo_of {l m} h := by
    by_cases hn : n = l
    · subst hn
      rw [List.getElem?_set_self (List.getElem?_eq_some_iff.1 hx).1] at h
      obtain ⟨m₀, rfl, hm₀⟩ := hm' m (Option.some.inj h)
      exact .inr ⟨m₀, hx, hm₀⟩
    · rw [List.getElem?_set_ne hn] at h
      exact .inr ⟨m, h, rfl, rfl, id⟩
  live _ h := h
  subscribed _ _ _ h := h
  held _ _ _ h := h

theorem Mild.add_node {x : Node} (hs : s.Steady { s with
      nodes := s.nodes ++ [x], live := .node s.nodes.length :: s.live })
    (hc : ∀ k, x ≠ .cell k) (hm : ∀ m, x = .memo m → m.value = none ∧ s.Mountable m.recipe) :
    s.Mild { s with nodes := s.nodes ++ [x], live := .node s.nodes.length :: s.live } where
  precedes := hs.toGrows.precedes
  cell := hs.content
  cell_of {c k} h := by
    rcases Nat.lt_or_ge c s.nodes.length with hlt | hge
    · rwa [List.getElem?_append_left hlt] at h
    · rw [List.getElem?_append_right hge, List.getElem?_singleton] at h
      split at h
      · exact absurd (Option.some.inj h) (hc k)
      · cases h
  proxy_of h := h
  memo_of {n m} h := by
    rcases Nat.lt_or_ge n s.nodes.length with hlt | hge
    · rw [List.getElem?_append_left hlt] at h
      exact .inr ⟨m, h, rfl, rfl, id⟩
    · rw [List.getElem?_append_right hge, List.getElem?_singleton] at h
      split at h
      · exact .inl (hm m (Option.some.inj h))
      · cases h
  live := hs.live
  subscribed _ _ _ h := h
  held _ _ _ h := List.mem_cons_of_mem _ h

theorem Mild.of_edges {edges : Edges} (h : ∀ {n : NodeId} {m : Memo} {cell props scope},
    s.nodes[n]? = some (.memo m) → m.recipe = .mount cell props scope →
      n ∈ Edges.readers s.edges cell → n ∈ Edges.readers edges cell) :
    s.Mild { s with edges } where
  precedes := { Precedes.refl s with }
  cell h := h
  cell_of h := h
  proxy_of h := h
  memo_of {_ m} h := .inr ⟨m, h, rfl, rfl, id⟩
  live _ h := h
  subscribed hn hr _ hmem := h hn hr hmem
  held _ _ _ h := h

theorem Mild.collect (s : Store) : s.Mild s.collect where
  precedes := { Precedes.refl s with }
  cell h := h
  cell_of h := h
  proxy_of h := h
  memo_of {_ m} h := .inr ⟨m, h, rfl, rfl, id⟩
  live _ h := s.survivors_subset h
  subscribed _ _ hl hmem := s.mem_readers_collect hmem hl
  held {n n' m} hn hv hl hlive := by
    refine mem_live_collect (h := .node n) ?_ hlive hl
    have hn : s.nodes[n]? = some (.memo m) := hn
    simp [contents, hn, Node.handles, hv, Content.handles, View.handles, View.nodes]

variable (out : ComponentId → Json → String)

/-- A coherent store stays coherent, and mounted nodes stay subscribed. -/
structure Preserves (s t : Store) : Prop extends Steady s t where
  subscribed : ∀ {n : NodeId} {m : Memo} {cell props scope}, s.nodes[n]? = some (.memo m) →
    m.recipe = .mount cell props scope → .node n ∈ t.live →
    n ∈ Edges.readers s.edges cell → n ∈ Edges.readers t.edges cell
  coherent : ∀ {stood : Stood} {pending : NodeId → Prop}
    {past : Store → Prop}, Coherent out stood pending past s →
      ∃ past', (∀ a, past a → past' a) ∧ Coherent out stood pending past' t

variable {out}

theorem Mild.preserves (h : s.Mild t) (hs : s.Steady t) : Preserves out s t where
  toSteady := hs
  subscribed := h.subscribed
  coherent {_ _ past} hs := ⟨past, fun _ => id, hs.mild h⟩

theorem Preserves.of_same (hs : s.Steady t) (hn : t.nodes = s.nodes)
    (hc : t.components = s.components) (he : t.edges = s.edges) (hl : t.live = s.live) :
    Preserves out s t := (Mild.of_same hs hn hc he hl).preserves hs

theorem Preserves.refl (s : Store) : Preserves out s s := .of_same (.refl s) rfl rfl rfl rfl

theorem Preserves.trans ⦃s t u : Store⦄ (h : Preserves out s t) (h' : Preserves out t u) :
    Preserves out s u where
  toSteady := h.toSteady.trans h'.toSteady
  subscribed {n m cell props scope} hn hr hl hmem := by
    obtain ⟨m', hm', e⟩ := h.memo hn
    have hlt := (List.getElem?_eq_some_iff.1 hm').1
    exact h'.subscribed hm' (e.trans hr) hl (h.subscribed hn hr (h'.live hlt hl) hmem)
  coherent hs := by
    obtain ⟨past', hp, ht⟩ := h.coherent hs
    obtain ⟨past'', hp', hu⟩ := h'.coherent ht
    exact ⟨past'', fun a ha => hp' a (hp a ha), hu⟩

theorem Preserves.within {s' t' : Store} (h : Preserves out s' t') (hs : s.Steady t)
    (hn : s'.nodes = s.nodes) (hc : s'.components = s.components) (he : s'.edges = s.edges)
    (hl : s'.live = s.live) (hn' : t.nodes = t'.nodes) (hc' : t.components = t'.components)
    (he' : t.edges = t'.edges) (hl' : t.live = t'.live) : Preserves out s t where
  toSteady := hs
  subscribed hm hr hlive hmem := by
    rw [he']
    exact h.subscribed (hn ▸ hm) hr (hl' ▸ hlive) (he ▸ hmem)
  coherent hcoherent := by
    obtain ⟨past', hp, ht⟩ := h.coherent (hcoherent.congr hn hc he hl)
    exact ⟨past', hp, ht.congr hn' hc' he' hl'⟩

theorem accommodating_preserves (out : ComponentId → Json → String) :
    Accommodating (Preserves out) where
  refl := Preserves.refl
  trans := Preserves.trans
  emit s e := .of_same (indifferent_steady.emit s e) rfl rfl rfl rfl
  addMemo {s r} hr := by
    have hs := indifferent_steady.addMemo hr
    refine (Mild.add_node hs (by simp) ?_).preserves hs
    rintro m ⟨⟩
    exact ⟨rfl, hr⟩
  signal w h := (Mild.set_node h (by simp) (by simp) (by simp) (by simp)).preserves
    (indifferent_steady.signal w h)
  mark h := by
    refine (Mild.set_node h (by simp) (by simp) ?_ ?_).preserves (indifferent_steady.mark h)
    · rintro m ⟨⟩
      exact ⟨_, rfl, rfl⟩
    · rintro m ⟨⟩
      exact ⟨_, rfl, rfl, rfl, nofun⟩
  effect disposed runs dependencies h :=
    (Mild.set_node h (by simp) (by simp) (by simp) (by simp)).preserves
      (indifferent_steady.effect disposed runs dependencies h)
  track {s r sources rest} n h := by
    have hs := indifferent_steady.track n h
    have he : s.Mild { s with edges := Edges.subscribe s.edges n r } :=
      .of_edges fun _ _ => Edges.mem_readers_subscribe _ n
    exact (he.preserves { Steady.refl s with }).within hs rfl rfl rfl rfl rfl rfl rfl rfl
  unsubscribe {s n e} h := by
    refine (Mild.of_edges fun {l m} _ _ _ hl _ hmem => ?_).preserves (indifferent_steady.unsubscribe h)
    refine (Edges.mem_readers_unsubscribe _).2 ⟨hmem, ?_⟩
    rintro rfl
    simp [h] at hl
  collect s := (Mild.collect s).preserves (indifferent_steady.collect s)
  roots s hs := .of_same (indifferent_steady.roots s hs) rfl rfl rfl rfl
  frame r h := h.within (indifferent_steady.frame r h.toSteady) rfl rfl rfl rfl rfl rfl rfl rfl
  providing p h := h.within (indifferent_steady.providing p h.toSteady) rfl rfl rfl rfl rfl rfl rfl rfl
  scope p h := h.within (indifferent_steady.scope p h.toSteady) rfl rfl rfl rfl rfl rfl rfl rfl
  pinned hs h := h.within (indifferent_steady.pinned hs h.toSteady) rfl rfl rfl rfl rfl rfl rfl rfl
  addSignal s v := by
    have hs := accommodating_steady.addSignal s v
    exact (Mild.add_node hs (by simp) (by simp)).preserves hs
  addEffect s e := by
    have hs := accommodating_steady.addEffect s e
    exact (Mild.add_node hs (by simp) (by simp)).preserves hs
  addFunction s f := by
    have hs := accommodating_steady.addFunction s f
    refine Mild.preserves ⟨hs.toGrows.precedes, id, id, fun {k p} h => ?_,
      fun {_ m} h => .inr ⟨m, h, rfl, rfl, id⟩, hs.live, fun _ _ _ => id,
      fun _ _ _ h => List.mem_cons_of_mem _ h⟩ hs
    rcases Nat.lt_or_ge k s.components.length with hlt | hge
    · rwa [List.getElem?_append_left hlt] at h
    · rw [List.getElem?_append_right hge, List.getElem?_singleton] at h
      split at h <;> cases h
  contexts s contexts providers tokens :=
    .of_same (accommodating_steady.contexts s contexts providers tokens) rfl rfl rfl rfl
  dirty h := by
    refine (Mild.set_node h (by simp) (by simp) ?_ ?_).preserves (accommodating_steady.dirty h)
    · rintro m ⟨⟩
      exact ⟨_, rfl, rfl⟩
    · rintro m ⟨⟩
      exact ⟨_, rfl, rfl, rfl, nofun⟩
  properties {s k f} properties hk := by
    have hs := accommodating_steady.properties properties hk
    refine Mild.preserves ⟨hs.toGrows.precedes, id, id, fun {j p} h => ?_,
      fun {_ m} h => .inr ⟨m, h, rfl, rfl, id⟩, hs.live, fun _ _ _ => id, fun _ _ _ => id⟩ hs
    by_cases hj : k = j
    · subst hj
      rw [List.getElem?_set_self (List.getElem?_eq_some_iff.1 hk).1] at h
      cases h
    · rwa [List.getElem?_set_ne hj] at h

end Store

end HotSwap
