import HotSwap.Proofs.Subscription.Frames
/-!
# Nodes over an accurate store

A node changes its caches, or a cell what it holds; a node is added; and what nothing holds is let
go. What each of these steps makes of an accurate store is put together from what it makes of the
table, of what is held, and of what bodies may read.
-/

namespace HotSwap

open Machine

namespace Store

variable {s t u : Store} {n k : NodeId} {x y : Node}

theorem set_cases {z : Node} (hz : (s.nodes.set n y)[k]? = some z) :
    n = k ∧ z = y ∨ n ≠ k ∧ s.nodes[k]? = some z := by
  by_cases hk : n = k
  · subst hk
    have hlt : n < s.nodes.length := by simpa using (List.getElem?_eq_some_iff.1 hz).1
    rw [List.getElem?_set_self hlt] at hz
    exact .inl ⟨rfl, (Option.some.inj hz).symm⟩
  · rw [List.getElem?_set_ne hk] at hz
    exact .inr ⟨hk, hz⟩

theorem add_cases {α : Type} {as : List α} {a b : α} {k : Nat} (h : (as ++ [a])[k]? = some b) :
    k = as.length ∧ b = a ∨ k < as.length ∧ as[k]? = some b := by
  rcases Nat.lt_or_ge k as.length with hlt | hge
  · exact .inr ⟨hlt, by rwa [List.getElem?_append_left hlt] at h⟩
  · rw [List.getElem?_append_right hge, List.getElem?_singleton] at h
    split at h
    · exact .inl ⟨Nat.le_antisymm (Nat.sub_eq_zero_iff_le.1 ‹_›) hge, (Option.some.inj h).symm⟩
    · cases h

theorem handles_cell (j : Option ComponentId) :
    (Node.cell j).handles = (Content.component j).handles := by cases j <;> rfl

theorem mem_contents_node {a : Handle} :
    a ∈ s.contents (.node n) ↔ ∃ x, s.nodes[n]? = some x ∧ a ∈ x.handles := by
  cases hx : s.nodes[n]? with
  | none => simp [contents, hx]
  | some x => simp [contents, hx]

theorem mem_contents_component {a : Handle} {j : ComponentId} :
    a ∈ s.contents (.component j) ↔ ∃ c, s.components[j]? = some c ∧ a ∈ c.handles := by
  cases hc : s.components[j]? with
  | none => simp [contents, hc]
  | some c => simp [contents, hc]

theorem contents_set {a b : Handle}
    (hb : b ∈ { s with nodes := s.nodes.set n y }.contents a) :
    a = .node n ∧ b ∈ y.handles ∨ b ∈ s.contents a := by
  cases a with
  | node k =>
    obtain ⟨z, hz, hbz⟩ := mem_contents_node.1 hb
    rcases set_cases hz with ⟨rfl, rfl⟩ | ⟨_, hz⟩
    · exact .inl ⟨rfl, hbz⟩
    · exact .inr (mem_contents_node.2 ⟨z, hz, hbz⟩)
  | _ => exact .inr hb

theorem contents_add {a b : Handle} (hb : b ∈ { s with nodes := s.nodes ++ [x] }.contents a) :
    a = .node s.nodes.length ∧ b ∈ x.handles ∨ a ≠ .node s.nodes.length ∧ b ∈ s.contents a := by
  cases a with
  | node k =>
    obtain ⟨z, hz, hbz⟩ := mem_contents_node.1 hb
    rcases add_cases hz with ⟨rfl, rfl⟩ | ⟨hlt, hz⟩
    · exact .inl ⟨rfl, hbz⟩
    · refine .inr ⟨?_, mem_contents_node.2 ⟨z, hz, hbz⟩⟩
      rintro ⟨⟩
      exact Nat.lt_irrefl _ hlt
  | _ => exact .inr ⟨nofun, hb⟩

theorem contents_addComponent {a b : Handle} {c : Component}
    (hb : b ∈ { s with components := s.components ++ [c] }.contents a) :
    a = .component s.components.length ∧ b ∈ c.handles ∨
      a ≠ .component s.components.length ∧ b ∈ s.contents a := by
  cases a with
  | component k =>
    obtain ⟨z, hz, hbz⟩ := mem_contents_component.1 hb
    rcases add_cases hz with ⟨rfl, rfl⟩ | ⟨hlt, hz⟩
    · exact .inl ⟨rfl, hbz⟩
    · refine .inr ⟨?_, mem_contents_component.2 ⟨z, hz, hbz⟩⟩
      rintro ⟨⟩
      exact Nat.lt_irrefl _ hlt
  | _ => exact .inr ⟨nofun, hb⟩

theorem gist_before {z : Node} (hx : s.nodes[n]? = some x) (hy : y.gist = x.gist)
    (hz : (s.nodes.set n y)[k]? = some z) : ∃ z', s.nodes[k]? = some z' ∧ z.gist = z'.gist := by
  rcases set_cases hz with ⟨rfl, rfl⟩ | ⟨_, hz⟩
  · exact ⟨x, hx, hy⟩
  · exact ⟨z, hz, rfl⟩

theorem Holding.replace (h : s.Holding) (hx : s.nodes[n]? = some x) (hy : y.gist = x.gist)
    (hheld : ∀ a ∈ y.handles, a ∈ x.handles ∨ a ∈ s.live ∧ s.Passive a) :
    { s with nodes := s.nodes.set n y }.Holding := by
  have hlasts : s.Lasts { s with nodes := s.nodes.set n y } := .set hx hy
  have hcontents : ∀ a ∈ s.live, ∀ b ∈ { s with nodes := s.nodes.set n y }.contents a,
      b ∈ s.live ∧ s.Passive b := by
    intro a ha b hb
    have hold (hb : b ∈ s.contents a) := And.intro (h.closed a ha b hb) (h.passive a ha b hb)
    rcases contents_set hb with ⟨rfl, hby⟩ | hb
    · rcases hheld b hby with hbx | hnew
      · exact hold (mem_contents_node.2 ⟨x, hx, hbx⟩)
      · exact hnew
    · exact hold hb
  refine { h with
    closed := fun a ha b hb => (hcontents a ha b hb).1
    passive := fun a ha b hb => hlasts.passive (hcontents a ha b hb).2
    pinned := fun a ha => hlasts.passive (h.pinned a ha)
    owned := ?_ }
  intro k e hk hl
  obtain ⟨z, hz, hgist⟩ := gist_before hx hy hk
  obtain ⟨_, rfl, _⟩ := Node.effect_of_gist hgist
  exact h.owned hz hl

theorem Fitting.replace (h : s.Fitting) (hx : s.nodes[n]? = some x) (hy : y.gist = x.gist) :
    { s with nodes := s.nodes.set n y }.Fitting where
  node hz := by
    obtain ⟨z, hz, hgist⟩ := gist_before hx hy hz
    exact ((h.node hz).gist hgist).lasts (.set hx hy)
  component hk := (h.component hk).lasts (.set hx hy)

theorem Accurate.replace {edges : Edges} (h : s.Accurate) (hx : s.nodes[n]? = some x)
    (hy : y.gist = x.gist) (hc : y.Computes → x.Computes) (hlisted : Edges.Listed edges)
    (hedges : ∀ k m, k ∈ Edges.readers edges m ↔
      k ∈ Edges.readers s.edges m ∧ (k = n → y.Computes))
    (hcount : n ∉ s.running → ∀ e, y = .effect e → e.dependencies = (s.lastRun n).dedup.length)
    (hheld : ∀ a ∈ y.handles, a ∈ x.handles ∨ a ∈ s.live ∧ s.Passive a)
    (hactive : ∀ k ∈ s.running, { s with nodes := s.nodes.set n y, edges }.Anchored (.node k) ∧
      { s with nodes := s.nodes.set n y, edges }.Computes k) :
    { s with nodes := s.nodes.set n y, edges }.Accurate := by
  have hlasts : s.Lasts { s with nodes := s.nodes.set n y, edges } := { Lasts.set hx hy with }
  have hself : (s.nodes.set n y)[n]? = some y :=
    List.getElem?_set_self (List.getElem?_eq_some_iff.1 hx).1
  -- who still computes is listed as before
  have hkept {k : NodeId} (hk : { s with nodes := s.nodes.set n y, edges }.Computes k)
      (m : NodeId) : s.Computes k ∧ (k ∈ Edges.readers edges m ↔ k ∈ Edges.readers s.edges m) := by
    obtain ⟨z, hz, hzc⟩ := hk
    rcases set_cases hz with ⟨rfl, rfl⟩ | ⟨hne, hz⟩
    · exact ⟨⟨x, hx, hc hzc⟩, (hedges n m).trans (and_iff_left fun _ => hzc)⟩
    · exact ⟨⟨z, hz, hzc⟩, (hedges k m).trans (and_iff_left fun e => absurd e.symm hne)⟩
  refine { h.toHolding.replace hx hy hheld, h.toFitting.replace hx hy, h with
    listed := hlisted, member := ?_, settled := ?_, counted := ?_, idle := ?_
    current := fun hk m => (hkept (hactive _ (mem_running hk)).2 m).2.trans (h.current hk m)
    past := by simpa using h.past
    active := hactive }
  · intro k m hk
    obtain ⟨hk, hn⟩ := (hedges k m).1 hk
    obtain ⟨hl, z, hz, hzc⟩ := h.member hk
    refine ⟨hl, ?_⟩
    by_cases hkn : k = n
    · exact ⟨y, hkn ▸ hself, hn hkn⟩
    · exact ⟨z, (List.getElem?_set_ne (Ne.symm hkn)).trans hz, hzc⟩
  · intro k hk hl hcomputes m
    obtain ⟨hold, hlist⟩ := hkept hcomputes m
    obtain ⟨z, hz, _⟩ := id hold
    rw [hlist, hlasts.lastRun rfl hz]
    exact h.settled hk hl hold m
  · intro k e hk hrun
    rcases set_cases hk with ⟨rfl, he⟩ | ⟨_, hk⟩
    · rw [hlasts.lastRun rfl hx]
      exact hcount hrun e he.symm
    · rw [hlasts.lastRun rfl hk]
      exact h.counted hk hrun
  · intro k z hz ht hk
    obtain ⟨z', hz', hgist⟩ := gist_before hx hy hz
    exact h.idle hz' ((Node.tells_congr hgist).1 ht) hk

theorem Accurate.set (h : s.Accurate) (hx : s.nodes[n]? = some x) (hy : y.role = x.role)
    (hcount : n ∉ s.running → ∀ e, y = .effect e → e.dependencies = (s.lastRun n).dedup.length)
    (hheld : ∀ a ∈ y.handles, a ∈ x.handles ∨ a ∈ s.live ∧ s.Passive a) :
    { s with nodes := s.nodes.set n y }.Accurate := by
  refine h.replace hx (Node.gist_congr hy) (Node.computes_congr hy).1 h.listed (fun k m => ?_)
    hcount hheld (h.actives (.set hx hy) (List.Subset.refl _))
  refine (and_iff_left_of_imp fun hk => ?_).symm
  rintro rfl
  obtain ⟨_, z, hz, hzc⟩ := h.member hk
  cases hx.symm.trans hz
  exact (Node.computes_congr hy).2 hzc

def grown (s : Store) (x : Node) (roots : List Handle) : Store :=
  { s with nodes := s.nodes ++ [x], live := .node s.nodes.length :: s.live, roots }

theorem Retains.grown (s : Store) (x : Node) {roots : List Handle} (h : s.roots ⊆ roots) :
    s.Retains (s.grown x roots) :=
  { Retains.add s x (.node s.nodes.length :: s.live) with roots := h }

theorem mem_live_grown {roots : List Handle} (hl : .node k ∈ (s.grown x roots).live)
    (hk : k < s.nodes.length) : .node k ∈ s.live := by
  simpa [Store.grown, Nat.ne_of_lt hk] using hl

theorem Table.add (h : s.Table) {roots : List Handle} (hr : s.Retains (s.grown x roots))
    (hcount : ∀ e, x = .effect e → e.dependencies = 0) : (s.grown x roots).Table := by
  have hfresh {k : NodeId} (hk : k = s.nodes.length) : ∀ e ∈ s.trace, e.actor ≠ some k :=
    fun e he ha => Nat.lt_irrefl _ (hk ▸ h.past e he k ha)
  have hnil {k : NodeId} {z : Node} (hz : (s.grown x roots).nodes[k]? = some z)
      (hk : k = s.nodes.length) : (s.grown x roots).lastRun k = [] := by
    rw [lastRun_of_node hz]
    exact lastRun_eq_nil (hfresh hk) z
  refine { h with
    member := fun hk => ⟨List.mem_cons_of_mem _ (h.member hk).1, hr.computes (h.member hk).2⟩
    settled := ?_, counted := ?_, idle := ?_
    past := fun e he k ha => Nat.lt_of_lt_of_le (h.past e he k ha) (by simp [Store.grown]) }
  · rintro k hk hl ⟨z, hz, hc⟩ m
    rcases add_cases hz with ⟨hkn, rfl⟩ | ⟨hlt, hz'⟩
    · have hnone : k ∉ Edges.readers s.edges m := by
        intro hm
        obtain ⟨_, w, hw, _⟩ := h.member hm
        exact Nat.lt_irrefl _ (hkn ▸ (List.getElem?_eq_some_iff.1 hw).1)
      rw [hnil hz hkn]
      simpa [Store.grown] using hnone
    · rw [hr.lasts.lastRun rfl hz']
      exact h.settled hk (mem_live_grown hl hlt) ⟨z, hz', hc⟩ m
  · intro k e hk hrun
    rcases add_cases hk with ⟨hkn, he⟩ | ⟨_, hk'⟩
    · rw [hnil hk hkn, hcount e he.symm]
      rfl
    · rw [hr.lasts.lastRun rfl hk']
      exact h.counted hk' hrun
  · intro k z hz ht hk
    rcases add_cases hz with ⟨hkn, _⟩ | ⟨_, hz⟩
    · exact readsOf_eq_nil fun e he => hfresh hkn e (List.takeWhile_subset _ he)
    · exact h.idle hz ht hk

theorem Holding.add (h : s.Holding) {roots : List Handle} (hr : s.Retains (s.grown x roots))
    (hheld : ∀ a ∈ x.handles, a ∈ s.live ∧ s.Passive a)
    (hlive : ∀ a ∈ roots, a = .node s.nodes.length ∨ a ∈ s.live)
    (heffect : ∀ e, x = .effect e → .node s.nodes.length ∈ roots) :
    (s.grown x roots).Holding := by
  have hcontents : ∀ a ∈ (s.grown x roots).live, ∀ b ∈ (s.grown x roots).contents a,
      b ∈ s.live ∧ s.Passive b := by
    intro a ha b hb
    rcases contents_add hb with ⟨_, hb⟩ | ⟨hne, hb⟩
    · exact hheld b hb
    · have ha : a ∈ s.live := (List.mem_cons.1 ha).resolve_left hne
      exact ⟨h.closed a ha b hb, h.passive a ha b hb⟩
  constructor
  · intro a ha
    rcases List.mem_append.1 ha with ha | ha
    · exact List.mem_cons.2 (hlive a ha)
    · exact List.mem_cons_of_mem _ (h.held a (List.mem_append_right _ ha))
  · exact fun a ha b hb => List.mem_cons_of_mem _ (hcontents a ha b hb).1
  · exact fun a ha b hb => hr.lasts.passive (hcontents a ha b hb).2
  · exact fun a ha => hr.lasts.passive (h.pinned a ha)
  · intro k e hk hl
    rcases add_cases hk with ⟨rfl, he⟩ | ⟨hlt, hk⟩
    · exact heffect e he.symm
    · exact hr.roots (h.owned hk (mem_live_grown hl hlt))

theorem Fitting.add (h : s.Fitting) {roots : List Handle} (hl : s.Lasts (s.grown x roots))
    (hx : x.Tame s s.nodes.length) : (s.grown x roots).Fitting where
  node hz := by
    rcases add_cases hz with ⟨rfl, rfl⟩ | ⟨_, hz⟩
    · exact hx.lasts hl
    · exact (h.node hz).lasts hl
  component hk := (h.component hk).lasts hl

theorem Accurate.add (h : s.Accurate) {roots : List Handle} (hx : x.Tame s s.nodes.length)
    (hheld : ∀ a ∈ x.handles, a ∈ s.live ∧ s.Passive a) (hroots : s.roots ⊆ roots)
    (hlive : ∀ a ∈ roots, a = .node s.nodes.length ∨ a ∈ s.live)
    (heffect : ∀ e, x = .effect e → .node s.nodes.length ∈ roots ∧ e.dependencies = 0) :
    (s.grown x roots).Accurate := by
  have hr := Retains.grown s x hroots
  exact { h.toTable.add hr fun e he => (heffect e he).2,
    h.toHolding.add hr hheld hlive fun e he => (heffect e he).1,
    h.toFitting.add hr.lasts hx with
    active := h.actives hr (List.Subset.refl _) }

section Dropped

variable {roots : List Handle}

theorem Holding.held_of_subset (h : s.Holding) (hroots : roots ⊆ s.roots) :
    ∀ a ∈ roots ++ s.pinned, a ∈ s.live := by
  intro a ha
  rcases List.mem_append.1 ha with ha | ha
  · exact h.held a (List.mem_append_left _ (hroots ha))
  · exact h.held a (List.mem_append_right _ ha)

/-- What is still anchored outlives the handles that are given back. -/
theorem Anchored.survives (h : s.Holding) (hroots : roots ⊆ s.roots) {a : Handle}
    (ha : { s with roots }.Anchored a) : a ∈ { s with roots }.survivors := by
  apply ha.mem
  · exact fun b hb => mem_settle_of_held hb _ (h.held_of_subset hroots b hb)
  · intro b hb c hc
    have hc : c ∈ { s with roots }.contents b := binds_subset _ b hc
    exact mem_settle hc _ (h.closed b ({ s with roots }.survivors_subset hb) c hc) hb

theorem Holding.dropped (h : s.Holding) (hroots : roots ⊆ s.roots) :
    { s with roots }.collect.Holding := by
  have hsub := { s with roots }.survivors_subset
  constructor
  · exact fun a ha => mem_settle_of_held (s := { s with roots }) ha s.live.length
      (h.held_of_subset hroots a ha)
  · exact fun a ha b hb => mem_live_collect hb (h.closed a (hsub ha) b hb) ha
  · exact fun a ha => h.passive a (hsub ha)
  · exact h.pinned
  · intro k e hk hl
    -- nothing but the outside holds an effect
    have hnot : ¬s.Passive (.node k) := not_passive_of_effect hk
    rcases held_of_mem_survivors (s := { s with roots }) hl with ha | ⟨a, ha, hka⟩
    · rcases List.mem_append.1 ha with ha | ha
      · exact ha
      · exact absurd (h.pinned _ ha) hnot
    · exact absurd (h.passive a (hsub ha) _ hka) hnot

theorem Table.dropped (h : s.Table)
    (hactive : ∀ k ∈ s.running, .node k ∈ { s with roots }.survivors) :
    { s with roots }.collect.Table := by
  have hmem {k n : NodeId} : k ∈ Edges.readers { s with roots }.collect.edges n ↔
      k ∈ Edges.readers s.edges n ∧ k ∉ lost s.live { s with roots }.survivors :=
    Edges.mem_readers_unsubscribeAll _ _
  have hlost {k : NodeId} (hk : .node k ∈ { s with roots }.survivors) :
      k ∉ lost s.live { s with roots }.survivors := fun hm => (mem_lost.1 hm).2 hk
  refine { h with
    listed := Edges.Listed.unsubscribeAll _ h.listed
    member := ?_, current := ?_, settled := ?_ }
  · intro k n hk
    obtain ⟨hk, hl⟩ := hmem.1 hk
    refine ⟨?_, (h.member hk).2⟩
    by_contra hn
    exact hl (mem_lost.2 ⟨(h.member hk).1, hn⟩)
  · intro k xs hk n
    rw [hmem, and_iff_left (hlost (hactive k (mem_running hk)))]
    exact h.current hk n
  · intro k hk hl hc n
    rw [hmem, and_iff_left (hlost hl)]
    exact h.settled hk ({ s with roots }.survivors_subset hl) hc n

theorem Accurate.dropped (h : s.Accurate) (hroots : roots ⊆ s.roots)
    (hactive : ∀ k ∈ s.running, { s with roots }.Anchored (.node k)) :
    { s with roots }.collect.Accurate := by
  have hr : { s with roots }.Retains { s with roots }.collect := { Retains.refl _ with }
  exact { h.toTable.dropped fun k hk => (hactive k hk).survives h.toHolding hroots,
    h.toHolding.dropped hroots, h.toFitting with
    active := fun k hk => ⟨hr.anchored (hactive k hk), hr.computes (h.active k hk).2⟩ }

end Dropped

theorem Accurate.collect (h : s.Accurate) : s.collect.Accurate :=
  h.dropped (List.Subset.refl _) fun k hk => (h.active k hk).1

theorem Accurate.pin (h : s.Accurate) {hs : List Handle}
    (hh : ∀ a ∈ hs, a ∈ s.live ∧ s.Passive a) : { s with pinned := hs ++ s.pinned }.Accurate := by
  have hr : s.Retains { s with pinned := hs ++ s.pinned } :=
    { Retains.refl s with pinned := List.subset_append_right _ _ }
  refine { h with
    held := ?_, pinned := ?_, active := h.actives hr (List.Subset.refl _) }
  · intro a ha
    simp only [List.mem_append] at ha
    rcases ha with ha | ha | ha
    · exact h.held a (List.mem_append_left _ ha)
    · exact (hh a ha).1
    · exact h.held a (List.mem_append_right _ ha)
  · intro a ha
    exact (List.mem_append.1 ha).elim (fun ha => (hh a ha).2) (h.pinned a)

theorem Accurate.unpin (h : s.Accurate) {hs : List Handle} (hh : hs ⊆ s.pinned)
    (hactive : ∀ k ∈ s.running, { s with pinned := hs }.Anchored (.node k)) :
    { s with pinned := hs }.Accurate := by
  refine { h with
    held := ?_, pinned := fun a ha => h.pinned a (hh ha)
    active := fun k hk => ⟨hactive k hk, (h.active k hk).2⟩ }
  intro a ha
  rcases List.mem_append.1 ha with ha | ha
  · exact h.held a (List.mem_append_left _ ha)
  · exact h.held a (List.mem_append_right _ (hh ha))

end Store

end HotSwap
