import HotSwap.Proofs.Redraw.Shown
/-!
# Nodes on show

Over some cells stand nodes, each shown by an effect of its own. Between two changes every node is
clean and read by its effect alone, and a cell is read by the nodes over it, in an order that a node
leaves and joins again at the end each time it is computed.
-/

namespace HotSwap

open Machine Store

namespace Store

variable {reader source x n : NodeId} {rs : List NodeId}

theorem relink_of_ne (hx : x ≠ source) (hr : reader ∉ rs) : relink reader source x rs = rs := by
  rw [relink, if_neg hx, filter_ne_of_notMem hr]

theorem relink_self (reader source : NodeId) (rs : List NodeId) :
    relink reader source source rs = rs.filter (fun r => decide (r ≠ reader)) ++ [reader] := if_pos rfl

theorem mem_relink : n ∈ relink reader source x rs → n ∈ rs ∨ n = reader ∧ x = source := by
  unfold relink
  intro h
  split at h
  · rcases List.mem_append.1 h with h | h
    · exact .inl (List.mem_filter.1 h).1
    · exact .inr ⟨List.mem_singleton.1 h, ‹_›⟩
  · exact .inl (List.mem_filter.1 h).1

theorem nodup_relink (reader source x : NodeId) (h : rs.Nodup) :
    (relink reader source x rs).Nodup := by
  unfold relink
  split
  · refine List.nodup_append.2 ⟨h.filter _, by simp, ?_⟩
    rintro a ha b hb rfl
    exact of_decide_eq_true (List.mem_filter.1 ha).2 (List.mem_singleton.1 hb)
  · exact h.filter _

end Store

namespace Mounting

variable {m m' : Mounting} {K : ComponentId → Prop} {s t b : Store} {k : ComponentId} {v : View}
  {es : List Event} {n : NodeId}

theorem Stands.kept (h : m.Stands s) (fast : ∀ {n : NodeId}, s.Fast n → t.Fast n)
    (roots : s.roots ⊆ t.roots)
    (memo : ∀ μ, s.nodes[m.node]? = some (.memo μ) →
      ∃ μ', t.nodes[m.node]? = some (.memo μ') ∧ μ'.recipe = μ.recipe)
    (effect : ∀ e, s.nodes[m.effect]? = some (.effect e) →
      ∃ e', t.nodes[m.effect]? = some (.effect e') ∧
        e'.name = e.name ∧ e'.body = e.body ∧ e'.disposed = e.disposed) : m.Stands t where
  memo := by
    obtain ⟨μ, hμ, hr⟩ := h.memo
    obtain ⟨μ', hμ', hr'⟩ := memo μ hμ
    exact ⟨μ', hμ', hr'.trans hr⟩
  effect := by
    obtain ⟨e, he, hname, hbody, hd⟩ := h.effect
    obtain ⟨e', he', hname', hbody', hd'⟩ := effect e he
    exact ⟨e', he', hname'.trans hname, hbody'.trans hbody, hd'.trans hd⟩
  root := roots h.root
  effectLive := (fast h.fast_effect).1
  nodeLive := (fast h.fast_node).1

namespace Shown

theorem length (h : m.Shown k v es s t) : t.nodes.length = s.nodes.length := by
  obtain ⟨μ, e, -, -, ht⟩ := h.same
  rw [ht, List.length_set, List.length_set]

theorem other (h : m.Shown k v es s t) (hn : n ≠ m.node) (he : n ≠ m.effect) :
    t.nodes[n]? = s.nodes[n]? := by
  obtain ⟨μ, e, -, -, ht⟩ := h.same
  rw [ht, List.getElem?_set_ne he.symm, List.getElem?_set_ne hn.symm]

theorem node (h : m.Shown k v es s t) (hs : m.Stands s) :
    ∃ μ, s.nodes[m.node]? = some (.memo μ) ∧
      t.nodes[m.node]? = some (.memo { μ with value := some (.view v), freshness := .clean }) := by
  obtain ⟨μ, e, hμ, he, ht⟩ := h.same
  refine ⟨μ, hμ, ?_⟩
  rw [ht, List.getElem?_set_ne hs.ne.symm,
    List.getElem?_set_self (List.getElem?_eq_some_iff.1 hμ).1]

theorem effect (h : m.Shown k v es s t) :
    ∃ e, s.nodes[m.effect]? = some (.effect e) ∧
      t.nodes[m.effect]? = some (.effect { e with runs := e.runs + 1, dependencies := 1 }) := by
  obtain ⟨μ, e, hμ, he, ht⟩ := h.same
  refine ⟨e, he, ?_⟩
  rw [ht, List.getElem?_set_self]
  rw [List.length_set]
  exact (List.getElem?_eq_some_iff.1 he).1

theorem memo (h : m.Shown k v es s t) (hs : m.Stands s) {μ : Memo}
    (hn : s.nodes[n]? = some (.memo μ)) (hne : n ≠ m.node) : t.nodes[n]? = some (.memo μ) := by
  obtain ⟨e, he, -⟩ := hs.effect
  refine (h.other hne ?_).trans hn
  rintro rfl
  simp [he] at hn

theorem cell (h : m.Shown k v es s t) (hs : m.Stands s) {c : Option ComponentId}
    (hn : s.nodes[n]? = some (.cell c)) : t.nodes[n]? = some (.cell c) :=
  (h.other (hs.ne_cell hn).1.symm (hs.ne_cell hn).2.symm).trans hn

theorem stands (h : m.Shown k v es s t) (hs : m.Stands s) (hm' : m'.Stands s) : m'.Stands t := by
  obtain ⟨μ, hμ, hnode⟩ := h.node hs
  obtain ⟨e, he, heffect⟩ := h.effect
  have hroots : t.roots = s.roots := by
    obtain ⟨_, _, -, -, ht⟩ := h.same
    rw [ht]
  refine hm'.kept h.rewires.fast (hroots ▸ List.Subset.refl _) (fun μ' hμ' => ?_) fun e' he' => ?_
  · by_cases hn : m'.node = m.node
    · rw [hn] at hμ' ⊢
      obtain rfl : μ = μ' := by simpa [hμ] using hμ'
      exact ⟨_, hnode, rfl⟩
    · exact ⟨μ', h.memo hs hμ' hn, rfl⟩
  · by_cases hn : m'.effect = m.effect
    · rw [hn] at he' ⊢
      obtain rfl : e = e' := by simpa [he] using he'
      exact ⟨_, heffect, rfl, rfl, rfl⟩
    · exact ⟨e', (h.other (hs.node_ne_effect hm').symm hn).trans he', rfl, rfl, rfl⟩

theorem readers_node (h : m.Shown k v es s t) (hs : m.Stands s) (hne : m.node ≠ m.cell)
    (hr : ∀ r ∈ Edges.readers s.edges m.node, r = m.effect) :
    Edges.readers t.edges m.node = [m.effect] := by
  have hleft : (Edges.readers s.edges m.node).filter (fun r => decide (r ≠ m.effect)) = [] := by
    simpa [List.filter_eq_nil_iff] using hr
  rw [(h.rewires.readers fun r hmem => hr r hmem ▸ hs.fast_effect).1, Function.comp_apply,
    relink_self, hleft, List.nil_append, relink_of_ne hne (by simpa using hs.ne)]

theorem readers_other (h : m.Shown k v es s t) (hn : n ≠ m.node)
    (fast : ∀ r ∈ Edges.readers s.edges n, s.Fast r) (he : m.effect ∉ Edges.readers s.edges n) :
    Edges.readers t.edges n = relink m.node m.cell n (Edges.readers s.edges n) := by
  rw [(h.rewires.readers fast).1, Function.comp_apply, relink_of_ne hn he]

theorem readers_apart (h : m.Shown k v es s t) (hs : m.Stands s) (hm' : m'.Stands s)
    {c : Option ComponentId} (hcell : s.nodes[m.cell]? = some (.cell c))
    (hne : m'.node ≠ m.node ∧ m'.effect ≠ m.effect)
    (hr : Edges.readers s.edges m'.node = [m'.effect]) :
    Edges.readers t.edges m'.node = [m'.effect] := by
  rw [h.readers_other hne.1, hr, relink_of_ne (hm'.ne_cell hcell).1]
  · simpa using hs.node_ne_effect hm'
  · intro r hmem
    rw [hr, List.mem_singleton] at hmem
    exact hmem ▸ hm'.fast_effect
  · simpa [hr] using hne.2.symm

end Shown

end Mounting

/-- In the cells of `C` stand components of `K`, `ms` are the nodes over them that are on show, and
`order` lists the readers of each cell. -/
structure Store.Exhibits (C : NodeId → Prop) (K : ComponentId → Prop) (ms : List Mounting)
    (order : NodeId → List NodeId) (s : Store) : Prop where
  static : s.Static K
  cell : ∀ c, C c → ∃ k, K k ∧ s.nodes[c]? = some (.cell (some k))
  stands : ∀ m ∈ ms, C m.cell ∧ m.Stands s
  clean : ∀ m ∈ ms, ∃ μ, s.nodes[m.node]? = some (.memo μ) ∧ μ.freshness = .clean
  shown : ∀ m ∈ ms, Edges.readers s.edges m.node = [m.effect]
  readers : ∀ c, C c → Edges.readers s.edges c = order c
  known : ∀ c n, n ∈ order c → ∃ m ∈ ms, m.node = n ∧ m.cell = c
  nodup : ∀ c, (order c).Nodup
  apart : ∀ m ∈ ms, ∀ m' ∈ ms, m ≠ m' → m.node ≠ m'.node ∧ m.effect ≠ m'.effect
  unborn : ∀ n, s.nodes.length ≤ n → Edges.readers s.edges n = []

namespace Store.Exhibits

variable {C : NodeId → Prop} {K : ComponentId → Prop} {ms ms' : List Mounting}
  {order : NodeId → List NodeId} {s t : Store} {m : Mounting} {k : ComponentId} {v : View}
  {es : List Event}

theorem fast (h : s.Exhibits C K ms order) {c r : NodeId} (hr : r ∈ order c) : s.Fast r := by
  obtain ⟨m, hm, rfl, -⟩ := h.known c r hr
  exact (h.stands m hm).2.fast_node

theorem effect_notMem (h : s.Exhibits C K ms order) (hm : m.Stands s) (c : NodeId) :
    m.effect ∉ order c := by
  intro hmem
  obtain ⟨m', hm', heq, -⟩ := h.known c _ hmem
  exact (h.stands m' hm').2.node_ne_effect hm heq

theorem readers_shown (h : s.Exhibits C K ms order) (hm : m.Stands s) (hs : m.Shown k v es s t)
    {c : NodeId} (hc : C c) :
    Edges.readers t.edges c = relink m.node m.cell c (order c) := by
  obtain ⟨i, -, hi⟩ := h.cell c hc
  have hr := h.readers c hc
  have hfast : ∀ r ∈ Edges.readers s.edges c, s.Fast r := fun r hmem => h.fast (hr ▸ hmem)
  rw [hs.readers_other (hm.ne_cell hi).1.symm hfast (hr ▸ h.effect_notMem hm c), hr]

theorem unborn_shown (h : s.Exhibits C K ms order) (hC : C m.cell) (hm : m.Stands s)
    (hs : m.Shown k v es s t) {n : NodeId} (hn : t.nodes.length ≤ n) :
    Edges.readers t.edges n = [] := by
  obtain ⟨j, -, hcell⟩ := h.cell _ hC
  obtain ⟨μ, hμ, -⟩ := hm.memo
  rw [hs.length] at hn
  have hnil := h.unborn n hn
  have lt {l : NodeId} {x : Node} (hl : s.nodes[l]? = some x) : n ≠ l :=
    Nat.ne_of_gt (Nat.lt_of_lt_of_le (List.getElem?_eq_some_iff.1 hl).1 hn)
  rw [hs.readers_other (lt hμ) (by simp [hnil]) (by simp [hnil]), hnil,
    relink_of_ne (lt hcell) (by simp)]

theorem apart_insert (h : s.Exhibits C K ms order)
    (hapart : ∀ m' ∈ ms, m' ≠ m → m'.node ≠ m.node ∧ m'.effect ≠ m.effect) {m₁ m₂ : Mounting}
    (h₁ : m₁ ∈ ms ∨ m₁ = m) (h₂ : m₂ ∈ ms ∨ m₂ = m) (hne : m₁ ≠ m₂) :
    m₁.node ≠ m₂.node ∧ m₁.effect ≠ m₂.effect := by
  by_cases e₁ : m₁ = m
  · subst e₁
    obtain ⟨hn, he⟩ := hapart m₂ (h₂.resolve_right hne.symm) hne.symm
    exact ⟨hn.symm, he.symm⟩
  · by_cases e₂ : m₂ = m
    · exact e₂ ▸ hapart m₁ (h₁.resolve_right e₁) e₁
    · exact h.apart m₁ (h₁.resolve_right e₁) m₂ (h₂.resolve_right e₂) hne

theorem extended (h : s.Exhibits C K ms order) (hC : C m.cell) (hm : m.Stands s)
    (hreaders : ∀ r ∈ Edges.readers s.edges m.node, r = m.effect)
    (hapart : ∀ m' ∈ ms, m' ≠ m → m'.node ≠ m.node ∧ m'.effect ≠ m.effect)
    (hms : ∀ m', m' ∈ ms' ↔ m' ∈ ms ∨ m' = m) (hs : m.Shown k v es s t) :
    t.Exhibits C K ms' fun c => relink m.node m.cell c (order c) where
  static := by
    obtain ⟨_, _, -, -, ht⟩ := hs.same
    rw [ht]
    exact h.static
  cell c hc := by
    obtain ⟨i, hi, hi'⟩ := h.cell c hc
    exact ⟨i, hi, hs.cell hm hi'⟩
  stands m' hm' := by
    rcases (hms m').1 hm' with hm' | rfl
    · exact ⟨(h.stands m' hm').1, hs.stands hm (h.stands m' hm').2⟩
    · exact ⟨hC, hs.stands hm hm⟩
  clean m' hm' := by
    obtain ⟨μ, -, hnode⟩ := hs.node hm
    by_cases hne : m' = m
    · exact hne ▸ ⟨_, hnode, rfl⟩
    · have hold := ((hms m').1 hm').resolve_right hne
      obtain ⟨μ', hμ', hclean⟩ := h.clean m' hold
      exact ⟨μ', hs.memo hm hμ' (hapart m' hold hne).1, hclean⟩
  shown m' hm' := by
    obtain ⟨j, -, hcell⟩ := h.cell _ hC
    by_cases hne : m' = m
    · rw [hne]
      exact hs.readers_node hm (hm.ne_cell hcell).1 hreaders
    · have hold := ((hms m').1 hm').resolve_right hne
      exact hs.readers_apart hm (h.stands m' hold).2 hcell (hapart m' hold hne) (h.shown m' hold)
  readers c hc := h.readers_shown hm hs hc
  known c n hn := by
    rcases mem_relink hn with hn | ⟨rfl, rfl⟩
    · obtain ⟨m', hm', he⟩ := h.known c n hn
      exact ⟨m', (hms m').2 (.inl hm'), he⟩
    · exact ⟨m, (hms m).2 (.inr rfl), rfl, rfl⟩
  nodup c := nodup_relink _ _ _ (h.nodup c)
  apart m₁ h₁ m₂ h₂ := h.apart_insert hapart ((hms m₁).1 h₁) ((hms m₂).1 h₂)
  unborn n hn := h.unborn_shown hC hm hs hn

theorem again (h : s.Exhibits C K ms order) (hm : m ∈ ms) (hs : m.Shown k v es s t) :
    t.Exhibits C K ms fun c => relink m.node m.cell c (order c) :=
  h.extended (h.stands m hm).1 (h.stands m hm).2 (by simp [h.shown m hm])
    (fun m' hm' hne => h.apart m' hm' m hm hne)
    (fun _ => ⟨.inl, fun h => h.elim id fun e => e ▸ hm⟩) hs

theorem kept (h : s.Exhibits C K ms order) (hst : s.Rewires (fun _ => id) t)
    (static : t.Static K) (roots : s.roots ⊆ t.roots)
    (length : s.nodes.length ≤ t.nodes.length)
    (cell : ∀ c, C c → ∃ k, K k ∧ t.nodes[c]? = some (.cell (some k)))
    (nodes : ∀ (n : NodeId) (x : Node), s.nodes[n]? = some x → (∀ c, x ≠ .cell c) →
      t.nodes[n]? = some x) : t.Exhibits C K ms order where
  static := static
  cell := cell
  stands m hm := ⟨(h.stands m hm).1, (h.stands m hm).2.kept hst.fast roots
    (fun μ hμ => ⟨μ, nodes _ _ hμ nofun, rfl⟩) fun e he => ⟨e, nodes _ _ he nofun, rfl, rfl, rfl⟩⟩
  clean m hm := by
    obtain ⟨μ, hμ, hclean⟩ := h.clean m hm
    exact ⟨μ, nodes _ _ hμ nofun, hclean⟩
  shown m hm := by
    have hr := h.shown m hm
    rw [(hst.readers fun r hmem => ?_).1, hr]
    · rfl
    · rw [hr, List.mem_singleton] at hmem
      exact hmem ▸ (h.stands m hm).2.fast_effect
  readers c hc := by
    have hr := h.readers c hc
    rw [(hst.readers fun r hmem => h.fast (hr ▸ hmem)).1, hr]
    rfl
  known := h.known
  nodup := h.nodup
  apart := h.apart
  unborn n hn := by
    have hnil := h.unborn n (Nat.le_trans length hn)
    rw [(hst.readers (by simp [hnil])).1, hnil]
    rfl

end Store.Exhibits

end HotSwap
