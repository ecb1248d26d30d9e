import HotSwap.Proofs.Evaluation.Nesting
/-!
# What an evaluation leaves alone

A store only grows: whatever a program does, nothing that exists is taken for something else, proxies
keep their cells, functions their bodies and memos their recipes, and what has been let go does not
come back. An evaluation is moreover steady: it redirects no cell, registers nothing and asks nothing
of a host.
-/

namespace HotSwap

open Machine

/-- Same body under the same names; only the metadata may differ. -/
structure FunctionComponent.Alike (f g : FunctionComponent) : Prop where
  name : g.name = f.name
  title : g.title = f.title
  dev : g.dev = f.dev
  body : g.body = f.body

theorem FunctionComponent.Alike.refl (f : FunctionComponent) : f.Alike f := ⟨rfl, rfl, rfl, rfl⟩

theorem FunctionComponent.Alike.trans {f g h : FunctionComponent} (a : f.Alike g) (b : g.Alike h) :
    f.Alike h :=
  ⟨b.name.trans a.name, b.title.trans a.title, b.dev.trans a.dev, b.body.trans a.body⟩

namespace Store

structure Grows (s t : Store) : Prop where
  nodes : s.nodes.length ≤ t.nodes.length
  proxy : ∀ {k : ComponentId} {p : Proxy}, s.components[k]? = some (.proxy p) →
    t.components[k]? = some (.proxy p)
  function : ∀ {k : ComponentId} {f : FunctionComponent}, s.components[k]? = some (.function f) →
    ∃ g, t.components[k]? = some (.function g) ∧ f.Alike g
  cell : ∀ {n : NodeId} {k : Option ComponentId}, s.nodes[n]? = some (.cell k) →
    ∃ k', t.nodes[n]? = some (.cell k')
  memo : ∀ {n : NodeId} {m : Memo}, s.nodes[n]? = some (.memo m) →
    ∃ m', t.nodes[n]? = some (.memo m') ∧ m'.recipe = m.recipe
  readers : t.frames.map Frame.reader = s.frames.map Frame.reader
  live : ∀ {n : NodeId}, n < s.nodes.length → .node n ∈ t.live → .node n ∈ s.live

structure Steady (s t : Store) : Prop extends Grows s t where
  content : ∀ {n : NodeId} {k : Option ComponentId}, s.nodes[n]? = some (.cell k) →
    t.nodes[n]? = some (.cell k)
  registries : t.registries = s.registries
  data : t.data = s.data
  hosts : t.hosts = s.hosts

theorem Grows.refl (s : Store) : s.Grows s where
  nodes := Nat.le_refl _
  proxy := id
  function h := ⟨_, h, .refl _⟩
  cell h := ⟨_, h⟩
  memo h := ⟨_, h, rfl⟩
  readers := rfl
  live _ := id

theorem Grows.trans {s t u : Store} (h : s.Grows t) (h' : t.Grows u) : s.Grows u where
  nodes := Nat.le_trans h.nodes h'.nodes
  proxy hp := h'.proxy (h.proxy hp)
  function hf := by
    obtain ⟨g, hg, a⟩ := h.function hf
    obtain ⟨g', hg', b⟩ := h'.function hg
    exact ⟨g', hg', a.trans b⟩
  cell hn := by
    obtain ⟨k, hk⟩ := h.cell hn
    exact h'.cell hk
  memo hn := by
    obtain ⟨m, hm, e⟩ := h.memo hn
    obtain ⟨m', hm', e'⟩ := h'.memo hm
    exact ⟨m', hm', e'.trans e⟩
  readers := h'.readers.trans h.readers
  live hn hu := h.live hn (h'.live (Nat.lt_of_lt_of_le hn h.nodes) hu)

theorem Steady.refl (s : Store) : s.Steady s where
  toGrows := .refl s
  content := id
  registries := rfl
  data := rfl
  hosts := rfl

theorem Steady.trans {s t u : Store} (h : s.Steady t) (h' : t.Steady u) : s.Steady u where
  toGrows := h.toGrows.trans h'.toGrows
  content hn := h'.content (h.content hn)
  registries := h'.registries.trans h.registries
  data := h'.data.trans h.data
  hosts := h'.hosts.trans h.hosts

theorem Steady.of_nodes {s : Store} {nodes : List Node} (hlen : s.nodes.length ≤ nodes.length)
    (hcell : ∀ {n : NodeId} {k : Option ComponentId}, s.nodes[n]? = some (.cell k) →
      nodes[n]? = some (.cell k))
    (hmemo : ∀ {n : NodeId} {m : Memo}, s.nodes[n]? = some (.memo m) →
      ∃ m', nodes[n]? = some (.memo m') ∧ m'.recipe = m.recipe) :
    s.Steady { s with nodes } where
  nodes := hlen
  proxy := id
  function h := ⟨_, h, .refl _⟩
  cell h := ⟨_, hcell h⟩
  memo := hmemo
  readers := rfl
  live _ := id
  content := hcell
  registries := rfl
  data := rfl
  hosts := rfl

theorem Steady.set_node {s : Store} {n : NodeId} {x y : Node} (hx : s.nodes[n]? = some x)
    (hc : ∀ k, x ≠ .cell k)
    (hm : ∀ m, x = .memo m → ∃ m', y = .memo m' ∧ m'.recipe = m.recipe) :
    s.Steady { s with nodes := s.nodes.set n y } := by
  refine .of_nodes (by simp) (fun {l k} hl => ?_) (fun {l m} hl => ?_)
  · have hn : n ≠ l := by
      rintro rfl
      exact hc k (Option.some.inj (hx.symm.trans hl))
    rw [List.getElem?_set_ne hn, hl]
  · by_cases hn : n = l
    · subst hn
      obtain ⟨m', rfl, hr⟩ := hm m (Option.some.inj (hx.symm.trans hl))
      exact ⟨m', by rw [List.getElem?_set_self (List.getElem?_eq_some_iff.1 hx).1], hr⟩
    · exact ⟨m, by rw [List.getElem?_set_ne hn, hl], rfl⟩

end Store

theorem Store.settle_subset (s : Store) (fuel : Nat) (live : List Handle) :
    s.settle fuel live ⊆ live := by
  induction fuel generalizing live with
  | zero => exact List.Subset.refl live
  | succ fuel ih =>
    simp only [settle]
    split
    · exact List.Subset.refl live
    · exact fun h hh => (List.mem_filter.1 (ih _ hh)).1

theorem Store.survivors_subset (s : Store) : s.survivors ⊆ s.live := s.settle_subset _ _

theorem getElem?_append_of_some {l l' : List α} {n : Nat} {a : α} (h : l[n]? = some a) :
    (l ++ l')[n]? = some a := by
  rw [List.getElem?_append_left (List.getElem?_eq_some_iff.1 h).1, h]

theorem Frame.reader_reading (f : Frame) (n : NodeId) : (f.reading n).reader = f.reader := by
  unfold Frame.reading
  split <;> rfl

open Store in
theorem indifferent_steady : Indifferent Store.Steady where
  refl := Steady.refl
  trans _ _ _ := Steady.trans
  emit s e := { Steady.refl s with }
  addMemo _ :=
    { Steady.of_nodes (by simp) (getElem?_append_of_some ·) fun h =>
        ⟨_, getElem?_append_of_some h, rfl⟩ with
      live := fun hn h => by simpa [Nat.ne_of_lt hn] using h }
  signal w h := .set_node h (by simp) (by simp)
  mark h := .set_node h (by simp) (by rintro m ⟨⟩; exact ⟨_, rfl, rfl⟩)
  effect _ _ _ h := .set_node h (by simp) (by simp)
  track n h := { Steady.refl _ with
    readers := by rw [h]; simp [Frame.reader_reading] }
  unsubscribe _ := { Steady.refl _ with }
  collect s := { Steady.refl s with live := fun _ h => s.survivors_subset h }
  roots s hs := { Steady.refl s with }
  frame r h := { h with readers := by simpa using congrArg List.tail h.readers }
  providing p h := { h with }
  scope p h := { h with }
  pinned _ h := { h with }
  edges s es := { Steady.refl s with }
  settle v h := .set_node h (by simp) (by rintro m ⟨⟩; exact ⟨_, rfl, rfl⟩)

end HotSwap
