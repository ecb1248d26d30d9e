import HotSwap.Proofs.Evaluation.Readers
import HotSwap.Proofs.Mount.Worth
/-!
# Mounted nodes and what they hold

A mounted node keeps the view that it made of what its cell held when it was last read. In a coherent
store that view still is what the cell's content calls for, with one exception: if the cell holds a
proxy over a plain component, then the view is frozen, for the node has never heard of the cell of
that proxy.

A store is coherent with regard to its past: which stores a program came through, and which
components stood in a cell when a node took its view. While a change is being told, some nodes are
pending.
-/

namespace HotSwap

open Machine

namespace Store

/-- Of a cell, a node, a view and a component: when the node took the view, the component may have
stood in the cell. -/
abbrev Stood := NodeId → NodeId → View → ComponentId → Prop

def Stood.alsoIn (stood : Stood) (s : Store) : Stood :=
  fun c n v j => stood c n v j ∨ s.nodes[c]? = some (.cell (some j))

def MountedOver (s : Store) (cell n : NodeId) : Prop :=
  ∃ m props scope, s.nodes[n]? = some (.memo m) ∧ m.recipe = .mount cell props scope

/-- A component that proxies call directly. -/
def Plain (s : Store) (k : ComponentId) : Prop :=
  ∃ f, s.components[k]? = some (.function f) ∧ f.dev = false

variable (out : ComponentId → Json → String) (stood : Stood) (pending : NodeId → Prop)
  (past : Store → Prop)

/-- A component that may be in a cell: a proxy, or a function that depends on nothing but its props
and of which any node may have taken its view. -/
def Occupies (s : Store) (c : NodeId) (j : ComponentId) : Prop :=
  (∃ p, s.components[j]? = some (.proxy p)) ∨
    ∃ f, s.components[j]? = some (.function f) ∧ Depends s f.body (out j) ∧ ∀ n v, stood c n v j

/-- The node `n` over a template existed when an evaluation of the template gave `x`. -/
def Evaluated (s : Store) (n : NodeId) (body : LinkedTemplate) (props : Json) (x : Content) : Prop :=
  ∃ v u w depth, x = .view v ∧ past u ∧ n < u.nodes.length ∧ w.Precedes s ∧
    body.eval (calls depth) { props } u = some (v, w)

/-- The view that the node `l` makes with some props of a cell that holds `k`. -/
inductive Matches (s : Store) (l : NodeId) (props : Json) (k : ComponentId) (v : View) : Prop
  | function {f : FunctionComponent} (hf : s.components[k]? = some (.function f))
    (hv : Worth past s v (out k props))
  | mounted {p : Proxy} {n : NodeId} {m : Memo} {scope : Scope}
    (hp : s.components[k]? = some (.proxy p)) (hv : v = .dynamic n)
    (hn : s.nodes[n]? = some (.memo m)) (hr : m.recipe = .mount p.cell props scope)
  | frozen {p : Proxy} {j : ComponentId} (hp : s.components[k]? = some (.proxy p))
    (hj : stood p.cell l v j) (hplain : s.Plain j) (hv : Worth past s v (out j props))

/-- What is known of a node over `cell` that lives and holds `v`. -/
structure Mounted (s : Store) (n cell : NodeId) (props : Json) (v : View) : Prop where
  subscribed : n ∈ Edges.readers s.edges cell
  current : pending n ∨ ∃ k, s.nodes[cell]? = some (.cell (some k)) ∧
    Matches out stood past s n props k v
  known : ∀ ⦃n' : NodeId⦄, v = .dynamic n' → ∃ m, s.nodes[n']? = some (.memo m)
  held : ∀ ⦃n' : NodeId⦄ ⦃m : Memo⦄ {cell' props' scope}, v = .dynamic n' →
    s.nodes[n']? = some (.memo m) → m.recipe = .mount cell' props' scope → .node n' ∈ s.live

structure Coherent (s : Store) : Prop where
  earlier : ∀ ⦃a : Store⦄, past a → a.Precedes s
  ordered : ∀ ⦃a b : Store⦄, past a → past b → a.nodes.length < b.nodes.length → a.Precedes b
  proxied : ∀ ⦃k : ComponentId⦄ ⦃p : Proxy⦄, s.components[k]? = some (.proxy p) →
    ∃ x, s.nodes[p.cell]? = some (.cell x)
  standing : ∀ ⦃c : NodeId⦄ ⦃x : Option ComponentId⦄, s.nodes[c]? = some (.cell x) →
    ∃ j, x = some j ∧ Occupies out stood s c j
  template : ∀ ⦃n : NodeId⦄ ⦃m : Memo⦄ {label body props x}, s.nodes[n]? = some (.memo m) →
    m.recipe = .template label body props → m.value = some x → Evaluated past s n body props x
  mountable : ∀ ⦃n : NodeId⦄ ⦃m : Memo⦄, s.nodes[n]? = some (.memo m) → s.Mountable m.recipe
  mount : ∀ ⦃n : NodeId⦄ ⦃m : Memo⦄ {cell props scope x}, s.nodes[n]? = some (.memo m) →
    m.recipe = .mount cell props scope → m.freshness = .clean → m.value = some x →
    .node n ∈ s.live → ∃ v, x = .view v ∧ Mounted out stood pending past s n cell props v

/-- A change that redirects no cell, adds no proxy and leaves the views of memos alone. -/
structure Mild (s t : Store) : Prop where
  precedes : s.Precedes t
  cell : ∀ {c : NodeId} {x : Option ComponentId}, s.nodes[c]? = some (.cell x) →
    t.nodes[c]? = some (.cell x)
  cell_of : ∀ {c : NodeId} {x : Option ComponentId}, t.nodes[c]? = some (.cell x) →
    s.nodes[c]? = some (.cell x)
  proxy_of : ∀ {k : ComponentId} {p : Proxy}, t.components[k]? = some (.proxy p) →
    s.components[k]? = some (.proxy p)
  memo_of : ∀ {n : NodeId} {m : Memo}, t.nodes[n]? = some (.memo m) →
    (m.value = none ∧ s.Mountable m.recipe) ∨ ∃ m₀, s.nodes[n]? = some (.memo m₀) ∧
      m.recipe = m₀.recipe ∧ m.value = m₀.value ∧ (m.freshness = .clean → m₀.freshness = .clean)
  live : ∀ {n : NodeId}, n < s.nodes.length → .node n ∈ t.live → .node n ∈ s.live
  subscribed : ∀ {n : NodeId} {m : Memo} {cell props scope}, s.nodes[n]? = some (.memo m) →
    m.recipe = .mount cell props scope → .node n ∈ t.live →
    n ∈ Edges.readers s.edges cell → n ∈ Edges.readers t.edges cell
  held : ∀ {n n' : NodeId} {m : Memo}, t.nodes[n]? = some (.memo m) →
    m.value = some (.view (.dynamic n')) → .node n ∈ t.live → .node n' ∈ s.live →
    .node n' ∈ t.live

variable {out stood pending past} {s t : Store}

theorem Plain.mono {k : ComponentId} (h : s.Plain k) (hst : s.Precedes t) : t.Plain k := by
  obtain ⟨f, hf, hd⟩ := h
  obtain ⟨g, hg, e⟩ := hst.function hf
  exact ⟨g, hg, e.dev.trans hd⟩

theorem Mountable.mono {r : Recipe} (h : s.Mountable r) (hst : s.Precedes t) : t.Mountable r := by
  rintro cell props scope rfl
  obtain ⟨k, p, hp, e⟩ := h rfl
  exact ⟨k, p, hst.proxy hp, e⟩

theorem Occupies.mono {stood' : Stood} {c : NodeId} {j : ComponentId}
    (h : Occupies out stood s c j) (hs : ∀ n v, stood c n v j → stood' c n v j)
    (hst : s.Precedes t) : Occupies out stood' t c j := by
  rcases h with ⟨p, hp⟩ | ⟨f, hf, hd, hj⟩
  · exact .inl ⟨p, hst.proxy hp⟩
  · obtain ⟨g, hg, e⟩ := hst.function hf
    exact .inr ⟨g, hg, e.body ▸ hd.mono hst, fun n v => hs n v (hj n v)⟩

theorem Evaluated.mono {n : NodeId} {body : LinkedTemplate} {props : Json} {x : Content}
    (h : Evaluated past s n body props x) (hst : s.Precedes t) :
    Evaluated past t n body props x := by
  obtain ⟨v, u, w, depth, hv, hu, hlt, hw, he⟩ := h
  exact ⟨v, u, w, depth, hv, hu, hlt, hw.trans hst, he⟩

theorem Matches.mono {past' : Store → Prop} {l : NodeId} {props : Json} {k : ComponentId} {v : View}
    (h : Matches out stood past s l props k v) (hp : ∀ a, past a → past' a) (hst : s.Precedes t) :
    Matches out stood past' t l props k v := by
  cases h with
  | function hf hv =>
    obtain ⟨g, hg, -⟩ := hst.function hf
    exact .function hg (hv.weaken hp hst)
  | mounted hk hv hn hr =>
    obtain ⟨m, hm, e⟩ := hst.memo hn
    exact .mounted (hst.proxy hk) hv hm (e.trans hr)
  | frozen hk hj hplain hv =>
    exact .frozen (hst.proxy hk) hj (hplain.mono hst) (hv.weaken hp hst)

theorem Mounted.mono {past' : Store → Prop} {n cell : NodeId} {props : Json} {v : View}
    (h : Mounted out stood pending past s n cell props v) (hp : ∀ a, past a → past' a)
    (hst : s.Precedes t) (hsub : n ∈ Edges.readers t.edges cell)
    (hc : pending n ∨ ∀ {x}, s.nodes[cell]? = some (.cell x) → t.nodes[cell]? = some (.cell x))
    (hl : ∀ {n'}, v = .dynamic n' → .node n' ∈ s.live → .node n' ∈ t.live) :
    Mounted out stood pending past' t n cell props v where
  subscribed := hsub
  current := hc.elim .inl fun hc =>
    h.current.imp_right fun ⟨k, hk, hmatch⟩ => ⟨k, hc hk, hmatch.mono hp hst⟩
  known n' e := by
    obtain ⟨m, hm⟩ := h.known e
    obtain ⟨m', hm', -⟩ := hst.memo hm
    exact ⟨m', hm'⟩
  held n' m' _ _ _ e hn' hr' := by
    obtain ⟨m₁, hm₁⟩ := h.known e
    obtain ⟨m₂, hm₂, er⟩ := hst.memo hm₁
    obtain rfl : m₂ = m' := by simpa [hm₂] using hn'
    exact hl e (h.held e hm₁ (er.symm.trans hr'))

theorem Coherent.mild (h : Coherent out stood pending past s) (hst : s.Mild t) :
    Coherent out stood pending past t where
  earlier a ha := (h.earlier ha).trans hst.precedes
  ordered := h.ordered
  proxied k p hp := by
    obtain ⟨x, hx⟩ := h.proxied (hst.proxy_of hp)
    exact ⟨x, hst.cell hx⟩
  standing c x hx := by
    obtain ⟨j, rfl, hj⟩ := h.standing (hst.cell_of hx)
    exact ⟨j, rfl, hj.mono (fun _ _ => id) hst.precedes⟩
  template n m label body props x hn hr hx := by
    rcases hst.memo_of hn with ⟨hv, -⟩ | ⟨m₀, hm₀, er, ev, -⟩
    · simp [hv] at hx
    · exact (h.template hm₀ (er ▸ hr) (ev ▸ hx)).mono hst.precedes
  mountable n m hn := by
    rcases hst.memo_of hn with ⟨-, hr⟩ | ⟨m₀, hm₀, er, -⟩
    · exact Mountable.mono hr hst.precedes
    · exact er ▸ Mountable.mono (h.mountable hm₀) hst.precedes
  mount n m cell props scope x hn hr hf hx hl := by
    rcases hst.memo_of hn with ⟨hv, -⟩ | ⟨m₀, hm₀, er, ev, ef⟩
    · simp [hv] at hx
    · have hl₀ := hst.live (List.getElem?_eq_some_iff.1 hm₀).1 hl
      obtain ⟨v, rfl, hv⟩ := h.mount hm₀ (er ▸ hr) (ef hf) (ev ▸ hx) hl₀
      refine ⟨v, rfl, hv.mono (fun _ => id) hst.precedes
        (hst.subscribed hm₀ (er ▸ hr) hl hv.subscribed) (.inr hst.cell) ?_⟩
      rintro n' rfl
      exact hst.held hn hx hl

theorem Matches.weaken {stood' : Stood} {l : NodeId} {props : Json} {k : ComponentId} {v : View}
    (h : Matches out stood past s l props k v)
    (hs : ∀ c n v j, stood c n v j → stood' c n v j) : Matches out stood' past s l props k v := by
  cases h with
  | function hf hv => exact .function hf hv
  | mounted hk hv hn hr => exact .mounted hk hv hn hr
  | frozen hk hj hplain hv => exact .frozen hk (hs _ _ _ _ hj) hplain hv

theorem Coherent.weaken (h : Coherent out stood pending past s) {stood' : Stood}
    {pending' : NodeId → Prop} (hs : ∀ c n v j, stood c n v j → stood' c n v j)
    (hp : ∀ ⦃n : NodeId⦄ ⦃m : Memo⦄ {cell props scope}, s.nodes[n]? = some (.memo m) →
      m.recipe = .mount cell props scope → m.freshness = .clean → .node n ∈ s.live →
        n ∈ Edges.readers s.edges cell → pending n → pending' n) :
    Coherent out stood' pending' past s where
  earlier := h.earlier
  ordered := h.ordered
  proxied := h.proxied
  standing c x hx := by
    obtain ⟨j, hj, ho⟩ := h.standing hx
    exact ⟨j, hj, ho.mono (fun n v => hs c n v j) (.refl s)⟩
  template := h.template
  mountable := h.mountable
  mount n m cell props scope x hn hr hf hx hl := by
    obtain ⟨v, rfl, hv⟩ := h.mount hn hr hf hx hl
    refine ⟨v, rfl, hv.subscribed, ?_, hv.known, hv.held⟩
    rcases hv.current with hpend | ⟨k, hk, hm⟩
    · exact .inl (hp hn hr hf hl hv.subscribed hpend)
    · exact .inr ⟨k, hk, hm.weaken hs⟩

theorem Coherent.alsoIn (h : Coherent out stood (fun _ => False) past s) (t : Store) :
    Coherent out (stood.alsoIn t) (fun _ => False) past s :=
  h.weaken (fun _ _ _ _ => .inl) fun _ _ _ _ _ _ _ _ _ _ => id

theorem Coherent.congr (h : Coherent out stood pending past s) (hn : t.nodes = s.nodes)
    (hc : t.components = s.components) (he : t.edges = s.edges) (hl : t.live = s.live) :
    Coherent out stood pending past t := by
  refine h.mild ⟨⟨Nat.le_of_eq (congrArg List.length hn).symm, fun h => hc ▸ h,
    fun {k f} h => ⟨f, hc ▸ h, .refl f⟩, fun {n m} h => ⟨m, hn ▸ h, rfl⟩⟩, fun h => hn ▸ h,
    fun h => hn ▸ h, fun h => hc ▸ h, fun {n m} h => .inr ⟨m, hn ▸ h, rfl, rfl, id⟩,
    fun _ h => hl ▸ h, fun _ _ _ h => he ▸ h, fun _ _ _ h => hl ▸ h⟩

theorem Coherent.remember (h : Coherent out stood pending past s) :
    Coherent out stood pending (fun a => past a ∨ a = s) s where
  earlier a ha := ha.elim (fun ha => h.earlier ha) fun e => e ▸ .refl s
  ordered a b ha hb hlt := by
    rcases ha with ha | rfl
    · rcases hb with hb | rfl
      · exact h.ordered ha hb hlt
      · exact h.earlier ha
    · rcases hb with hb | rfl
      · exact absurd hlt (Nat.not_lt.2 (h.earlier hb).nodes)
      · exact .refl _
  proxied := h.proxied
  standing := h.standing
  template n m label body props x hn hr hx := by
    obtain ⟨v, u, w, depth, hv, hu, hw⟩ := h.template hn hr hx
    exact ⟨v, u, w, depth, hv, .inl hu, hw⟩
  mountable := h.mountable
  mount n m cell props scope x hn hr hf hx hl := by
    obtain ⟨v, rfl, hv⟩ := h.mount hn hr hf hx hl
    exact ⟨v, rfl, hv.mono (fun _ => .inl) (.refl s) hv.subscribed (.inr id) fun _ => id⟩

end Store

end HotSwap
