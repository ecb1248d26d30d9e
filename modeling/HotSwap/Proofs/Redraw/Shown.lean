import HotSwap.Proofs.Redraw.Static
/-!
# An effect that shows a node

The run of an effect that reads a node over a cell computes the node, which renders what the cell
holds. Both subscribe anew, each behind the readers that are there.
-/

namespace HotSwap

open Machine Store

/-- A node over a cell, and the effect that shows it. -/
structure Mounting where
  cell : NodeId
  props : Json
  scope : Scope
  node : NodeId
  effect : NodeId
  name : String

namespace Mounting

def draw (m : Mounting) (c : Calls) (k : ComponentId) : Machine View :=
  inScope m.scope (untracked (c.render k m.props))

def told (m : Mounting) (k : ComponentId) (v : View) (es : List Event) : List Event :=
  .effect m.effect m.name (.string v.flatText) :: .read (some m.effect) m.node (.view v) ::
    (es ++ [.read (some m.node) m.cell (.component (some k))])

theorem told_append (m : Mounting) (k : ComponentId) (v : View) (es tr : List Event) :
    m.told k v es ++ tr = .effect m.effect m.name (.string v.flatText) ::
      .read (some m.effect) m.node (.view v) ::
        (es ++ .read (some m.node) m.cell (.component (some k)) :: tr) := by
  simp [told]

structure Stands (m : Mounting) (s : Store) : Prop where
  memo : ∃ μ, s.nodes[m.node]? = some (.memo μ) ∧ μ.recipe = .mount m.cell m.props m.scope
  effect : ∃ e, s.nodes[m.effect]? = some (.effect e) ∧ e.name = m.name ∧
    e.body = .text (.dynamic m.node) ∧ e.disposed = false
  root : .node m.effect ∈ s.roots
  effectLive : .node m.effect ∈ s.live
  nodeLive : .node m.node ∈ s.live

variable {m : Mounting} {K : ComponentId → Prop} {s s' t : Store} {k : ComponentId} {d : Nat}

theorem Stands.fast_effect (h : m.Stands s) : s.Fast m.effect := ⟨h.effectLive, .inl h.root⟩

theorem Stands.fast_node (h : m.Stands s) : s.Fast m.node := by
  obtain ⟨e, he, -, hbody, -⟩ := h.effect
  refine ⟨h.nodeLive, .inr ⟨m.effect, e, h.root, h.effectLive, he, ?_⟩⟩
  simp [hbody, Expr.handles, View.handles, View.nodes]

theorem Stands.node_ne_effect {m' : Mounting} (h : m.Stands s) (h' : m'.Stands s) :
    m.node ≠ m'.effect := by
  obtain ⟨μ, hμ, -⟩ := h.memo
  obtain ⟨e, he, -⟩ := h'.effect
  intro heq
  simp [heq, he] at hμ

theorem Stands.ne (h : m.Stands s) : m.node ≠ m.effect := h.node_ne_effect h

theorem Stands.ne_cell {c : NodeId} {j : Option ComponentId} (h : m.Stands s)
    (hc : s.nodes[c]? = some (.cell j)) : m.node ≠ c ∧ m.effect ≠ c := by
  obtain ⟨μ, hμ, -⟩ := h.memo
  obtain ⟨e, he, -⟩ := h.effect
  constructor <;> rintro rfl
  · simp [hμ] at hc
  · simp [he] at hc

theorem draw_recites (h : s.Agrees K s') (hk : K k) (d : Nat) :
    Recites K (fun v => v.nodes = []) s s' (m.draw (calls d) k) :=
  .inScope <| .untracked <| (calls_static K d).render m.props
    { h with provided := rfl, reader := rfl } hk

theorem draw_le {e : Nat} (h : d ≤ e) {v : View} (hdraw : m.draw (calls d) k s = some (v, t)) :
    m.draw (calls e) k s = some (v, t) :=
  (inScope_within indifferent_true.toAdmissible m.scope
    (untracked_within indifferent_true.toAdmissible ((calls_le h).render k m.props)) s hdraw).1

theorem draw_told {f : FunctionComponent} {v : View} {es : List Event} (hs : s.Static K)
    (hf : s.components[k]? = some (.function f)) (hbody : f.body.Static K)
    (h : m.draw (calls d) k s = some (v, t)) (ht : t.trace = es ++ s.trace) :
    ∃ inner, es = inner ++ [.render k f.name] ∧ ∀ e ∈ inner, e.From K := by
  cases d with
  | zero => cases h
  | succ d =>
    obtain ⟨u, hu, rfl⟩ := inScope_eq_some.1 h
    rw [untracked_apply] at hu
    obtain ⟨⟨v, w⟩, hw, e⟩ := Option.map_eq_some_iff.1 hu
    cases e
    obtain ⟨inner, hinner, htold⟩ := renderComponent_told (s := { s with
      provided := m.scope, frames := { reader := none } :: s.frames }) hs hf hbody hw
    refine ⟨inner, List.append_cancel_right (ht.symm.trans (htold.trans ?_)), hinner⟩
    rw [List.append_assoc]
    rfl

theorem draw_events {f : FunctionComponent} {v : View} {es : List Event} (hs : s.Static K)
    (hk : K k) (hf : s.components[k]? = some (.function f))
    (h : m.draw (calls d) k s = some (v, t)) (ht : t.trace = es ++ s.trace) :
    ∃ inner, es = inner ++ [.render k f.name] ∧
      ∀ K', s.Static K' → f.body.Static K' → ∀ e ∈ inner, e.From K' := by
  obtain ⟨_, ⟨⟩, hbody⟩ := hs hk hf
  obtain ⟨inner, hes, -⟩ := draw_told hs hf hbody h ht
  refine ⟨inner, hes, fun K' hs' hbody' => ?_⟩
  obtain ⟨inner', hes', hfrom⟩ := draw_told hs' hf hbody' h ht
  rwa [List.append_cancel_right (hes.symm.trans hes')]

end Mounting

namespace Mounting

variable {m : Mounting} {K : ComponentId → Prop} {s t : Store} {k : ComponentId} {d : Nat}

theorem run_node (m : Mounting) (d : Nat) {r : Store}
    (hcell : r.nodes[m.cell]? = some (.cell (some k))) :
    runRecipe (calls d) m.node (.mount m.cell m.props m.scope) r =
      (m.draw (calls d) k ((r.tracked m.cell).recorded m.cell (.component (some k)))).map
        fun p => (.view p.1, p.2) := by
  cases d with
  | zero => rfl
  | succ d =>
    have hcontent : content (calls d) m.cell (r.tracked m.cell) =
        some (.component (some k), r.tracked m.cell) := by
      simp [content, node?_apply, hcell]
    have hread : (calls (d + 1)).read m.cell r = some (.component (some k),
        (r.tracked m.cell).recorded m.cell (.component (some k))) := readNode_of_content hcontent
    simp only [runRecipe, bind_apply, hread, Option.bind_some]
    change (m.draw (calls (d + 1)) k _).bind _ = _
    cases m.draw (calls (d + 1)) k ((r.tracked m.cell).recorded m.cell (.component (some k))) <;> rfl

def entered (m : Mounting) (s : Store) : Store :=
  { s with
    edges := Edges.unsubscribe s.edges m.effect
    frames := { reader := some m.effect } :: s.frames
    pinned := .node m.node :: s.pinned }

def drawing (m : Mounting) (k : ComponentId) (s : Store) : Store :=
  ((((m.entered s).started m.node).tracked m.cell).recorded m.cell (.component (some k)))

def drawn (m : Mounting) (v : View) (t : Store) : Store :=
  (Store.settled { t with frames := t.frames.tail } m.node (.view v)).recorded m.node (.view v)

def observed (m : Mounting) (s : Store) (v : View) (t : Store) : Store :=
  let u := Store.collect { (m.drawn v t).collect with pinned := s.pinned }
  { u with
    frames := u.frames.tail
    trace := .effect m.effect m.name (.string v.flatText) :: u.trace }

def shown (m : Mounting) (e : Effect) (s : Store) (v : View) (t : Store) : Store :=
  { m.observed s v t with
    nodes := (m.observed s v t).nodes.set m.effect (.effect { e with
      runs := e.runs + 1
      dependencies := (((m.drawn v t).frames.head?.map Frame.sources).getD []).length }) }

variable (hcell : s.nodes[m.cell]? = some (.cell (some k)))
  (due : ∃ μ, s.nodes[m.node]? = some (.memo μ) ∧ μ.recipe = .mount m.cell m.props m.scope ∧ μ.Due)

include hcell due

theorem read_node (d : Nat) : (calls (d + 1)).read m.node (m.entered s) =
    (m.draw (calls d) k (m.drawing k s)).map fun p => (.view p.1, m.drawn p.1 p.2) := by
  obtain ⟨μ, hn, hr, due⟩ := due
  have hread := readNode_of_due (s := m.entered s) (calls d) hn due
  rw [hr, run_node m d (r := (m.entered s).started m.node) (by rwa [nodes_started])] at hread
  rw [calls_succ]
  refine hread.trans ?_
  rw [Option.map_map]
  rfl

theorem text_node (d : Nat) (hv : ∀ v t, m.draw (calls d) k (m.drawing k s) = some (v, t) → v.nodes = []) :
    textOf (calls (d + 2)) (.dynamic m.node) { s with
      edges := Edges.unsubscribe s.edges m.effect
      frames := { reader := some m.effect } :: s.frames } =
    (m.draw (calls d) k (m.drawing k s)).map fun p =>
      (p.1.flatText, Store.collect { (m.drawn p.1 p.2).collect with pinned := s.pinned }) := by
  have hresolve : (calls (d + 2)).resolve (.dynamic m.node) (m.entered s) =
      (m.draw (calls d) k (m.drawing k s)).map fun p => (p.1, (m.drawn p.1 p.2).collect) := by
    change resolveView (calls (d + 1)) (.dynamic m.node) (m.entered s) = _
    rw [resolveView, bind_apply, read_node hcell due d]
    cases hdraw : m.draw (calls d) k (m.drawing k s) with
    | none => rfl
    | some p =>
      have hnodes := hv p.1 p.2 hdraw
      have hhandles : p.1.handles = [] := by rw [View.handles, hnodes, List.map_nil]
      have hself (r : Store) : (calls (d + 1)).resolve p.1 r = some (p.1, r) :=
        resolveView_of_nodeless _ r hnodes
      simp only [Option.map_some, Option.bind_some, Content.toView, borrowing, bind_apply,
        keeping_apply, hhandles, hself, collect_apply]
      rfl
  rw [textOf_apply]
  change Option.map _ ((calls (d + 2)).resolve (.dynamic m.node) (m.entered s)) = _
  rw [hresolve, Option.map_map]
  rfl

theorem runEffect_eq (d : Nat) {e : Effect} (he : s.nodes[m.effect]? = some (.effect e))
    (hname : e.name = m.name) (hbody : e.body = .text (.dynamic m.node)) (hd : e.disposed = false)
    (hv : ∀ v t, m.draw (calls d) k (m.drawing k s) = some (v, t) → v.nodes = [] ∧
      (m.drawn v t).nodes[m.effect]? = some (.effect e)) :
    runEffect (calls (d + 2)) m.effect s =
      (m.draw (calls d) k (m.drawing k s)).map fun p => ((), m.shown e s p.1 p.2) := by
  simp only [runEffect, bind_apply, effect?_apply, effectAt_eq_some.2 he, Option.bind_some, hd,
    Bool.false_eq_true, if_false, unsubscribe, modify_apply, inFrame_apply, hbody, Expr.eval,
    text_node hcell due d fun v t h => (hv v t h).1]
  cases hdraw : m.draw (calls d) k (m.drawing k s) with
  | none => rfl
  | some p =>
    obtain ⟨hnodes, het⟩ := hv p.1 p.2 hdraw
    simp only [Option.map_some, Option.bind_some, pure_apply, emit, modify_apply, hname]
    -- the store the effect is looked up in is spelled out here, so it is left to be found
    rw [effectAt_eq_some.2 (?_ : _ = some (Node.effect e))]
    · rfl
    · exact het

end Mounting

namespace Mounting

variable {m : Mounting} {K : ComponentId → Prop} {s t t' : Store} {k : ComponentId} {v : View}
  {es : List Event} {e : Effect} {μ : Memo} {d : Nat}

/-- The effect ran once, the node took the view, and both subscribed anew. -/
structure Shown (m : Mounting) (k : ComponentId) (v : View) (es : List Event) (s t : Store) :
    Prop where
  rewires : s.Rewires (fun x => relink m.node m.cell x ∘ relink m.effect m.node x) t
  same : ∃ μ e, s.nodes[m.node]? = some (.memo μ) ∧ s.nodes[m.effect]? = some (.effect e) ∧
    t = { s with
      nodes := (s.nodes.set m.node (.memo { μ with value := some (.view v), freshness := .clean })).set
        m.effect (.effect { e with runs := e.runs + 1, dependencies := 1 })
      edges := t.edges
      live := t.live
      trace := m.told k v es ++ s.trace }

theorem rewires_drawing (h : m.Stands s) (k : ComponentId) :
    s.Rewires (fun x => relink m.node m.cell x ∘ relink m.effect m.node x) (m.drawing k s) := by
  have heffect := rewires_relink h.fast_effect m.node
  have hnode := rewires_relink (heffect.fast h.fast_node) m.cell
  exact (heffect.trans hnode).besides id rfl

theorem rewires_observed (hμ : t.nodes[m.node]? = some (.memo μ)) (s : Store) (v : View) :
    t.Rewires (fun _ => id) (m.observed s v t) := by
  have hpopped : t.Rewires (fun _ => id) { t with frames := t.frames.tail } := .of_same id rfl
  have hsettled : t.Rewires (fun _ => id) (m.drawn v t) :=
    (hpopped.trans (rewires_settled (s := { t with frames := t.frames.tail }) hμ (.view v))).besides
      id rfl
  have hcollected : t.Rewires (fun _ => id) { (m.drawn v t).collect with pinned := s.pinned } :=
    (hsettled.trans (rewires_collect _)).besides id rfl
  exact (hcollected.trans (rewires_collect _)).besides id rfl

theorem drawing_eq (m : Mounting) (k : ComponentId) (s : Store) : m.drawing k s = { m.entered s with
    edges := (m.drawing k s).edges
    frames := ⟨some m.node, [m.cell]⟩ :: ⟨some m.effect, [m.node]⟩ :: s.frames
    trace := .read (some m.node) m.cell (.component (some k)) :: s.trace } := rfl

theorem drawn_eq (hμ : s.nodes[m.node]? = some (.memo μ)) (ht : (m.drawing k s).Recited es t)
    (v : View) : m.drawn v t = { m.entered s with
      nodes := s.nodes.set m.node (.memo { μ with value := some (.view v), freshness := .clean })
      edges := (m.drawn v t).edges
      frames := ⟨some m.effect, [m.node]⟩ :: s.frames
      live := (m.drawn v t).live
      trace := .read (some m.effect) m.node (.view v) ::
        (es ++ .read (some m.node) m.cell (.component (some k)) :: s.trace) } := by
  obtain ⟨edges, live, rfl⟩ : ∃ edges live, t = { m.entered s with
      edges := edges
      frames := ⟨some m.node, [m.cell]⟩ :: ⟨some m.effect, [m.node]⟩ :: s.frames
      live := live
      trace := es ++ .read (some m.node) m.cell (.component (some k)) :: s.trace } :=
    ⟨t.edges, t.live, by
      rw [drawing_eq] at ht
      exact ht.same⟩
  have hnode : (m.entered s).nodes[m.node]? = some (.memo μ) := hμ
  unfold drawn
  rcases settled_cases (s := { m.entered s with
      edges := edges
      frames := ⟨some m.effect, [m.node]⟩ :: s.frames
      live := live
      trace := es ++ .read (some m.node) m.cell (.component (some k)) :: s.trace })
    hnode (.view v) with h | h
  · rw [List.tail_cons, h]
    rfl
  · rw [List.tail_cons, h]
    rfl

theorem observed_eq (hμ : s.nodes[m.node]? = some (.memo μ)) (ht : (m.drawing k s).Recited es t)
    (v : View) : m.observed s v t = { s with
      nodes := s.nodes.set m.node (.memo { μ with value := some (.view v), freshness := .clean })
      edges := (m.observed s v t).edges
      live := (m.observed s v t).live
      trace := m.told k v es ++ s.trace } := by
  rw [told_append]
  unfold observed
  rw [drawn_eq hμ ht v]
  rfl

theorem shown_of_recited (h : m.Stands s) (hμ : s.nodes[m.node]? = some (.memo μ))
    (he : s.nodes[m.effect]? = some (.effect e)) (ht : (m.drawing k s).Recited es t) (v : View) :
    m.Shown k v es s (m.shown e s v t) where
  rewires := by
    have hnodes : t.nodes = (m.drawing k s).nodes := by rw [ht.same]
    have hdrawn := ((rewires_drawing h k).trans ht.toRewires).trans
      (rewires_observed (hnodes ▸ hμ) s v)
    have hset : (m.observed s v t).Rewires (fun _ => id) (m.shown e s v t) := by
      refine rewires_setNode fun e' he' => ⟨_, rfl, ?_⟩
      rw [observed_eq hμ ht v, List.getElem?_set_ne h.ne] at he'
      obtain rfl : e = e' := by simpa [he] using he'
      rfl
    exact (hdrawn.trans hset).mono fun _ _ => rfl
  same := by
    refine ⟨μ, e, hμ, he, ?_⟩
    rw [shown, drawn_eq hμ ht v, observed_eq hμ ht v]
    rfl

/-- If the component is rendered, the effect runs and shows it, and else neither ends. -/
theorem runEffect_shows (h : m.Stands s) (hs : s.Static K) (hk : K k)
    (hcell : s.nodes[m.cell]? = some (.cell (some k)))
    (due : ∃ μ, s.nodes[m.node]? = some (.memo μ) ∧ μ.Due) (d : Nat) :
    Option.Rel (fun p q => ∃ es, p.2.trace = es ++ s.trace ∧ m.Shown k p.1 es s q.2)
      (m.draw (calls d) k s) (runEffect (calls (d + 2)) m.effect s) := by
  obtain ⟨μ, hμ, hrecipe⟩ := h.memo
  obtain ⟨e, he, hname, hbody, hd⟩ := h.effect
  have hdue : ∃ μ, s.nodes[m.node]? = some (.memo μ) ∧ μ.recipe = .mount m.cell m.props m.scope ∧
      μ.Due := by
    obtain ⟨μ', hμ', due⟩ := due
    obtain rfl : μ = μ' := by simpa [hμ] using hμ'
    exact ⟨μ, hμ, hrecipe, due⟩
  have hagrees : s.Agrees K (m.drawing k s) := ⟨hs, rfl, rfl, rfl, fun _ => rfl⟩
  have hdraw := draw_recites (m := m) hagrees hk d
  rw [Recites] at hdraw
  rw [runEffect_eq hcell hdue d he hname hbody hd]
  · generalize m.draw (calls d) k s = p at hdraw
    generalize m.draw (calls d) k (m.drawing k s) = q at hdraw
    cases hdraw with
    | none => exact .none
    | @some p q hp =>
      obtain ⟨hv, -, es, -, ht, ht'⟩ := hp
      refine .some ⟨es, by rw [ht.same], ?_⟩
      change m.Shown k p.1 es s (m.shown e s q.1 q.2)
      rw [hv]
      exact shown_of_recited h hμ he ht' p.1
  · intro v t hv
    rw [hv] at hdraw
    generalize m.draw (calls d) k s = p at hdraw
    cases hdraw with
    | some hp =>
      obtain ⟨hv, hnodes, es, -, -, ht'⟩ := hp
      refine ⟨by rw [← hv] at hnodes; exact hnodes, ?_⟩
      rw [drawn_eq hμ ht' v]
      exact (List.getElem?_set_ne h.ne).trans he

end Mounting

end HotSwap
