import HotSwap.Proofs.Mount.Read
/-!
# The text of a view

In a coherent store a view that is worth a text resolves to that text. A mounted node resolves to
what the component in its cell puts out; but if the cell holds a proxy and the node was made clean
over a plain component, then it still shows that component.
-/

namespace HotSwap

open Machine

namespace Machine

variable {s t u : Store} {n : NodeId} {x : Content} {w : View} {d e : Nat}

theorem resolveView_le (h : d ≤ e) {v : View} (hv : resolveView (calls d) v s = some (w, t)) :
    resolveView (calls e) v s = some (w, t) :=
  (resolveView_within indifferent_true.toAdmissible (calls_le h) v s hv).1

theorem resolveView_dynamic (hr : readNode (calls d) n s = some (x, t))
    (hv : resolveView (calls e) x.toView { t with pinned := x.toView.handles ++ t.pinned } =
      some (w, u)) : ∃ depth u', resolveView (calls depth) (.dynamic n) s = some (w, u') := by
  have hread : (calls (max d e + 1)).read n s = some (x, t) :=
    ((calls_le (Nat.succ_le_succ (Nat.le_max_left d e))).read n s hr).1
  have hresolve : (calls (max d e + 1)).resolve x.toView
      { t with pinned := x.toView.handles ++ t.pinned } = some (w, u) :=
    resolveView_le (Nat.le_max_right d e) hv
  refine ⟨max d e + 1, Store.collect { u with pinned := t.pinned }, ?_⟩
  simp [resolveView, hread, borrowing, keeping, hresolve, collect_apply]

theorem runRecipe_template_ends {a : Store} {body : LinkedTemplate} {out : Json → String}
    (hd : a.Depends body out) (ha : a.Precedes s) (label : String) (props : Json) :
    ∃ d x t, runRecipe (calls d) n (.template label body props) s = some (x, t) := by
  obtain ⟨d, v, t, h⟩ := hd.ends (ha.trans (.emit s (.node n label))) props
  exact ⟨d, .view v, t, by simp [runRecipe, emit, h]⟩

end Machine

namespace Store

variable {out : ComponentId → Json → String} {stood : Stood}
  {pending : NodeId → Prop}

mutual

theorem Worth.resolves {past : Store → Prop} {s : Store} {v : View} {x : String} :
    Worth past s v x → ∀ (t : Store) (past' : Store → Prop), s.Precedes t →
      (∀ a, past a → past' a) → Coherent out stood pending past' t →
        ∃ d w u, resolveView (calls d) v t = some (w, u) ∧ w.flatText = x
  | .empty => fun t _ _ _ _ => ⟨0, .empty, t, rfl, rfl⟩
  | .text => fun t _ _ _ _ => ⟨0, _, t, rfl, rfl⟩
  | .fragment h => by
    intro t past' hst hp hc
    obtain ⟨d, ws, u, hu, e⟩ := h.resolves t past' hst hp hc
    exact ⟨d, .fragment ws, u, by simp [resolveView, hu], e⟩
  | @Worth.dynamic _ _ _ n _ label _ props _ _ ha hlt hn hr hd hx => by
    intro t past' hst hp hc
    obtain ⟨m, hm, er⟩ := hst.memo hn
    obtain ⟨d, y, t', hread⟩ := readNode_ends hm fun _ => by
      rw [er, hr]
      exact runRecipe_template_ends hd ((hc.earlier (hp _ ha)).trans (precedes_started t n)) label props
    have hpreserves : Preserves out t t' := ((calls_preserves out (d + 1)).read n t hread).2
    obtain ⟨past₁, hpast₁, hc₁⟩ := hpreserves.coherent hc
    obtain ⟨m', hm', er', -, hy⟩ := readNode_holds (indifferent_steady.calls_self d) hm hread
    -- what was just read, or was read before, came of an evaluation
    obtain ⟨v, u, w, depth, rfl, hu, hlt', hw, he⟩ := hc₁.template hm' (er'.trans (er.trans hr)) hy
    have hau := hc₁.ordered (hpast₁ _ (hp _ ha)) hu (Nat.lt_of_le_of_lt hlt hlt')
    obtain ⟨e, w', u', hres, htext⟩ := hd.resolves hau he
      { t' with pinned := v.handles ++ t'.pinned } past₁ (hw.trans { Precedes.refl t' with }) hu
      (hc₁.congr rfl rfl rfl rfl)
    obtain ⟨depth, u'', h⟩ := resolveView_dynamic hread hres
    exact ⟨depth, w', u'', h, htext.trans hx.symm⟩

theorem WorthAll.resolves {past : Store → Prop} {s : Store} {vs : List View} {x : String} :
    WorthAll past s vs x → ∀ (t : Store) (past' : Store → Prop), s.Precedes t →
      (∀ a, past a → past' a) → Coherent out stood pending past' t →
        ∃ d ws u, resolveViews (calls d) vs t = some (ws, u) ∧ View.flatTextAll ws = x
  | .nil => fun t _ _ _ _ => ⟨0, [], t, rfl, rfl⟩
  | .cons hv hvs => by
    intro t past' hst hp hc
    have hR := (accommodating_preserves out).toAdmissible
    obtain ⟨d, w, u, hu, e⟩ := hv.resolves t past' hst hp hc
    have hpreserves := (resolveView_within hR (calls_preserves out d) _ _ hu).2
    obtain ⟨past₁, hpast₁, hc₁⟩ := hpreserves.coherent hc
    obtain ⟨d', ws, u', hu', e'⟩ := hvs.resolves u past₁
      (hst.trans hpreserves.toGrows.precedes) (fun a ha => hpast₁ a (hp a ha)) hc₁
    refine ⟨max d d', w :: ws, u', ?_, by simp [View.flatTextAll, e, e']⟩
    have hfirst := resolveView_le (Nat.le_max_left d d') hu
    have hrest := (resolveViews_within indifferent_true.toAdmissible
      (calls_le (Nat.le_max_right d d')) _ _ hu').1
    simp [resolveViews, hfirst, hrest]

theorem Depends.resolves {a : Store} {body : LinkedTemplate} {text : Json → String} :
    Depends a body text → ∀ {u w : Store} {depth : Nat} {props : Json} {v : View}, a.Precedes u →
      body.eval (calls depth) { props } u = some (v, w) →
        ∀ (t : Store) (past' : Store → Prop), w.Precedes t → past' u →
          Coherent out stood pending past' t →
            ∃ d w u, resolveView (calls d) v t = some (w, u) ∧ w.flatText = text props
  | .intro _ h => fun hau he t past' hwt hu hc =>
    (h hau he).resolves t past' hwt (fun _ e => e ▸ hu) hc

end

variable {past : Store → Prop} {s t : Store} {n : NodeId} {m : Memo} {k : ComponentId}

theorem Coherent.render_ends (h : Coherent out stood pending past s) {c : NodeId}
    (hk : Occupies out stood s c k) (props : Json) :
    ∃ d v t, renderComponent (calls d) k props s = some (v, t) := by
  have hfunction {j : ComponentId} {f : FunctionComponent}
      (hf : s.components[j]? = some (.function f)) (hd : Depends s f.body (out j)) :
      ∃ d v t, renderComponent (calls d) j props s = some (v, t) := by
    obtain ⟨d, v, t, he⟩ := hd.ends (.emit s (.render j f.name)) props
    exact ⟨d, v, t, by simp [renderComponent, component?_apply, hf, emit, he]⟩
  rcases hk with ⟨p, hp⟩ | ⟨f, hf, hd, -⟩
  · obtain ⟨j, hj, hoccupies⟩ := h.content hp
    by_cases hdev : ((s.components[j]?).map Component.isDev).getD false = true
    · exact ⟨0, _, _, (render_delegate _ hp hj props).trans (if_pos hdev)⟩
    · rcases hoccupies with ⟨q, hq⟩ | ⟨f, hf, hd, -⟩
      · simp [hq, Component.isDev] at hdev
      · obtain ⟨d, v, t, ht⟩ := hfunction hf hd
        exact ⟨d + 1, v, t, ((render_delegate _ hp hj props).trans (if_neg hdev)).trans ht⟩
  · exact hfunction hf hd

theorem Coherent.run_mount_ends (h : Coherent out stood pending past s) {cell : NodeId}
    {props : Json} {scope : Scope} (hn : s.nodes[n]? = some (.memo m))
    (hr : m.recipe = .mount cell props scope) :
    ∃ d x t, runRecipe (calls d) n (.mount cell props scope) s = some (x, t) := by
  obtain ⟨k₀, p, hp, rfl⟩ := h.mountable hn hr
  obtain ⟨k, hk, -⟩ := h.content hp
  obtain ⟨u, hu, -⟩ := readNode_cell (calls 0) hk
  have hread : Preserves out s u := ((calls_preserves out 1).read p.cell s hu).2
  obtain ⟨past', -, h'⟩ := hread.coherent h
  let s' : Store := { u with provided := scope, frames := { reader := none } :: u.frames }
  have h' : Coherent out stood pending past' s' := h'.congr rfl rfl rfl rfl
  obtain ⟨j, hj, ho⟩ := h'.content (hread.proxy hp)
  obtain rfl : k = j := by
    have hj' : s'.nodes[p.cell]? = some (.cell (some k)) := hread.content hk
    simpa [hj'] using hj
  obtain ⟨d, v, t, ht⟩ := h'.render_ends ho props
  have hcell : (calls (d + 1)).read p.cell s = some (.component (some k), u) :=
    ((calls_le (Nat.le_add_left 1 d)).read p.cell s hu).1
  have hrender : (calls (d + 1)).render k props s' = some (v, t) := ht
  refine ⟨d + 1, .view v, { t with provided := u.provided, frames := t.frames.tail }, ?_⟩
  simp only [runRecipe, bind_apply, hcell, Option.bind_some, inScope_apply, untracked_apply]
  change ((((calls (d + 1)).render k props s').map _).map _).bind _ = _
  rw [hrender]
  rfl

theorem Coherent.mount_ends (h : Coherent out stood pending past s) {cell : NodeId} {props : Json}
    {scope : Scope} (hn : s.nodes[n]? = some (.memo m)) (hr : m.recipe = .mount cell props scope) :
    ∃ d x t, readNode (calls d) n s = some (x, t) := by
  refine readNode_ends hn fun due => ?_
  obtain ⟨past', -, h'⟩ := h.started hn due
  rw [hr]
  exact h'.run_mount_ends (by rwa [nodes_started]) hr

end Store

end HotSwap
