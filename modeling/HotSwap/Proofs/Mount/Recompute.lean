import HotSwap.Proofs.Mount.Rendered
/-!
# Recomputing a node

A mounted node subscribes to its cell before it renders what the cell holds. So when it is clean
again, it hears of the next redirection, and its view is one that the cell's content calls for.
-/

namespace HotSwap

open Machine

namespace Store

variable {out : ComponentId → Json → String} {stood : Stood}
  {pending : NodeId → Prop} {past : Store → Prop} {s t : Store} {n : NodeId} {m : Memo}

theorem Coherent.unsubscribe (h : Coherent out stood pending past s)
    (hn : s.nodes[n]? = some (.memo m)) (due : m.Due) :
    Coherent out stood pending past { s with edges := Edges.unsubscribe s.edges n } where
  earlier a ha := { h.earlier ha with }
  ordered := h.ordered
  proxied := h.proxied
  standing c x hx := by
    obtain ⟨j, hj, ho⟩ := h.standing hx
    exact ⟨j, hj, ho.mono (fun _ _ => id) { Precedes.refl s with }⟩
  template l m' _ _ _ _ hl hr hx := (h.template hl hr hx).mono { Precedes.refl s with }
  mountable := h.mountable
  mount l m' cell _ _ x hl hr hf hx hlive := by
    have hne : l ≠ n := by
      rintro rfl
      obtain rfl : m = m' := by simpa [hn] using hl
      simp [due hf] at hx
    obtain ⟨v, rfl, hv⟩ := h.mount hl hr hf hx hlive
    exact ⟨v, rfl, hv.mono (fun _ => id) { Precedes.refl s with }
      ((Edges.mem_readers_unsubscribe _).2 ⟨hv.subscribed, hne⟩) (.inr id) fun _ => id⟩

theorem steady_filled (hn : s.nodes[n]? = some (.memo m)) (x : Content) :
    s.Steady (s.filled n m x) := by
  refine .set_node hn (by simp) ?_
  rintro _ ⟨⟩
  exact ⟨_, rfl, rfl⟩

theorem Coherent.filled (h : Coherent out stood pending past s)
    (hn : s.nodes[n]? = some (.memo m)) {x : Content}
    (ht : ∀ {label body props}, m.recipe = .template label body props →
      Evaluated past s n body props x)
    (hm : ∀ {cell props scope}, m.recipe = .mount cell props scope → .node n ∈ s.live →
      ∃ v, x = .view v ∧ Mounted out stood pending past s n cell props v) :
    Coherent out stood pending past (s.filled n m x) := by
  have hs := steady_filled hn x
  have hst := hs.toGrows.precedes
  have hself : (s.filled n m x).nodes[n]? =
      some (.memo { m with value := some x, freshness := .clean }) :=
    List.getElem?_set_self (List.getElem?_eq_some_iff.1 hn).1
  have hne {l : NodeId} (hl : n ≠ l) : (s.filled n m x).nodes[l]? = s.nodes[l]? :=
    List.getElem?_set_ne hl
  have hcell {c : NodeId} {k : Option ComponentId}
      (hc : (s.filled n m x).nodes[c]? = some (.cell k)) : s.nodes[c]? = some (.cell k) := by
    by_cases hl : n = c
    · subst hl
      simp [hself] at hc
    · rwa [hne hl] at hc
  refine ⟨fun a ha => (h.earlier ha).trans hst, h.ordered, fun k p hp => ?_, fun c y hy => ?_,
    fun l m' _ _ _ y hl hr hy => ?_, fun l m' hl => ?_, fun l m' cell _ _ y hl hr hf hy hlive => ?_⟩
  · obtain ⟨y, hy⟩ := h.proxied hp
    exact ⟨y, hs.content hy⟩
  · obtain ⟨j, hj, ho⟩ := h.standing (hcell hy)
    exact ⟨j, hj, ho.mono (fun _ _ => id) hst⟩
  · by_cases e : n = l
    · subst e
      obtain rfl : _ = m' := by simpa [hself] using hl
      obtain rfl : x = y := by simpa using hy
      exact (ht hr).mono hst
    · rw [hne e] at hl
      exact (h.template hl hr hy).mono hst
  · by_cases e : n = l
    · subst e
      obtain rfl : _ = m' := by simpa [hself] using hl
      exact Mountable.mono (h.mountable hn) hst
    · rw [hne e] at hl
      exact Mountable.mono (h.mountable hl) hst
  · by_cases e : n = l
    · subst e
      obtain rfl : _ = m' := by simpa [hself] using hl
      obtain rfl : x = y := by simpa using hy
      obtain ⟨v, rfl, hv⟩ := hm hr hlive
      exact ⟨v, rfl, hv.mono (fun _ => id) hst hv.subscribed (.inr hs.content) fun _ => id⟩
    · rw [hne e] at hl
      obtain ⟨v, rfl, hv⟩ := h.mount hl hr hf hy hlive
      exact ⟨v, rfl, hv.mono (fun _ => id) hst hv.subscribed (.inr hs.content) fun _ => id⟩

theorem Coherent.settled (h : Coherent out stood pending past s) (hn : s.nodes[n]? = some (.memo m))
    {x : Content}
    (ht : ∀ {label body props}, m.recipe = .template label body props →
      Evaluated past s n body props x)
    (hm : ∀ {cell props scope}, m.recipe = .mount cell props scope → .node n ∈ s.live →
      ∃ v, x = .view v ∧ Mounted out stood pending past s n cell props v) :
    Coherent out stood pending past (s.settled n x) := by
  have hfilled := h.filled hn ht hm
  rcases settled_cases hn x with e | e <;> rw [e]
  · exact hfilled
  · exact hfilled.mild (.collect _)

theorem live_settled (hn : s.nodes[n]? = some (.memo m)) {x : Content} {h : Handle}
    (hl : h ∈ (s.settled n x).live) : h ∈ s.live := by
  rcases settled_cases hn x with e | e <;> rw [e] at hl
  · exact hl
  · exact survivors_subset (s.filled n m x) hl

theorem mem_readers_settled (hn : s.nodes[n]? = some (.memo m)) {x : Content} {l source : NodeId}
    (h : l ∈ Edges.readers s.edges source) (hl : .node l ∈ (s.settled n x).live) :
    l ∈ Edges.readers (s.settled n x).edges source := by
  rcases settled_cases hn x with e | e <;> rw [e] at hl ⊢
  · exact h
  · exact mem_readers_collect _ h hl

end Store

open Store

namespace Machine

variable {s t : Store} {n cell : NodeId} {m : Memo} {x : Content} {d : Nat}

theorem runRecipe_mount_eq_some {c : Calls} {props : Json} {scope : Scope}
    (h : runRecipe c n (.mount cell props scope) s = some (x, t)) :
    ∃ y u, c.read cell s = some (y, u) ∧
      ((∀ k, y ≠ .component (some k)) ∧ t = u ∨
        ∃ k v w, y = .component (some k) ∧ x = .view v ∧
          c.render k props { u with
            provided := scope, frames := { reader := none } :: u.frames } = some (v, w) ∧
          t = { w with provided := u.provided, frames := w.frames.tail }) := by
  obtain ⟨y, u, hu, h⟩ := bind_eq_some.1 h
  refine ⟨y, u, hu, ?_⟩
  split at h
  · rename_i k
    obtain ⟨v, w', hscope, h⟩ := bind_eq_some.1 h
    cases h
    obtain ⟨w, hframe, rfl⟩ := inScope_eq_some.1 hscope
    rw [untracked_apply] at hframe
    obtain ⟨⟨v, w⟩, hw, e⟩ := Option.map_eq_some_iff.1 hframe
    cases e
    exact .inr ⟨k, v, w, rfl, rfl, hw, rfl⟩
  · rename_i hy
    cases h
    exact .inl ⟨fun k => hy k, rfl⟩

theorem read_tracked (d : Nat) {r cell : NodeId} {sources : List NodeId} {rest : List Frame}
    (hf : s.frames = ⟨some r, sources⟩ :: rest) :
    (calls d).read cell s = (calls d).read cell (s.tracked cell) ∧
      r ∈ Edges.readers (s.tracked cell).edges cell := by
  obtain ⟨sources', hr, hc⟩ : ∃ sources', (Frame.mk (some r) sources).reading cell =
      ⟨some r, sources'⟩ ∧ cell ∈ sources' := by
    unfold Frame.reading
    split
    · exact ⟨_, rfl, by simp⟩
    · exact ⟨_, rfl, by simp_all⟩
  have hs : s.tracked cell = { s with
      frames := ⟨some r, sources'⟩ :: rest, edges := Edges.subscribe s.edges cell r } := by
    rw [Store.tracked, hf, ← hr]
  have hmem : r ∈ Edges.readers (Edges.subscribe s.edges cell r) cell :=
    Edges.mem_readers_subscribe_self _
  refine ⟨?_, by rw [hs]; exact hmem⟩
  -- it is subscribed already, and the source is listed already
  have hidem : (s.tracked cell).tracked cell = s.tracked cell := by
    rw [hs, Store.tracked]
    simp [Frame.reading, hc, Edges.subscribe_of_mem hmem]
  cases d with
  | zero => rfl
  | succ d =>
    change readNode (calls d) cell s = readNode (calls d) cell (s.tracked cell)
    simp only [readNode, bind_apply, track_eq, hidem]

variable {out : ComponentId → Json → String} (hc : (calls d).Within (Preserves out) (calls d))

include hc

theorem runRecipe_mount_subscribed {props : Json} {scope : Scope} {sources : List NodeId}
    {rest : List Frame} (hf : s.frames = ⟨some n, sources⟩ :: rest)
    (hn : s.nodes[n]? = some (.memo m)) (hr : m.recipe = .mount cell props scope)
    (h : runRecipe (calls d) n (.mount cell props scope) s = some (x, t))
    (hl : .node n ∈ t.live) : n ∈ Edges.readers t.edges cell := by
  have hR := (accommodating_preserves out).toAdmissible
  obtain ⟨hread, hmem⟩ : (calls d).read cell s = (calls d).read cell (s.tracked cell) ∧
      n ∈ Edges.readers (s.tracked cell).edges cell := read_tracked d hf
  -- from the subscription on, the run is an ordinary one
  have hrun : runRecipe (calls d) n (.mount cell props scope) (s.tracked cell) = some (x, t) := by
    rw [← h]
    simp only [runRecipe, bind_apply, hread]
  have hn' : (s.tracked cell).nodes[n]? = some (.memo m) := by rwa [nodes_tracked]
  exact (runRecipe_within hR hc n _ _ hrun).2.subscribed hn' hr hl hmem

variable {stood : Stood} {pending : NodeId → Prop} {past : Store → Prop}

theorem runRecipe_mount_coherent (h : Coherent out stood pending past s) {props : Json}
    {scope : Scope} {sources : List NodeId} {rest : List Frame}
    (hf : s.frames = ⟨some n, sources⟩ :: rest) (hn : s.nodes[n]? = some (.memo m))
    (hr : m.recipe = .mount cell props scope)
    (ht : runRecipe (calls d) n (.mount cell props scope) s = some (x, t)) :
    ∃ past', (∀ a, past a → past' a) ∧ Coherent out stood pending past' t ∧
      (.node n ∈ t.live → ∃ v, x = .view v ∧ Mounted out stood pending past' t n cell props v) := by
  obtain ⟨k₀, p, hp, rfl⟩ := h.mountable hn hr
  obtain ⟨y, u, hu, hcases⟩ := runRecipe_mount_eq_some ht
  have hread := (hc.read _ _ hu).2
  obtain ⟨past₁, hpast₁, h₁⟩ := hread.coherent h
  obtain ⟨k, hk, -⟩ := h.content hp
  obtain rfl : y = .component (some k) := by
    obtain ⟨_, hcell, -⟩ := readNode_cell (calls d) hk
    have hread : readNode (calls d) p.cell s = some (y, u) :=
      ((calls_le (Nat.le_succ d)).read p.cell s hu).1
    rw [hcell] at hread
    cases hread
    rfl
  rcases hcases with ⟨hne, -⟩ | ⟨k', v, w, hk', rfl, hw, hback⟩
  · exact absurd rfl (hne k)
  · cases hk'
    let s' : Store := { u with provided := scope, frames := { reader := none } :: u.frames }
    have h' : Coherent out stood pending past₁ s' := h₁.congr rfl rfl rfl rfl
    have hp' : s'.components[k₀]? = some (.proxy p) := hread.proxy hp
    have hk' : s'.nodes[p.cell]? = some (.cell (some k)) := hread.content hk
    obtain ⟨j, hj, ho⟩ := h'.content hp'
    obtain rfl : k = j := by simpa [hk'] using hj
    have hrender : renderComponent (calls d) k props s' = some (v, w) :=
      ((calls_le (Nat.le_succ d)).render k props s' hw).1
    obtain ⟨past₂, hpast₂, h₂, -, hv⟩ := h'.render hc ho hrender
    have hwt : w.Precedes t := hback ▸ { Precedes.refl w with }
    refine ⟨past₂, fun a ha => hpast₂ a (hpast₁ a ha), ?_, fun hl => ⟨v, rfl, ?_, .inr ⟨k, ?_, ?_⟩,
      ?_, ?_⟩⟩
    · rw [hback]
      exact h₂.congr rfl rfl rfl rfl
    · exact runRecipe_mount_subscribed hc hf hn hr ht hl
    · rw [hback]
      exact (hc.render k props s' hw).2.content hk'
    · exact (hv.fits n).mono (fun _ => id) hwt
    · rw [hback]
      exact hv.known
    · rw [hback]
      exact fun n' m' _ _ _ e hn' hr' => (hv.held e hn' hr').1

theorem runRecipe_template_coherent (h : Coherent out stood pending past s) {label : String}
    {body : LinkedTemplate} {props : Json} (hn : s.nodes[n]? = some (.memo m))
    (ht : runRecipe (calls d) n (.template label body props) s = some (x, t)) :
    ∃ past', (∀ a, past a → past' a) ∧ Coherent out stood pending past' t ∧
      Evaluated past' t n body props x := by
  have hR := (accommodating_preserves out).toAdmissible
  simp only [runRecipe, emit, bind_apply, modify_apply, Option.bind_some] at ht
  obtain ⟨⟨v, w⟩, hw, e⟩ := Option.bind_eq_some_iff.1 ht
  cases e
  obtain ⟨past₁, hpast₁, h₁⟩ := (hR.emit s (.node n label)).coherent h
  obtain ⟨past₂, hpast₂, h₂⟩ := (Template.eval_within hR hc { props } body _ hw).2.coherent h₁.remember
  exact ⟨past₂, fun a ha => hpast₂ a (.inl (hpast₁ a ha)), h₂, v, _, _, d, rfl, hpast₂ _ (.inr rfl),
    (List.getElem?_eq_some_iff.1 hn).1, .refl _, hw⟩

theorem recompute_coherent (h : Coherent out stood pending past s) (hn : s.nodes[n]? = some (.memo m))
    (due : m.Due) (ht : recompute (calls d) n m s = some (x, t)) :
    ∃ past', (∀ a, past a → past' a) ∧ Coherent out stood pending past' t := by
  have hR := (accommodating_preserves out).toAdmissible
  obtain ⟨u, hu, rfl⟩ := recompute_eq_some ht
  have hrun := (runRecipe_within hR hc n m.recipe _ hu).2
  have h₁ : Coherent out stood pending past { s with
      edges := Edges.unsubscribe s.edges n, frames := { reader := some n } :: s.frames } :=
    (h.unsubscribe hn due).congr rfl rfl rfl rfl
  obtain ⟨m', hm', er⟩ := hrun.memo hn
  have pop {past' : Store → Prop} (h' : Coherent out stood pending past' u) :
      Coherent out stood pending past' { u with frames := u.frames.tail } :=
    h'.congr rfl rfl rfl rfl
  cases hrecipe : m.recipe with
  | value name body =>
    obtain ⟨past', hpast, h'⟩ := hrun.coherent h₁
    refine ⟨past', hpast, (pop h').settled hm' (fun hr => ?_) fun hr => ?_⟩ <;>
      · rw [er, hrecipe] at hr
        cases hr
  | template label body props =>
    rw [hrecipe] at hu
    obtain ⟨past', hpast, h', htemplate⟩ := runRecipe_template_coherent hc h₁ hn hu
    refine ⟨past', hpast, (pop h').settled hm' (fun hr => ?_) fun hr => ?_⟩
    · rw [er, hrecipe] at hr
      cases hr
      exact htemplate.mono { Precedes.refl u with }
    · rw [er, hrecipe] at hr
      cases hr
  | mount cell props scope =>
    rw [hrecipe] at hu
    obtain ⟨past', hpast, h', hmounted⟩ := runRecipe_mount_coherent hc h₁ rfl hn hrecipe hu
    refine ⟨past', hpast, (pop h').settled hm' (fun hr => ?_) fun hr hl => ?_⟩
    · rw [er, hrecipe] at hr
      cases hr
    · rw [er, hrecipe] at hr
      cases hr
      obtain ⟨v, hv, hm⟩ := hmounted hl
      exact ⟨v, hv, hm.mono (fun _ => id) { Precedes.refl u with } hm.subscribed (.inr id) fun _ => id⟩

theorem recompute_preserves (hn : s.nodes[n]? = some (.memo m)) (due : m.Due)
    (ht : recompute (calls d) n m s = some (x, t)) : Preserves out s t where
  toSteady := (recompute_within indifferent_steady (indifferent_steady.calls_self d) n m s ht).2
  subscribed {l m₁ cell props scope} hl hr hlive hmem := by
    have hR := (accommodating_preserves out).toAdmissible
    obtain ⟨u, hu, rfl⟩ := recompute_eq_some ht
    have hrun := (runRecipe_within hR hc n m.recipe _ hu).2
    obtain ⟨m', hm', -⟩ := hrun.memo hn
    have hlive' : .node l ∈ u.live :=
      live_settled (s := { u with frames := u.frames.tail }) hm' hlive
    have hmem' : l ∈ Edges.readers u.edges cell := by
      by_cases e : l = n
      · -- it lost its subscription, and subscribed again
        subst e
        obtain rfl : m = m₁ := by simpa [hn] using hl
        rw [hr] at hu
        refine runRecipe_mount_subscribed hc rfl ?_ hr hu hlive'
        exact hn
      · exact hrun.subscribed hl hr hlive' ((Edges.mem_readers_unsubscribe _).2 ⟨hmem, e⟩)
    exact mem_readers_settled (s := { u with frames := u.frames.tail }) hm' hmem' hlive
  coherent h := recompute_coherent hc h hn due ht

end Machine

/-- No call of a program makes a store incoherent. -/
theorem calls_preserves (out : ComponentId → Json → String) :
    ∀ d, (calls d).Within (Preserves out) (calls d)
  | 0 => Calls.none_within _ _
  | d + 1 => Calls.next_within (accommodating_preserves out).toAdmissible (calls_preserves out d)
    fun _ _ _ hn due _ _ ht => ⟨ht, recompute_preserves (calls_preserves out d) hn due ht⟩

theorem Action.run_preserves (out : ComponentId → Json → String) (a : Action) {s t : Store}
    (h : a.run s = some ((), t)) : Preserves out s t :=
  (a.run_within (accommodating_preserves out) (calls_preserves out nesting) s h).2

end HotSwap
