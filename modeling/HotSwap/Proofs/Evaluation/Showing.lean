import Mathlib.Logic.Relation
import HotSwap.Proofs.Component.Chain
import HotSwap.Proofs.Evaluation.Reading
import HotSwap.Proofs.Evaluation.Shifted
import HotSwap.Proofs.Evaluation.Steady
/-!
# What a component shows

A component shows a text if rendering it, and resolving the view, ends in that text. A proxy shows
what the component in its cell shows, whether it renders that component at once or mounts a node that
renders it when it is read.
-/

namespace HotSwap

open Machine

def Machine.showing (c : Calls) (k : ComponentId) (props : Json) : Machine String := do
  textOf c (← c.render k props)

namespace Store

def Shows (s : Store) (k : ComponentId) (props : Json) (text : String) : Prop :=
  ∃ depth t, showing (calls depth) k props s = some (text, t)

/-- No computation runs whose reads are tracked. -/
def Untracked (s : Store) : Prop := s.frames.head?.bind Frame.reader = none

/-- `h'` is held by `h`, by what `h` holds, and so on. -/
def Reaches (s : Store) : Handle → Handle → Prop :=
  Relation.ReflTransGen fun h h' => h' ∈ s.contents h

/-- Whatever a component reaches exists, and its bodies write nothing. -/
structure Quiet (s : Store) (k : ComponentId) : Prop where
  node : ∀ n, s.Reaches (.component k) (.node n) → n < s.nodes.length
  recipe : ∀ n m, s.Reaches (.component k) (.node n) → s.nodes[n]? = some (.memo m) →
    m.recipe.writes = false
  function : ∀ j f, s.Reaches (.component k) (.component j) →
    s.components[j]? = some (.function f) → f.body.writes = false

theorem Reaches.component {s : Store} {h x : Handle} {k : ComponentId} {c : Component}
    (hr : s.Reaches h (.component k)) (hc : s.components[k]? = some c) (hx : x ∈ c.handles) :
    s.Reaches h x := by
  refine hr.tail ?_
  simpa [contents, hc] using hx

theorem Reaches.node {s : Store} {h x : Handle} {n : NodeId} {y : Node}
    (hr : s.Reaches h (.node n)) (hn : s.nodes[n]? = some y) (hx : x ∈ y.handles) :
    s.Reaches h x := by
  refine hr.tail ?_
  simpa [contents, hn] using hx

theorem Quiet.closed {s : Store} {k : ComponentId} (h : s.Quiet k) :
    s.Closed s.nodes.length (s.Reaches (.component k)) := by
  have known {n : NodeId} {x : Node} (hn : Known s.nodes.length (s.Reaches (.component k)) (.node n))
      (hx : s.nodes[n]? = some x) : s.Reaches (.component k) (.node n) := by
    rcases hn with hge | hr
    · exact absurd (List.getElem?_eq_some_iff.1 hx).1 (Nat.not_lt.2 hge)
    · exact hr
  refine ⟨fun j f hj hf => ⟨h.function j f hj hf, fun x hx => hj.component hf hx⟩,
    fun j p hj hp => hj.component hp (List.mem_singleton_self _),
    fun n j hn hc => (known hn hc).node hc (List.mem_singleton_self _), fun n m hn hm => ?_,
    fun n m x hn hm hv y hy => ?_⟩
  · exact ⟨h.recipe n m (known hn hm) hm, fun x hx =>
      (known hn hm).node hm (List.mem_append_left _ hx)⟩
  · refine .of_mem ((known hn hm).node hm (List.mem_append_right _ ?_))
    simpa [hv] using hy

def mounted (s : Store) (cell : NodeId) (props : Json) : Store :=
  { s with
    nodes := s.nodes ++ [.memo { recipe := .mount cell props s.provided }]
    live := .node s.nodes.length :: s.live }

end Store

namespace Machine

theorem readNode_cell (c : Calls) {n : NodeId} {k : Option ComponentId} {s : Store}
    (h : s.nodes[n]? = some (.cell k)) :
    ∃ t, readNode c n s = some (.component k, t) ∧ s.Alike t := by
  obtain ⟨_, u, hu, hs⟩ := Store.Alike.track n s
  have hn : u.nodes[n]? = some (.cell k) := by rw [hs.nodes, h]
  refine ⟨{ u with trace := .read (u.frames.head?.bind Frame.reader) n (.component k) :: u.trace },
    ?_, { hs with }⟩
  simp [readNode, content, hu, node?_apply, hn, reader_apply, emit]

end Machine

section

variable {N : Nat} {H : Handle → Prop} {P : Scope} {F F' : List (Option NodeId)} {s s' : Store}
  {V : α → β → Prop} {W : α → γ → Prop} {x : Option (α × Store)} {m : Machine β}

theorem Agree.bind_right {f : β → Machine γ} (h : Agree N H P F F' V x (m s'))
    (hf : ∀ a b t t', V a b → Shifted N H P F F' t t' →
      ∃ c u, f b t' = some (c, u) ∧ W a c ∧ Shifted N H P F F' t u) :
    Agree N H P F F' W x ((m >>= f) s') := by
  rw [bind_apply]
  generalize m s' = y at h
  cases h with
  | none => exact .none
  | @some p q hp =>
    obtain ⟨c, u, hc, hw, hu⟩ := hf _ _ _ _ hp.1 hp.2
    rw [Option.bind_some, hc]
    exact .some ⟨hw, hu⟩

theorem Agree.inFrame_right {r : Option NodeId}
    (h : Agree N H P F (r :: F') V x (m { s' with frames := { reader := r } :: s'.frames })) :
    Agree N H P F F' (fun a p => V a p.1) x (inFrame r m s') := by
  rw [inFrame_apply]
  generalize m { s' with frames := { reader := r } :: s'.frames } = y at h
  cases h with
  | none => exact .none
  | some hp =>
    obtain ⟨hv, hu⟩ := hp
    refine .some ⟨hv, { hu with readers' := ?_ }⟩
    simpa using congrArg List.tail hu.readers'

theorem Shifted.settled (h : Shifted N H P F F' s s') (x : Content) :
    Shifted N H P F F' s (s'.settled N x) := by
  have hset (y : Node) : Shifted N H P F F' s { s' with nodes := s'.nodes.set N y } :=
    { h with
      length := by simpa using h.length
      nodes := fun n hn => by rw [List.getElem?_set_ne (lift_ne N n).symm, h.nodes n hn] }
  unfold Store.settled
  split
  · exact h
  · dsimp only
    split
    · exact (hset _).alike (.refl _) { Store.Alike.refl _ with }
    · exact hset _

theorem Agree.readNode_mounted (hN : ∀ n, H (.node n) → n < N) (e : Nat) {cell : NodeId}
    {k : ComponentId} {props : Json} (h : Shifted N H P F F' s s') (hF : tracked F = false)
    (hF' : tracked F' = false)
    (hx : s'.nodes[N]? = some (.memo { recipe := .mount cell props P }))
    (hc : s'.nodes[cell]? = some (.cell (some k))) (hk : H (.component k)) :
    Agree N H P F F' (fun v y => ∃ v', y = .view v' ∧ v.Alike N H v')
      ((calls (e + 1)).render k props s) (readNode (calls (e + 1)) N s') := by
  have htop : s'.frames.head?.bind Frame.reader = none := by
    rw [tracked, ← h.readers'] at hF'
    cases hf : s'.frames <;> simp_all
  have htrack : track N s' = some ((), s') := by
    rw [track_apply]
    split
    · rename_i hf
      simp [hf] at htop
    · rfl
  -- what the frame of the node runs: a read of the cell, then the render
  have hrun : Agree N H P F F' (fun v p => ∃ v', p.1 = Content.view v' ∧ v.Alike N H v')
      ((calls (e + 1)).render k props s)
      (inFrame (some N) (runRecipe (calls (e + 1)) N (.mount cell props P))
        { s' with edges := Edges.unsubscribe s'.edges N }) := by
    refine .inFrame_right (V := fun (v : View) y => ∃ v', y = Content.view v' ∧ v.Alike N H v') ?_
    obtain ⟨t, ht, hst⟩ := readNode_cell (calls e) (n := cell) (s := { s' with
      edges := Edges.unsubscribe s'.edges N
      frames := { reader := some N } :: s'.frames }) hc
    have hread : (calls (e + 1)).read cell = readNode (calls e) cell := rfl
    simp only [runRecipe, bind_apply, hread, ht, Option.bind_some, inScope_apply]
    have hshift : Shifted N H P F (none :: some N :: F') s
        { t with provided := P, frames := { reader := none } :: t.frames } := by
      refine { h with
        length := ?_, nodes := ?_, components := ?_, contexts := ?_, providers := ?_
        provided' := rfl, readers' := ?_ }
      · exact hst.nodes ▸ h.length
      · exact hst.nodes ▸ h.nodes
      · exact hst.components.trans h.components
      · exact hst.contexts.trans h.contexts
      · exact hst.providers.trans h.providers
      · simpa [h.readers'] using hst.readers
    have hrel := (calls_alike hN (e + 1)).render k props hk (hF.trans rfl) hshift
    rw [untracked_apply]
    generalize (calls (e + 1)).render k props s = x at hrel
    generalize (calls (e + 1)).render k props _ = y at hrel
    cases hrel with
    | none => exact .none
    | some hp =>
      refine .some ⟨⟨_, rfl, hp.1⟩, { hp.2 with provided' := ?_, readers' := ?_ }⟩
      · exact hst.provided.trans h.provided'
      · simpa using congrArg List.tail hp.2.readers'
  have hrecompute : Agree N H P F F' (fun v y => ∃ v', y = Content.view v' ∧ v.Alike N H v')
      ((calls (e + 1)).render k props s)
      (recompute (calls (e + 1)) N { recipe := .mount cell props P } s') := by
    have hbind : recompute (calls (e + 1)) N { recipe := .mount cell props P } s' =
        (inFrame (some N) (runRecipe (calls (e + 1)) N (.mount cell props P)) >>= fun p => do
          settleMemo N p.1
          return p.1) { s' with edges := Edges.unsubscribe s'.edges N } := rfl
    rw [hbind]
    refine hrun.bind_right fun v p t t' hv ht => ?_
    exact ⟨p.1, _, by simp [settleMemo_apply], hv, ht.settled p.1⟩
  have hread : readNode (calls (e + 1)) N s' =
      (recompute (calls (e + 1)) N { recipe := .mount cell props P } >>= fun y =>
        reader >>= fun r => emit (.read r N y) >>= fun _ => pure y) s' := by
    simp [readNode, content, htrack, node?_apply, hx, memoContent]
  rw [hread]
  refine hrecompute.bind_right fun v y t t' hv ht => ?_
  exact ⟨y, _, rfl, hv, ht.alike (.refl _) { Store.Alike.refl _ with }⟩

end

namespace Machine

theorem textOf_apply (c : Calls) (v : View) (s : Store) :
    textOf c v s = (c.resolve v { s with pinned := v.handles ++ s.pinned }).map fun p =>
      (p.1.flatText, Store.collect { p.2 with pinned := s.pinned }) := by
  simp only [textOf, borrowing, keeping, bind_apply, modify_apply, get_apply, Option.bind_some]
  rcases c.resolve v { s with pinned := v.handles ++ s.pinned } with _ | ⟨w, t⟩ <;>
    simp [collect_apply]

def showingTo (d e : Nat) (k : ComponentId) (props : Json) : Machine String := do
  textOf (calls e) (← (calls d).render k props)

theorem showingTo_le {d d' e e' : Nat} (hd : d ≤ d') (he : e ≤ e') (k : ComponentId)
    (props : Json) :
    Within (fun _ _ => True) (showingTo d e k props) (showingTo d' e' k props) :=
  .bind (fun _ _ _ _ _ => trivial) ((calls_le hd).render k props) fun v =>
    textOf_within indifferent_true.toAdmissible (calls_le he) v

end Machine

namespace Store

variable {s : Store} {q k : ComponentId} {props : Json} {text : String}

theorem shows_iff : s.Shows k props text ↔ ∃ d e t, showingTo d e k props s = some (text, t) := by
  constructor
  · rintro ⟨d, t, h⟩
    exact ⟨d, d, t, h⟩
  · rintro ⟨d, e, t, h⟩
    exact ⟨max d e, t, (showingTo_le (Nat.le_max_left d e) (Nat.le_max_right d e) k props s h).1⟩

theorem render_delegate (c : Calls) {p : Proxy} (hp : s.components[q]? = some (.proxy p))
    (hc : s.nodes[p.cell]? = some (.cell (some k))) (props : Json) :
    renderComponent c q props s =
      if ((s.components[k]?).map Component.isDev).getD false then
        some (.dynamic s.nodes.length, s.mounted p.cell props)
      else c.render k props s := by
  have hheld : s.held p.cell = some k := by simp [held, hc]
  simp only [renderComponent, bind_apply, component?_apply, hp, Option.bind_some, renderProxy,
    cellContent_apply, hheld, isDev_apply]
  split <;> rfl

theorem Quiet.shifted (h : s.Quiet k) (cell : NodeId) (props : Json) (pinned : List Handle) :
    Shifted s.nodes.length (s.Reaches (.component k)) s.provided (s.frames.map Frame.reader)
      (s.frames.map Frame.reader) s { s.mounted cell props with pinned } where
  closed := h.closed
  bound := Nat.le_refl _
  length := by simp [mounted]
  nodes := fun n hn => by
    rcases hn with hge | hr
    · rw [lift_of_le hge, List.getElem?_eq_none hge]
      exact List.getElem?_eq_none (by simpa [mounted] using hge)
    · have hlt := h.node n hr
      rw [lift_of_lt hlt, mounted, List.getElem?_append_left hlt]
      cases hn : s.nodes[n]? with
      | none => rfl
      | some x =>
        cases x with
        | memo m =>
          obtain ⟨recipe, value, freshness⟩ := m
          rcases value with _ | (_ | v | _)
          case some.view =>
            have hv : v.lift s.nodes.length = v := by
              refine View.lift_of_lt fun j hj => h.node j (hr.node hn ?_)
              exact List.mem_append_right _ (List.mem_map_of_mem hj)
            simp [Node.lift, Content.lift, hv]
          all_goals rfl
        | _ => rfl
  components := rfl
  contexts := rfl
  providers := rfl
  provided := rfl
  provided' := rfl
  readers := rfl
  readers' := rfl

/-- A mounted node shows what the component in its cell shows, a few levels deeper. -/
theorem Quiet.showing_mounted (h : s.Quiet k) (hu : s.Untracked) {p : Proxy}
    (hp : s.components[q]? = some (.proxy p)) (hc : s.nodes[p.cell]? = some (.cell (some k)))
    (hdev : ((s.components[k]?).map Component.isDev).getD false = true) (e : Nat) :
    Option.Rel (fun x y => y.1 = x.1) (showingTo (e + 1) (e + 2) k props s)
      (showing (calls (e + 3)) q props s) := by
  have hF : HotSwap.tracked (s.frames.map Frame.reader) = false := by
    unfold Untracked at hu
    cases hf : s.frames <;> simp_all [HotSwap.tracked]
  have hcell : (s.nodes ++ [Node.memo { recipe := .mount p.cell props s.provided }])[p.cell]? =
      some (.cell (some k)) := getElem?_append_of_some hc
  have hnode : (s.mounted p.cell props).nodes[s.nodes.length]? =
      some (.memo { recipe := .mount p.cell props s.provided }) := by simp [mounted]
  have hread := Agree.readNode_mounted (fun n hn => h.node n hn) e
    (h.shifted p.cell props (.node s.nodes.length :: s.pinned)) hF hF hnode hcell .refl
  have hrender : (calls (e + 3)).render q props s =
      some (.dynamic s.nodes.length, s.mounted p.cell props) :=
    (render_delegate (calls (e + 2)) hp hc props).trans (if_pos hdev)
  have hright : showing (calls (e + 3)) q props s =
      ((readNode (calls (e + 1)) s.nodes.length >>= fun y =>
        borrowing y.toView ((calls (e + 2)).resolve y.toView))
          { s.mounted p.cell props with pinned := .node s.nodes.length :: s.pinned }).map fun r =>
            (r.1.flatText, Store.collect { r.2 with pinned := s.pinned }) := by
    simp only [showing, bind_apply, hrender, Option.bind_some, textOf_apply]
    rfl
  -- the node is read, and then its view is resolved, as the rendered view is on the left
  have hresolve := hread.bind (W := fun text w => w.flatText = text)
    (f := textOf (calls (e + 2)))
    (g := fun y => borrowing y.toView ((calls (e + 2)).resolve y.toView)) ?_
  · rw [hright, showingTo]
    generalize ((calls (e + 1)).render k props >>= textOf (calls (e + 2))) s = x at hresolve
    generalize (readNode _ _ >>= _) _ = y at hresolve
    cases hresolve with
    | none => exact .none
    | some hw => exact .some hw.1
  · rintro v _ t t' ⟨v', rfl, rfl, hv⟩ ht
    have hrel := Alike.borrowing v (v.lift s.nodes.length)
      ((calls_alike h.node (e + 2)).resolve v hv) rfl ht
    have htext : textOf (calls (e + 2)) v t =
        (borrowing v ((calls (e + 2)).resolve v) t).map fun r => (r.1.flatText, r.2) := by
      simp only [textOf, bind_apply]
      cases borrowing v ((calls (e + 2)).resolve v) t <;> rfl
    rw [htext]
    dsimp only [Content.toView]
    generalize borrowing v ((calls (e + 2)).resolve v) t = x at hrel
    generalize borrowing _ _ t' = y at hrel
    cases hrel with
    | none => exact .none
    | some hw => exact .some hw

/-- A proxy shows what it delegates to, whenever no reads are tracked. -/
theorem shows_iff_of_delegates (hd : s.Delegates q k) (h : s.Quiet k) (hu : s.Untracked) :
    s.Shows q props text ↔ s.Shows k props text := by
  obtain ⟨p, hp, hc⟩ := hd
  cases hdev : ((s.components[k]?).map Component.isDev).getD false with
  | true =>
    constructor
    · rintro ⟨d, t, ht⟩
      have hrel : Option.Rel (fun x y => y.1 = x.1) (showingTo (d + 1) (d + 2) k props s)
          (showing (calls (d + 3)) q props s) := h.showing_mounted hu hp hc hdev d
      have hq : showing (calls (d + 3)) q props s = some (text, t) :=
        (showingTo_le (Nat.le_add_right d 3) (Nat.le_add_right d 3) q props s ht).1
      rw [hq] at hrel
      generalize hk : showingTo (d + 1) (d + 2) k props s = x at hrel
      cases hrel with
      | @some r _ e =>
        obtain ⟨text', t'⟩ := r
        cases e
        exact shows_iff.2 ⟨d + 1, d + 2, t', hk⟩
    · rintro ⟨d, t, ht⟩
      have hrel : Option.Rel (fun x y => y.1 = x.1) (showingTo (d + 1) (d + 2) k props s)
          (showing (calls (d + 3)) q props s) := h.showing_mounted hu hp hc hdev d
      have hk : showingTo (d + 1) (d + 2) k props s = some (text, t) :=
        (showingTo_le (Nat.le_add_right d 1) (Nat.le_add_right d 2) k props s ht).1
      rw [hk] at hrel
      generalize hq : showing (calls (d + 3)) q props s = x at hrel
      cases hrel with
      | @some _ r e =>
        obtain ⟨text', t'⟩ := r
        cases e
        exact ⟨d + 3, t', hq⟩
  | false =>
    have hrender (d : Nat) : (calls (d + 1)).render q props s = (calls d).render k props s :=
      (render_delegate (calls d) hp hc props).trans (if_neg (by simp [hdev]))
    have hshow (d e : Nat) : showingTo (d + 1) e q props s = showingTo d e k props s := by
      simp only [showingTo, bind_apply, hrender]
    rw [shows_iff, shows_iff]
    constructor
    · rintro ⟨d, e, t, ht⟩
      exact ⟨d, e, t, (hshow d e).symm.trans
        (showingTo_le (Nat.le_succ d) (Nat.le_refl e) q props s ht).1⟩
    · rintro ⟨d, e, t, ht⟩
      exact ⟨d + 1, e, t, (hshow d e).trans ht⟩

end Store

end HotSwap
