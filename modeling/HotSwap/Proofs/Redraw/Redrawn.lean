import HotSwap.Proofs.Redraw.Exhibits
/-!
# Redirecting a cell

The nodes over the cell are marked one after another, and the mark of a node runs the effect that
shows it before the next node is marked. When all were marked nothing is left to run.
-/

namespace HotSwap

open Machine Store

/-- What `k` rendered to in each mounting, and what that told. -/
abbrev Sight := Mounting × View × List Event

/-- One after another the mountings show `k`. -/
inductive Store.Redrawn (k : ComponentId) : List Sight → Store → Store → Prop
  | nil (s : Store) : Redrawn k [] s s
  | cons {s t u : Store} {m : Mounting} {v : View} {es : List Event} {rest : List Sight}
    (h : m.Shown k v es s t) (hrest : Redrawn k rest t u) : Redrawn k ((m, v, es) :: rest) s u

def Store.marked (s : Store) (n : NodeId) (μ : Memo) : Store :=
  { s with nodes := s.nodes.set n (.memo { μ with freshness := .maybeDirty }) }

def relinked (c : NodeId) (rs : List NodeId) (m : Mounting) : List NodeId :=
  relink m.node m.cell c rs

theorem relinked_other {c : NodeId} {rs : List NodeId} {ms : List Mounting}
    (h : ∀ m ∈ ms, m.cell ≠ c ∧ m.node ∉ rs) : ms.foldl (relinked c) rs = rs := by
  induction ms with
  | nil => rfl
  | cons m ms ih =>
    obtain ⟨hc, hm⟩ := h m List.mem_cons_self
    rw [List.foldl_cons, relinked, relink_of_ne hc.symm hm]
    exact ih fun m' hm' => h m' (List.mem_cons_of_mem _ hm')

theorem relinked_self {c : NodeId} {ms : List Mounting} {rs : List NodeId}
    (hc : ∀ m ∈ ms, m.cell = c) (h : (ms.map Mounting.node ++ rs).Nodup) :
    ms.foldl (relinked c) (ms.map Mounting.node ++ rs) = rs ++ ms.map Mounting.node := by
  induction ms generalizing rs with
  | nil => simp
  | cons m ms ih =>
    rw [List.map_cons, List.cons_append, List.nodup_cons] at h
    obtain ⟨hm, hnodup⟩ := h
    have hleft : (m.node :: (ms.map Mounting.node ++ rs)).filter (fun r => decide (r ≠ m.node)) =
        ms.map Mounting.node ++ rs := by
      rw [List.filter_cons_of_neg (by simp), filter_ne_of_notMem hm]
    rw [List.map_cons, List.cons_append, List.foldl_cons, relinked, hc m List.mem_cons_self,
      relink_self, hleft, List.append_assoc, ih fun m' hm' => hc m' (List.mem_cons_of_mem _ hm')]
    · simp
    · rw [← List.append_assoc]
      refine List.nodup_append.2 ⟨hnodup, by simp, ?_⟩
      rintro r hr l hl rfl
      exact hm (List.mem_singleton.1 hl ▸ hr)

section

variable {C : NodeId → Prop} {K : ComponentId → Prop} {ms : List Mounting}
  {order : NodeId → List NodeId} {s t b : Store} {m : Mounting} {k : ComponentId} {v : View}
  {es : List Event} {d : Nat} {cell : NodeId}

theorem Machine.mark_next {n l : NodeId} {μ : Memo} {e : Effect} (c : Calls)
    (hμ : s.nodes[n]? = some (.memo μ)) (hclean : μ.freshness = .clean)
    (hr : Edges.readers s.edges n = [l]) (he : s.nodes[l]? = some (.effect e))
    (hl : .node l ∈ s.live) :
    mark c.next n s = runEffect c l (s.marked n μ) := by
  have hne : n ≠ l := by
    rintro rfl
    simp [hμ] at he
  have heffect : (s.nodes.set n (.memo { μ with freshness := .maybeDirty }))[l]? = some (.effect e) :=
    (List.getElem?_set_ne hne).trans he
  simp only [mark, bind_apply, node?_apply, hμ, Option.bind_some, markMemo, hclean, setNode_apply]
  change notifyNode c n _ = _
  simp only [notifyNode, liveReaders, bind_apply, get_apply, Option.bind_some, pure_apply, hr,
    isLive, hl, decide_true, List.filter_cons_of_pos, List.filter_nil, forEach, mark, schedule,
    node?_apply, heffect]
  change (runEffect c l (s.marked n μ)).bind (fun p => some ((), p.2)) = _
  cases runEffect c l (s.marked n μ) <;> rfl

theorem Store.marked_self {n : NodeId} {μ : Memo} (hμ : s.nodes[n]? = some (.memo μ)) :
    (s.marked n μ).nodes[n]? = some (.memo { μ with freshness := .maybeDirty }) :=
  List.getElem?_set_self (List.getElem?_eq_some_iff.1 hμ).1

theorem Store.rewires_marked {n : NodeId} {μ : Memo} (hμ : s.nodes[n]? = some (.memo μ)) :
    s.Rewires (fun _ => id) (s.marked n μ) := rewires_setNode fun e he => by simp [hμ] at he

theorem Mounting.Stands.marked {μ : Memo} (h : m.Stands s) (hμ : s.nodes[m.node]? = some (.memo μ)) :
    m.Stands (s.marked m.node μ) := by
  refine h.kept (rewires_marked hμ).fast (List.Subset.refl _) (fun μ' hμ' => ?_) fun e he => ?_
  · obtain rfl : μ = μ' := by simpa [hμ] using hμ'
    exact ⟨_, marked_self hμ, rfl⟩
  · exact ⟨e, (List.getElem?_set_ne h.ne).trans he, rfl, rfl, rfl⟩

theorem Store.peeked_set {n l : NodeId} {x y : Node} (hx : s.nodes[n]? = some x)
    (h : ∀ w, x ≠ .signal w) (h' : ∀ w, y ≠ .signal w) :
    Store.peeked { s with nodes := s.nodes.set n y } l = s.peeked l := by
  by_cases hl : n = l
  · subst hl
    have hy : (s.nodes.set n y)[n]? = some y :=
      List.getElem?_set_self (List.getElem?_eq_some_iff.1 hx).1
    simp only [peeked, hx, hy]
    cases x <;> cases y <;> first | rfl | exact absurd rfl (h _) | exact absurd rfl (h' _)
  · simp only [peeked, List.getElem?_set_ne hl]

theorem Store.Agrees.set {n : NodeId} {x y : Node} (hb : b.Agrees K s) (hx : s.nodes[n]? = some x)
    (h : ∀ w, x ≠ .signal w) (h' : ∀ w, y ≠ .signal w) :
    b.Agrees K { s with nodes := s.nodes.set n y } :=
  { hb with peeked := fun l => (peeked_set hx h h').trans (hb.peeked l) }

namespace Mounting.Shown

theorem agrees (h : m.Shown k v es s t) (hs : m.Stands s) (hb : b.Agrees K s) : b.Agrees K t := by
  obtain ⟨μ, e, hμ, he, ht⟩ := h.same
  have hnode := hb.set (y := .memo { μ with value := some (.view v), freshness := .clean }) hμ
    nofun nofun
  have heffect := hnode.set (y := .effect { e with runs := e.runs + 1, dependencies := 1 })
    ((List.getElem?_set_ne hs.ne).trans he) nofun nofun
  rw [ht]
  exact { heffect with }

theorem of_marked {μ : Memo} (hs : m.Stands s) (hμ : s.nodes[m.node]? = some (.memo μ))
    (h : m.Shown k v es (s.marked m.node μ) t) : m.Shown k v es s t where
  rewires := ((rewires_marked hμ).trans h.rewires).mono fun _ _ => rfl
  same := by
    obtain ⟨μ', e, hμ', he, ht⟩ := h.same
    obtain rfl : { μ with freshness := .maybeDirty } = μ' := by
      simpa only [marked_self hμ, Option.some.injEq, Node.memo.injEq] using hμ'
    refine ⟨μ, e, hμ, (List.getElem?_set_ne hs.ne).symm.trans he, ?_⟩
    rw [ht]
    simp only [marked, List.set_set]

end Mounting.Shown

namespace Store.Exhibits

/-- If the component is rendered, the mark of a node makes its effect show it. -/
theorem mark_shows (h : s.Exhibits C K ms order) (hm : m ∈ ms) (hk : K k)
    (hcell : s.nodes[m.cell]? = some (.cell (some k))) (hb : b.Agrees K s) (d : Nat) :
    Option.Rel (fun p q => ∃ es, p.2.trace = es ++ b.trace ∧ m.Shown k p.1 es s q.2)
      (m.draw (calls d) k b) (mark (calls (d + 3)) m.node s) := by
  have hs := (h.stands m hm).2
  obtain ⟨μ, hμ, hclean⟩ := h.clean m hm
  obtain ⟨e, he, -⟩ := hs.effect
  have hmark := mark_next (calls (d + 2)) hμ hclean (h.shown m hm) he hs.effectLive
  have hcell' : (s.marked m.node μ).nodes[m.cell]? = some (.cell (some k)) :=
    (List.getElem?_set_ne (hs.ne_cell hcell).1).trans hcell
  have hshows := Mounting.runEffect_shows (hs.marked hμ) h.static hk hcell'
    ⟨_, marked_self hμ, nofun⟩ d
  have hagrees : b.Agrees K (s.marked m.node μ) := hb.set hμ nofun nofun
  have hdraw := Mounting.draw_recites (m := m) hagrees hk d
  rw [calls_succ, hmark]
  rw [Recites] at hdraw
  generalize m.draw (calls d) k b = p at hdraw
  generalize m.draw (calls d) k (s.marked m.node μ) = p' at hdraw hshows
  generalize runEffect (calls (d + 2)) m.effect (s.marked m.node μ) = q at hshows
  cases hdraw with
  | none =>
    cases hshows with
    | none => exact .none
  | @some p p' hp =>
    obtain ⟨hv, -, es, -, ht, ht'⟩ := hp
    cases hshows with
    | some hq =>
      obtain ⟨es', htrace, hshown⟩ := hq
      obtain rfl : es' = es := by
        rw [ht'.same] at htrace
        exact (List.append_cancel_right htrace).symm
      exact .some ⟨es', by rw [ht.same], hv ▸ hshown.of_marked hs hμ⟩

/-- If all marks end, the mountings show `k` one after another. -/
theorem redrawn_of_marks {rest : List Mounting} (h : s.Exhibits C K ms order)
    (hrest : ∀ m ∈ rest, m ∈ ms ∧ m.cell = cell) (hk : K k)
    (hcell : s.nodes[cell]? = some (.cell (some k)))
    (hrun : forEach (mark (calls (d + 3))) (rest.map Mounting.node) s = some ((), t)) :
    ∃ sights : List Sight, sights.map Prod.fst = rest ∧ s.Redrawn k sights t := by
  induction rest generalizing s order with
  | nil =>
    cases hrun
    exact ⟨[], rfl, .nil _⟩
  | cons m rest ih =>
    obtain ⟨hm, rfl⟩ := hrest m List.mem_cons_self
    obtain ⟨⟨⟩, u, hmark, hrun⟩ := bind_eq_some.1 hrun
    have hshows := h.mark_shows hm hk hcell ⟨h.static, rfl, rfl, rfl, fun _ => rfl⟩ d
    rw [hmark] at hshows
    generalize m.draw (calls d) k s = p at hshows
    cases hshows with
    | @some p _ hp =>
      obtain ⟨es, -, hshown⟩ := hp
      obtain ⟨sights, rfl, hredrawn⟩ := ih (h.again hm hshown)
        (fun m' hm' => hrest m' (List.mem_cons_of_mem _ hm'))
        (hshown.cell (h.stands m hm).2 hcell) hrun
      exact ⟨(m, p.1, es) :: sights, rfl, .cons hshown hredrawn⟩

theorem marks_of_draws {rest : List Mounting} {look : Mounting → View × List Event}
    (h : s.Exhibits C K ms order) (hrest : ∀ m ∈ rest, m ∈ ms ∧ m.cell = cell) (hk : K k)
    (hcell : s.nodes[cell]? = some (.cell (some k))) (hb : b.Agrees K s)
    (hlook : ∀ m ∈ rest, ∃ u, m.draw (calls d) k b = some ((look m).1, u) ∧
      u.trace = (look m).2 ++ b.trace) :
    ∃ t, forEach (mark (calls (d + 3))) (rest.map Mounting.node) s = some ((), t) ∧
      s.Redrawn k (rest.map fun m => (m, look m)) t := by
  induction rest generalizing s order with
  | nil => exact ⟨s, rfl, .nil s⟩
  | cons m rest ih =>
    obtain ⟨hm, rfl⟩ := hrest m List.mem_cons_self
    have hshows := h.mark_shows hm hk hcell hb d
    obtain ⟨u, hdraw, htrace⟩ := hlook m List.mem_cons_self
    rw [hdraw] at hshows
    cases hmark : mark (calls (d + 3)) m.node s with
    | none =>
      rw [hmark] at hshows
      cases hshows
    | some q =>
      rw [hmark] at hshows
      cases hshows with
      | some hq =>
        obtain ⟨es, htrace', hshown⟩ := hq
        obtain rfl : es = (look m).2 := List.append_cancel_right (htrace'.symm.trans htrace)
        obtain ⟨t, hrun, hredrawn⟩ := ih (h.again hm hshown)
          (fun m' hm' => hrest m' (List.mem_cons_of_mem _ hm'))
          (hshown.cell (h.stands m hm).2 hcell) (hshown.agrees (h.stands m hm).2 hb)
          fun m' hm' => hlook m' (List.mem_cons_of_mem _ hm')
        exact ⟨t, bind_eq_some.2 ⟨q.1, q.2, hmark, hrun⟩, .cons hshown hredrawn⟩

end Store.Exhibits

namespace Store.Redrawn

variable {sights : List Sight}

theorem trace (h : s.Redrawn k sights t) :
    t.trace = (sights.reverse.flatMap fun o => o.1.told k o.2.1 o.2.2) ++ s.trace := by
  induction h with
  | nil => rfl
  | cons h _ ih =>
    obtain ⟨μ, e, -, -, ht⟩ := h.same
    rw [ih, ht, List.reverse_cons, List.flatMap_append, List.append_assoc]
    simp

theorem other (h : s.Redrawn k sights t) {n : NodeId}
    (hn : ∀ o ∈ sights, n ≠ o.1.node ∧ n ≠ o.1.effect) : t.nodes[n]? = s.nodes[n]? := by
  induction h with
  | nil => rfl
  | @cons _ _ _ m v es _ h _ ih =>
    obtain ⟨hnode, heffect⟩ := hn (m, v, es) List.mem_cons_self
    rw [ih fun o ho => hn o (List.mem_cons_of_mem _ ho), h.other hnode heffect]

theorem exhibits (h : s.Redrawn k sights t) (hs : s.Exhibits C K ms order)
    (hsights : ∀ o ∈ sights, o.1 ∈ ms) :
    t.Exhibits C K ms fun c => (sights.map Prod.fst).foldl (relinked c) (order c) := by
  induction h generalizing order with
  | nil => exact hs
  | @cons _ _ _ m v es _ h _ ih =>
    exact ih (hs.again (hsights (m, v, es) List.mem_cons_self) h) fun o ho =>
      hsights o (List.mem_cons_of_mem _ ho)

theorem exhibits_again (h : s.Redrawn k sights t) (hs : s.Exhibits C K ms order)
    (hsights : ∀ o ∈ sights, o.1 ∈ ms ∧ o.1.cell = cell)
    (horder : order cell = (sights.map Prod.fst).map Mounting.node) : t.Exhibits C K ms order := by
  have hmem {m : Mounting} (hm : m ∈ sights.map Prod.fst) : m ∈ ms ∧ m.cell = cell := by
    obtain ⟨o, ho, rfl⟩ := List.mem_map.1 hm
    exact hsights o ho
  have hsame (c : NodeId) : (sights.map Prod.fst).foldl (relinked c) (order c) = order c := by
    by_cases hc : c = cell
    · have hnodup := hs.nodup cell
      rw [horder, ← List.append_nil ((sights.map Prod.fst).map Mounting.node)] at hnodup
      rw [hc, horder]
      simpa using relinked_self (fun m hm => (hmem hm).2) hnodup
    · refine relinked_other fun m hm => ⟨fun e => hc (e.symm.trans (hmem hm).2), fun hn => ?_⟩
      obtain ⟨m', hm', hnode, rfl⟩ := hs.known c _ hn
      have hne : m' ≠ m := fun e => hc (e ▸ (hmem hm).2)
      exact (hs.apart m' hm' m (hmem hm).1 hne).1 hnode
  have hend := h.exhibits hs fun o ho => (hsights o ho).1
  rwa [funext hsame] at hend

theorem effect (h : s.Redrawn k sights t) (hs : s.Exhibits C K ms order)
    (hsights : ∀ o ∈ sights, o.1 ∈ ms) (hnodup : (sights.map Prod.fst).Nodup) {o : Sight}
    (ho : o ∈ sights) {e : Effect} (he : s.nodes[o.1.effect]? = some (.effect e)) :
    t.nodes[o.1.effect]? =
      some (.effect { e with runs := e.runs + 1, dependencies := 1 }) := by
  induction h generalizing order with
  | nil => cases ho
  | @cons s u t m v es rest h hrest ih =>
    obtain ⟨hm, hnodup⟩ := List.nodup_cons.1 hnodup
    have hms := hsights (m, v, es) List.mem_cons_self
    have hrest' (o : Sight) (ho : o ∈ rest) : o.1 ∈ ms ∧ o.1 ≠ m :=
      ⟨hsights o (List.mem_cons_of_mem _ ho), fun e => hm (List.mem_map.2 ⟨o, ho, e⟩)⟩
    rcases List.mem_cons.1 ho with rfl | ho
    · obtain ⟨e', he', heffect⟩ := h.effect
      obtain rfl : e = e' := by simpa [he] using he'
      rw [hrest.other, heffect]
      intro o ho
      obtain ⟨hms', hne⟩ := hrest' o ho
      exact ⟨((hs.stands o.1 hms').2.node_ne_effect (hs.stands m hms).2).symm,
        (hs.apart m hms o.1 hms' hne.symm).2⟩
    · obtain ⟨hms', hne⟩ := hrest' o ho
      refine ih (hs.again hms h) (fun o ho => (hrest' o ho).1) hnodup ho ?_
      exact (h.other ((hs.stands m hms).2.node_ne_effect (hs.stands o.1 hms').2).symm
        (hs.apart o.1 hms' m hms hne).2).trans he

theorem effects (h : s.Redrawn k sights t) (hs : s.Exhibits C K ms order)
    (hsights : ∀ o ∈ sights, o.1 ∈ ms) (hnodup : (sights.map Prod.fst).Nodup) {n : NodeId}
    {e : Effect} (he : s.nodes[n]? = some (.effect e)) :
    t.nodes[n]? = some (.effect (if n ∈ (sights.map Prod.fst).map Mounting.effect then
      { e with runs := e.runs + 1, dependencies := 1 } else e)) := by
  split
  · rename_i hn
    obtain ⟨m, hm, rfl⟩ := List.mem_map.1 hn
    obtain ⟨o, ho, rfl⟩ := List.mem_map.1 hm
    exact h.effect hs hsights hnodup ho he
  · rename_i hn
    refine (h.other fun o ho => ⟨?_, ?_⟩).trans he
    · rintro rfl
      obtain ⟨μ, hμ, -⟩ := (hs.stands o.1 (hsights o ho)).2.memo
      simp [he] at hμ
    · rintro rfl
      exact hn (List.mem_map_of_mem (List.mem_map_of_mem ho))

end Store.Redrawn

def Store.redirected (s : Store) (cell : NodeId) (k : ComponentId) : Store :=
  Store.collect { s with nodes := s.nodes.set cell (.cell (some k)) }

theorem Machine.forEach_schedule_memos (c : Calls) {ns : List NodeId}
    (h : ∀ n ∈ ns, ∃ μ, s.nodes[n]? = some (.memo μ)) :
    forEach (schedule c) ns s = some ((), s) := by
  induction ns with
  | nil => rfl
  | cons n ns ih =>
    obtain ⟨μ, hμ⟩ := h n List.mem_cons_self
    simp only [forEach, bind_apply, schedule, node?_apply, hμ, Option.bind_some, pure_apply]
    exact ih fun n hn => h n (List.mem_cons_of_mem _ hn)

namespace Store.Exhibits

variable (h : s.Exhibits C K ms order) (hC : C cell)

include h hC

theorem redirected_cell (k : ComponentId) :
    (s.redirected cell k).nodes[cell]? = some (.cell (some k)) := by
  obtain ⟨j, -, hj⟩ := h.cell cell hC
  exact List.getElem?_set_self (List.getElem?_eq_some_iff.1 hj).1

theorem redirected_effect (k : ComponentId) {n : NodeId} {e : Effect}
    (he : s.nodes[n]? = some (.effect e)) :
    (s.redirected cell k).nodes[n]? = some (.effect e) := by
  obtain ⟨j, -, hj⟩ := h.cell cell hC
  refine (List.getElem?_set_ne ?_).trans he
  rintro rfl
  simp [hj] at he

theorem agrees_redirected (k : ComponentId) : s.Agrees K (s.redirected cell k) := by
  obtain ⟨j, -, hj⟩ := h.cell cell hC
  have hbase : s.Agrees K s := ⟨h.static, rfl, rfl, rfl, fun _ => rfl⟩
  exact { hbase.set (y := .cell (some k)) hj nofun nofun with }

theorem redirected (hk : K k) : (s.redirected cell k).Exhibits C K ms order := by
  obtain ⟨j, -, hj⟩ := h.cell cell hC
  have hset : s.Rewires (fun _ => id) { s with nodes := s.nodes.set cell (.cell (some k)) } :=
    rewires_setNode fun e he => by simp [hj] at he
  refine h.kept ((hset.trans (rewires_collect _)).mono fun _ _ => rfl) h.static (List.Subset.refl _)
    (Nat.le_of_eq List.length_set.symm) (fun c hc => ?_) fun n x hx hne => ?_
  · by_cases he : c = cell
    · subst he
      exact ⟨k, hk, h.redirected_cell hC k⟩
    · obtain ⟨i, hi, hcell⟩ := h.cell c hc
      exact ⟨i, hi, (List.getElem?_set_ne (Ne.symm he)).trans hcell⟩
  · refine (List.getElem?_set_ne ?_).trans hx
    rintro rfl
    exact hne j (Option.some.inj (hx.symm.trans hj))

theorem setCell_eq (hk : K k) {affected : List Mounting}
    (haffected : ∀ m ∈ affected, m ∈ ms ∧ m.cell = cell)
    (horder : order cell = affected.map Mounting.node) (hd : nesting = d + 4) :
    setCell cell (some k) s =
      forEach (mark (calls (d + 3))) (affected.map Mounting.node) (s.redirected cell k) := by
  have hs := h.redirected hC hk
  have htargets : (Edges.readers (s.redirected cell k).edges cell).filter (s.redirected cell k).isLive =
      affected.map Mounting.node := by
    rw [hs.readers cell hC, horder, List.filter_eq_self]
    intro n hn
    exact decide_eq_true (hs.fast (horder ▸ hn)).1
  have hrun : setCell cell (some k) s =
      notifyNode (calls (d + 3)) cell (s.redirected cell k) := by
    simp only [setCell, writeCell, topCalls, hd, bind_apply, setNode_apply, Option.bind_some,
      collect_apply]
    rfl
  rw [hrun]
  simp only [notifyNode, liveReaders, bind_apply, get_apply, Option.bind_some, pure_apply, htargets]
  cases hmarks : forEach (mark (calls (d + 3))) (affected.map Mounting.node) (s.redirected cell k) with
  | none => rfl
  | some p =>
    obtain ⟨sights, rfl, hredrawn⟩ := hs.redrawn_of_marks haffected hk (h.redirected_cell hC k) hmarks
    have hend := hredrawn.exhibits hs fun o ho =>
      (haffected o.1 (List.mem_map.2 ⟨o, ho, rfl⟩)).1
    refine forEach_schedule_memos _ fun n hn => ?_
    obtain ⟨m, hm, rfl⟩ := List.mem_map.1 hn
    obtain ⟨μ, hμ, -⟩ := (hend.stands m (haffected m hm).1).2.memo
    exact ⟨μ, hμ⟩

end Store.Exhibits

end

end HotSwap
