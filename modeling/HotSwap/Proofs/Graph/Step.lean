import HotSwap.Proofs.Evaluation.Lasting
import HotSwap.Proofs.Graph.Reading
/-!
# What single changes make of a graph

Between two reads a store is calm: no run of an effect that only reads is under way. A node that
changes puts those out of date that read it; a run of an effect brings it up to date again.
-/

namespace HotSwap

open Machine

theorem Node.body?_gist (x : Node) : x.gist.body? = x.body? := by
  cases x with
  | memo m =>
    obtain ⟨recipe, _, _⟩ := m
    cases recipe <;> rfl
  | _ => rfl

theorem Node.body?_of_gist {x y : Node} (h : y.gist = x.gist) : y.body? = x.body? := by
  rw [← y.body?_gist, h, x.body?_gist]

namespace Store

variable {P Q K : Set NodeId} {s t u : Store} {n : NodeId} {e : Effect}

def Observing (s : Store) (n : NodeId) : Prop :=
  ∃ e, s.nodes[n]? = some (.effect e) ∧ e.body.onlyReads = true

structure Calm (P : Set NodeId) (s : Store) : Prop where
  sound : s.Sound P ∅
  unobserving : ∀ n, s.Observing n → some n ∉ s.frames.map Frame.reader

def targets (s : Store) (source : NodeId) : List NodeId :=
  (Edges.readers s.edges source).filter s.isLive

theorem mem_targets {k source : NodeId} :
    k ∈ s.targets source ↔ k ∈ Edges.readers s.edges source ∧ .node k ∈ s.live := by
  simp [targets, isLive]

theorem Sound.settle (h : s.Sound (P ∪ {n}) K) (hn : s.Consistent K n) : s.Sound P K :=
  { h with
    consistent := fun {k} hl hk => by
      by_cases hkn : k = n
      · exact hkn ▸ hn
      · exact h.consistent hl fun hm => hm.elim hk hkn }

theorem Calm.settle (h : s.Calm (P ∪ {n})) (hn : s.Consistent ∅ n) : s.Calm P :=
  ⟨h.sound.settle hn, h.unobserving⟩

theorem Calm.mono (h : s.Calm P) (hPQ : ∀ n, .node n ∈ s.live → n ∈ P → n ∈ Q) : s.Calm Q :=
  ⟨h.sound.mono hPQ, h.unobserving⟩

theorem Consistent.of_body?_none (h : s.body? n = none) : s.Consistent K n where
  memo hm := by simp [body?, hm, Node.body?] at h
  effect he := by simp [body?, he, Node.body?] at h

theorem Consistent.of_disposed (he : s.nodes[n]? = some (.effect e)) (hd : e.disposed = true) :
    s.Consistent K n where
  memo hm := by simp [he] at hm
  effect he' := by
    obtain rfl : e = _ := by simpa [he] using he'
    simp [hd]

theorem Consistent.of_acting (he : s.nodes[n]? = some (.effect e)) (ho : e.body.onlyReads = false) :
    s.Consistent K n where
  memo hm := by simp [he] at hm
  effect he' := by
    obtain rfl : e = _ := by simpa [he] using he'
    simp [ho]

theorem Consistent.of_reads (he : t.nodes[n]? = some (.effect e))
    (hbelow : ∀ x ∈ e.body.gets, t.nodes[x]? = s.nodes[x]?)
    (hlast : lastReads n t.trace = (observed s.cached (e.body.reads s.cached {})).reverse)
    (hfound : ∀ x ∈ e.body.reads s.cached {}, s.Fresh K x ∧ n ∈ Edges.readers t.edges x) :
    t.Consistent K n where
  memo hm := by simp [he] at hm
  effect he' _ _ _ := by
    obtain rfl : e = _ := by simpa [he] using he'
    have hget : ∀ x ∈ e.body.reads s.cached {}, x ∈ e.body.gets := fun x hx =>
      Expr.reads_subset_gets _ hx
    have hcached : ∀ x ∈ e.body.reads s.cached {}, t.cached x = s.cached x := fun x hx =>
      cached_congr (hbelow x (hget x hx))
    obtain ⟨_, hr⟩ := Expr.value_congr e.body hcached
    rw [hlast, hr, observed_congr hcached]
    refine ⟨rfl, fun x hx => ?_⟩
    rw [hr] at hx
    exact ⟨(hfound x hx).2, (hfound x hx).1.congr (hbelow x (hget x hx))⟩

/-- A node is replaced by one of its kind: `hothers` says who may go on to rely on it. -/
theorem Sound.set (h : s.Sound P K) {x y : Node} (hx : s.nodes[n]? = some x) (hy : y.Placed n)
    (hgist : y.gist = x.gist)
    (hself : n ∉ Q → .node n ∈ s.live → Consistent { s with nodes := s.nodes.set n y } K n)
    (hothers : ∀ k, .node k ∈ s.live → k ∉ Q → k ≠ n → k ∉ P ∧
      (k ∈ Edges.readers s.edges n → s.Fresh K n →
        Fresh { s with nodes := s.nodes.set n y } K n ∧ y.cached = x.cached)) :
    Sound Q K { s with nodes := s.nodes.set n y } := by
  have hlt := (List.getElem?_eq_some_iff.1 hx).1
  have hne {k : NodeId} (hk : k ≠ n) : (s.nodes.set n y)[k]? = s.nodes[k]? :=
    List.getElem?_set_ne (Ne.symm hk)
  refine ⟨h.graph.set hx hy (Node.body?_of_gist hgist), fun {k} hl hk => ?_, fun {k e} he ho hf => ?_⟩
  · by_cases hkn : k = n
    · exact hkn ▸ hself (hkn ▸ hk) (hkn ▸ hl)
    · obtain ⟨hP, hread⟩ := hothers k hl hk hkn
      refine (h.consistent hl hP).keep (hne hkn) rfl (·.congr (hne hkn).symm) fun z hz hf => ?_
      by_cases hzn : z = n
      · subst hzn
        obtain ⟨hfresh, hcached⟩ := hread hz hf
        refine ⟨hz, hfresh, ?_⟩
        simp only [cached, hx, List.getElem?_set_self hlt, Option.map_some, Option.getD_some, hcached]
      · exact ⟨hz, hf.congr (hne hzn), cached_congr (hne hzn)⟩
  · by_cases hkn : k = n
    · subst hkn
      rw [List.getElem?_set_self hlt] at he
      cases he
      obtain ⟨e', rfl, -, hbody⟩ := Node.effect_of_gist hgist
      exact h.idle hx (hbody ▸ ho) hf
    · exact h.idle ((hne hkn).symm.trans he) ho hf

theorem Observing.of_set {x y : Node} {k : NodeId} (hx : s.nodes[n]? = some x)
    (h : Observing { s with nodes := s.nodes.set n y } k) (hgist : y.gist = x.gist) :
    s.Observing k := by
  obtain ⟨e, he, ho⟩ := h
  by_cases hkn : n = k
  · subst hkn
    rw [List.getElem?_set_self (List.getElem?_eq_some_iff.1 hx).1] at he
    cases he
    obtain ⟨e', rfl, -, hbody⟩ := Node.effect_of_gist hgist
    exact ⟨e', hx, hbody ▸ ho⟩
  · rw [List.getElem?_set_ne hkn] at he
    exact ⟨e, he, ho⟩

theorem Calm.setSignal (h : s.Calm P) {v : Json} (hn : s.nodes[n]? = some (.signal v)) (w : Json) :
    Calm (P ∪ {k | k ∈ s.targets n}) { s with nodes := s.nodes.set n (.signal w) } where
  sound := h.sound.set hn (.signal w) rfl
    (fun _ _ => .of_body?_none (by
      simp [body?, (List.getElem?_eq_some_iff.1 hn).1, Node.body?]))
    fun k hl hk _ => ⟨fun hP => hk (.inl hP), fun hr _ => (hk (.inr (mem_targets.2 ⟨hr, hl⟩))).elim⟩
  unobserving k hk := h.unobserving k (hk.of_set hn rfl)

theorem Calm.mark (h : s.Calm (P ∪ {n})) {m : Memo} (hn : s.nodes[n]? = some (.memo m)) :
    Calm (P ∪ {k | k ∈ s.targets n})
      { s with nodes := s.nodes.set n (.memo { m with freshness := .maybeDirty }) } where
  sound := by
    obtain ⟨recipe, value, freshness⟩ := m
    have hplaced : (Node.memo ⟨recipe, value, .maybeDirty⟩).Placed n := by
      cases h.sound.graph.placed hn with
      | memo ho hlt hv => exact .memo ho hlt hv
    have hself : (s.nodes.set n (.memo ⟨recipe, value, .maybeDirty⟩))[n]? =
        some (.memo ⟨recipe, value, .maybeDirty⟩) :=
      List.getElem?_set_self (List.getElem?_eq_some_iff.1 hn).1
    refine h.sound.set hn hplaced rfl (fun _ _ => .of_due hself fun hc => by cases hc)
      fun k hl hk hkn => ?_
    exact ⟨fun hP => hP.elim (fun hP => hk (.inl hP)) hkn,
      fun hr _ => (hk (.inr (mem_targets.2 ⟨hr, hl⟩))).elim⟩
  unobserving k hk := h.unobserving k (hk.of_set hn rfl)

theorem Calm.setEffect (h : s.Calm P) (he : s.nodes[n]? = some (.effect e)) {f : Effect}
    (hname : f.name = e.name) (hbody : f.body = e.body)
    (hself : n ∉ P → .node n ∈ s.live →
      Consistent { s with nodes := s.nodes.set n (.effect f) } ∅ n) :
    Calm P { s with nodes := s.nodes.set n (.effect f) } where
  sound := by
    have hplaced : (Node.effect f).Placed n := by
      cases h.sound.graph.placed he with
      | effect hv hlt => exact .effect (hbody ▸ hv) (hbody ▸ hlt)
    refine h.sound.set he hplaced (by simp [Node.gist, hname, hbody]) hself
      fun k _ hk _ => ⟨hk, fun _ _ => ⟨fun m hm => ?_, rfl⟩⟩
    simp [(List.getElem?_eq_some_iff.1 he).1] at hm
  unobserving k hk := h.unobserving k (hk.of_set he (by simp [Node.gist, hname, hbody]))

theorem Sound.congr (h : s.Sound P K) (nodes : t.nodes = s.nodes) (edges : t.edges = s.edges)
    (live : t.live = s.live) (trace : t.trace = s.trace)
    (frames : ∀ k, some k ∈ s.frames.map Frame.reader → some k ∈ t.frames.map Frame.reader) :
    t.Sound P K where
  graph := h.graph.congr nodes edges live trace
  consistent hl hk := (h.consistent (live ▸ hl) hk).same nodes (by rw [trace]) fun _ hx => edges ▸ hx
  idle he ho hf := trace ▸ h.idle (nodes ▸ he) ho (mt (frames _) hf)

theorem Calm.congr (h : s.Calm P) (nodes : t.nodes = s.nodes) (edges : t.edges = s.edges)
    (live : t.live = s.live) (trace : t.trace = s.trace)
    (frames : ∀ k, some k ∈ t.frames.map Frame.reader ↔ some k ∈ s.frames.map Frame.reader) :
    t.Calm P where
  sound := h.sound.congr nodes edges live trace fun k => (frames k).2
  unobserving k hk := mt (frames k).1 (h.unobserving k (by simpa only [Observing, nodes] using hk))

theorem Calm.emit (h : s.Calm P) {e : Event} (he : e.Quiet fun _ => False) :
    Calm P { s with trace := e :: s.trace } :=
  ⟨((Observes.refl (b := 0) h.sound).emit he).sound, h.unobserving⟩

theorem Calm.unsubscribe (h : s.Calm P) (hn : ∀ t : Store, t.nodes = s.nodes → t.Consistent ∅ n) :
    Calm P { s with edges := Edges.unsubscribe s.edges n } where
  sound :=
    { graph := h.sound.graph.unsubscribe n
      consistent := fun {k} hl hk => by
        by_cases hkn : k = n
        · subst hkn
          exact hn _ rfl
        · exact (h.sound.consistent hl hk).same rfl rfl fun _ hx =>
            (Edges.mem_readers_unsubscribe _).2 ⟨hx, hkn⟩
      idle := h.sound.idle }
  unobserving := h.unobserving

theorem Calm.collect (h : s.Calm P) : s.collect.Calm P where
  sound :=
    { graph := h.sound.graph.collect
      consistent := fun hl hk => (h.sound.consistent (s.survivors_subset hl) hk).same rfl rfl
        fun _ hx => mem_readers_collect s hx hl
      idle := h.sound.idle }
  unobserving := h.unobserving

theorem Observing.of_refreshed {b : Nat} (h : s.Refreshed K b t) (ht : t.Observing n) :
    s.Observing n := by
  obtain ⟨e, he, ho⟩ := ht
  have hm : s.memoAt n = none := (h.memos n).1 (by simp [memoAt, he])
  exact ⟨e, (h.same (fresh_of_memoAt_none hm)).symm.trans he, ho⟩

theorem Calm.of_observes {b : Nat} {xs : List NodeId} (h : s.Calm P)
    (ho : s.Observes P ∅ b xs t) : t.Calm P :=
  ⟨ho.sound, fun k hk => ho.frames ▸ h.unobserving k (hk.of_refreshed ho.toRefreshed)⟩

theorem Sound.ended (h : s.Sound (P ∪ {n}) ∅) {F : List (Option NodeId)}
    (hf : s.frames.map Frame.reader = some n :: F) (hF : ∀ k, s.Observing k → some k ∉ F)
    (name : String) (v : Json) :
    Calm (P ∪ {n}) { s with
      frames := s.frames.tail, trace := .effect n name v :: s.trace } := by
  have htail : s.frames.tail.map Frame.reader = F := by rw [List.map_tail, hf, List.tail_cons]
  refine ⟨⟨(h.graph.trace (e := .effect n name v) (by simp)).congr rfl rfl rfl rfl,
    fun {k} hl hk => ?_, fun {k e} he ho hk => ?_⟩, fun k hk => htail ▸ hF k hk⟩
  · exact (h.consistent hl hk).same rfl
      (lastReads_effect_of_ne (fun hn => hk (.inr hn.symm)) name v) fun _ hx => hx
  · by_cases hkn : n = k
    · exact hkn ▸ openReads_effect_self name v
    · refine (openReads_effect_of_ne hkn name v).trans (h.idle he ho fun hm => ?_)
      rw [hf] at hm
      rcases List.mem_cons.1 hm with hm | hm
      · exact hkn (Option.some.inj hm).symm
      · exact hk (htail ▸ hm)

end Store

end HotSwap
