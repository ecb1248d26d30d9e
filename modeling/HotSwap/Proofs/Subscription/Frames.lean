import HotSwap.Proofs.Graph.Reading
import HotSwap.Proofs.Subscription.Accurate
/-!
# Frames over an accurate store

Something happens, a source is read, a computation starts or ends: what each of these steps makes of
an accurate store, and what those who run see of it.
-/

namespace HotSwap

open Machine

namespace Store

variable {s t u : Store} {n k : NodeId} {x y : Node} {new : List Event} {rest : List Frame}
  {xs : List NodeId}

theorem lastRun_cons {e : Event} (he : e.actor ≠ some k) :
    { s with trace := e :: s.trace }.lastRun k = s.lastRun k := by
  have hall : ∀ e' ∈ [e], e'.actor ≠ some k := by simpa using he
  cases hx : s.nodes[k]? with
  | none => simp [lastRun, hx]
  | some x => simpa [lastRun, hx] using lastRun_append hall s.trace x

theorem Accurate.emit (h : s.Accurate) {e : Event} (he : ∀ k, e.actor = some k → k ∈ s.running) :
    { s with trace := e :: s.trace }.Accurate := by
  have hne {k : NodeId} (hk : k ∉ s.running) : e.actor ≠ some k := fun ha => hk (he k ha)
  refine { h with settled := ?_, counted := ?_, idle := ?_, past := ?_, active := ?_ }
  · intro k hk hl hc n
    rw [lastRun_cons (hne hk)]
    exact h.settled hk hl hc n
  · intro k e' hn hk
    rw [lastRun_cons (hne hk)]
    exact h.counted hn hk
  · intro k x hn hx hk
    have hall : ∀ e' ∈ [e], e'.closes k = false := by simpa using Event.closes_of_ne (hne hk)
    change readsOf k (sinceEnd k ([e] ++ s.trace)) = []
    rw [sinceEnd_append hall, List.singleton_append, readsOf_cons_of_ne (hne hk)]
    exact h.idle hn hx hk
  · intro e' he' k ha
    rcases List.mem_cons.1 he' with rfl | he'
    · obtain ⟨x, hx, _⟩ := (h.active k (he k ha)).2
      exact (List.getElem?_eq_some_iff.1 hx).1
    · exact h.past e' he' k ha
  · exact h.actives { Retains.refl s with } (List.Subset.refl _)

theorem Runs.emit (s : Store) {e : Event} (he : ∀ k ∈ s.running, e.actor ≠ some k) :
    s.Runs [e] { s with trace := e :: s.trace } where
  toRetains := { Retains.refl s with }
  trace := rfl
  readers := rfl
  below := rfl
  top n := by
    constructor
    · exact .inl
    · rintro (hn | ⟨r, hr, hn⟩)
      · exact hn
      · rw [readsOf_cons_of_ne (he r (mem_running_of_reader? hr))] at hn
        cases hn
  silent e' he' k hk ha := by
    obtain rfl := List.mem_singleton.1 he'
    exact absurd ha (he k hk)

theorem Runs.of_retains (h : s.Retains t) (ht : t.trace = s.trace) (hf : t.frames = s.frames) :
    s.Runs [] t where
  toRetains := h
  trace := ht
  readers := by rw [hf]
  below := by rw [hf]
  top n := by simp [sources, hf]
  silent := by simp

theorem mem_sources_reading {r : NodeId} :
    k ∈ ((Frame.mk (some r) xs).reading n).sources ↔ k ∈ xs ∨ k = n := by
  unfold Frame.reading
  split
  · simp
  · rename_i hn
    have hmem : n ∈ xs := by simpa using hn
    grind

theorem nodup_sources_reading {f : Frame} (hf : f.sources.Nodup) : (f.reading n).sources.Nodup := by
  unfold Frame.reading
  split
  · rename_i hn
    change (f.sources ++ [n]).Nodup
    rw [← List.concat_eq_append, List.nodup_concat]
    exact ⟨hn.2, hf⟩
  · exact hf

theorem readers_tracked (s : Store) (n : NodeId) :
    (s.tracked n).frames.map Frame.reader = s.frames.map Frame.reader := by
  rcases tracked_cases s n with ⟨_, ht⟩ | ⟨r, sources, rest, hf, ht⟩ <;> rw [ht]
  simp [hf, Frame.reader_reading]

theorem running_tracked (s : Store) (n : NodeId) : (s.tracked n).running = s.running := by
  rw [running_eq, running_eq, readers_tracked]

theorem reader?_tracked (s : Store) (n : NodeId) : (s.tracked n).reader? = s.reader? := by
  rw [reader?_eq_head, reader?_eq_head, readers_tracked]

theorem retains_tracked (s : Store) (n : NodeId) : s.Retains (s.tracked n) := by
  rcases tracked_cases s n with ⟨_, ht⟩ | ⟨r, sources, rest, _, ht⟩ <;> rw [ht]
  · exact .refl s
  · exact { Retains.refl s with }

theorem Accurate.tracked (h : s.Accurate) (n : NodeId) : (s.tracked n).Accurate := by
  have hactive := h.actives (retains_tracked s n) (running_tracked s n ▸ List.Subset.refl _)
  have hrunning := running_tracked s n
  rcases tracked_cases s n with ⟨_, ht⟩ | ⟨r, xs, rest, hf, ht⟩
  · rwa [ht]
  rw [ht] at hactive hrunning ⊢
  have htop : Frame.mk (some r) xs ∈ s.frames := by simp [hf]
  have hbelow {f : Frame} (hm : f ∈ rest) : f ∈ s.frames := by simp [hf, hm]
  have hr := mem_running htop
  have hrest : ∀ {k ys}, ⟨some k, ys⟩ ∈ rest → k ≠ r := by
    rintro k ys hk rfl
    have hapart := h.apart
    simp only [running, hf, List.filterMap_cons, List.nodup_cons] at hapart
    exact hapart.1 (List.mem_filterMap.2 ⟨⟨some k, ys⟩, hk, rfl⟩)
  -- only the reader on top is listed anew, and only he takes note
  refine { h with
    listed := Edges.Listed.subscribe h.listed n r
    member := ?_, current := ?_, settled := ?_, apart := hrunning ▸ h.apart, distinct := ?_
    counted := fun he hk => h.counted he (hrunning ▸ hk)
    idle := fun hx ht hk => h.idle hx ht (hrunning ▸ hk)
    active := hactive }
  · intro k x hk
    rcases Edges.mem_readers_subscribe_iff.1 hk with hk | ⟨_, rfl⟩
    · exact h.member hk
    · exact ⟨(h.active k hr).1.live h.toHolding, (h.active k hr).2⟩
  · intro k ys hk x
    rw [Edges.mem_readers_subscribe_iff]
    rcases List.mem_cons.1 hk with hk | hk
    · have hys : ys = ((Frame.mk (some r) xs).reading n).sources := by rw [← hk]
      have hkr : k = r := by simpa [Frame.reader_reading] using congrArg Frame.reader hk
      rw [hys, mem_sources_reading, hkr, h.current htop]
      simp
    · rw [h.current (hbelow hk)]
      simp [hrest hk]
  · intro k hk hl hc x
    have hkr : k ≠ r := fun e => (hrunning ▸ hk) (e ▸ hr)
    rw [Edges.mem_readers_subscribe_iff, or_iff_left fun e => hkr e.2]
    exact h.settled (hrunning ▸ hk) hl hc x
  · intro f hmem
    rcases List.mem_cons.1 hmem with rfl | hmem
    · exact nodup_sources_reading (h.distinct _ htop)
    · exact h.distinct f (hbelow hmem)

theorem mem_sources_tracked (s : Store) (n y : NodeId) :
    y ∈ (s.tracked n).sources ↔ y ∈ s.sources ∨ s.reader?.isSome ∧ y = n := by
  rcases tracked_cases s n with ⟨hr, ht⟩ | ⟨r, xs, rest, hf, ht⟩ <;> rw [ht]
  · simp [hr]
  · have hreader : s.reader? = some r := by simp [reader?, hf]
    simp [sources, hf, hreader, mem_sources_reading]

theorem below_tracked (s : Store) (n : NodeId) : (s.tracked n).frames.tail = s.frames.tail := by
  rcases tracked_cases s n with ⟨_, ht⟩ | ⟨r, sources, rest, hf, ht⟩ <;> rw [ht]
  rw [hf, List.tail_cons, List.tail_cons]

theorem trace_tracked (s : Store) (n : NodeId) : (s.tracked n).trace = s.trace := by
  rcases tracked_cases s n with ⟨_, ht⟩ | ⟨r, sources, rest, hf, ht⟩ <;> rw [ht]

theorem Runs.read (h : (s.tracked n).Runs new t) (hf : t.frames = (s.tracked n).frames)
    (v : Content) : s.Runs (.read s.reader? n v :: new)
      { t with trace := .read s.reader? n v :: t.trace } where
  toRetains := { (retains_tracked s n).trans h.toRetains with }
  trace := by
    change _ :: t.trace = _
    rw [h.trace, trace_tracked, List.cons_append]
  readers := by
    change t.frames.map Frame.reader = _
    rw [hf, readers_tracked]
  below := by
    change t.frames.tail = _
    rw [hf, below_tracked]
  top y := by
    have htop := h.top y
    rw [reader?_tracked, mem_sources_tracked] at htop
    change y ∈ t.sources ↔ _
    have hsources : y ∈ t.sources ↔ y ∈ s.sources ∨ s.reader?.isSome ∧ y = n := by
      rw [← mem_sources_tracked, sources, hf, sources]
    cases hr : s.reader? with
    | none => simp [hsources, hr]
    | some r =>
      rw [hr] at htop
      simp only [hsources, hr, Option.isSome_some, true_and, Option.some.injEq, exists_eq_left',
        readsOf_read_self, List.mem_cons] at htop ⊢
      grind
  silent e he k hk ha := by
    rcases List.mem_cons.1 he with rfl | he
    · exact ⟨ha, rfl, rfl⟩
    · rw [← reader?_tracked s n]
      exact h.silent e he k (running_tracked s n ▸ hk) ha

theorem Accurate.entered (h : s.Accurate) (hn : n ∉ s.running) (ha : s.Anchored (.node n))
    (hc : s.Computes n) : (s.entered n).Accurate := by
  have hr : s.Retains (s.entered n) := { Retains.refl s with }
  refine { h with
    listed := Edges.Listed.unsubscribe h.listed n
    member := fun hk => h.member ((Edges.mem_readers_unsubscribe _).1 hk).1
    current := ?_, settled := ?_, apart := List.nodup_cons.2 ⟨hn, h.apart⟩, distinct := ?_
    counted := fun he hk => h.counted he fun hm => hk (List.mem_cons_of_mem _ hm)
    idle := fun hx ht hk => h.idle hx ht fun hm => hk (List.mem_cons_of_mem _ hm)
    active := ?_ }
  · intro k xs hk x
    rw [Store.entered, Edges.mem_readers_unsubscribe]
    rcases List.mem_cons.1 hk with e | hf
    · cases e
      simp
    · have hkn : k ≠ n := fun e => hn (e ▸ mem_running hf)
      rw [and_iff_left hkn]
      exact h.current hf x
  · intro k hk hl hc x
    obtain ⟨hkn, hk⟩ := List.ne_and_not_mem_of_not_mem_cons hk
    rw [Store.entered, Edges.mem_readers_unsubscribe, and_iff_left hkn]
    exact h.settled hk hl hc x
  · intro f hf
    rcases List.mem_cons.1 hf with rfl | hf
    · exact List.nodup_nil
    · exact h.distinct f hf
  · intro k hk
    rcases List.mem_cons.1 hk with rfl | hk
    · exact ⟨hr.anchored ha, hr.computes hc⟩
    · exact (h.active k hk).imp hr.anchored hr.computes

theorem Accurate.untracked (h : s.Accurate) :
    { s with frames := { reader := none } :: s.frames }.Accurate := by
  refine { h with current := ?_, distinct := ?_, active := ?_ }
  · intro k xs hk
    rcases List.mem_cons.1 hk with hk | hk
    · cases hk
    · exact h.current hk
  · intro f hf
    rcases List.mem_cons.1 hf with rfl | hf
    · exact List.nodup_nil
    · exact h.distinct f hf
  · exact h.actives { Retains.refl s with } (List.Subset.refl _)

/-- The run of `n` has read `xs`, and is over as far as the trace tells. -/
structure RanOver (s : Store) (n : NodeId) (xs : List NodeId) : Prop where
  reads : ∀ y, y ∈ xs ↔ y ∈ s.lastRun n
  idle : ∀ x, s.nodes[n]? = some x → x.Tells → readsOf n (sinceEnd n s.trace) = []
  counted : ∀ e, s.nodes[n]? = some (.effect e) → e.dependencies = (s.lastRun n).dedup.length

theorem Accurate.popped {r : Option NodeId} (h : s.Accurate) (hf : s.frames = ⟨r, xs⟩ :: rest)
    (hr : ∀ n, r = some n → s.RanOver n xs) : { s with frames := s.frames.tail }.Accurate := by
  have hrunning (k : NodeId) :
      k ∈ s.running ↔ r = some k ∨ k ∈ { s with frames := s.frames.tail }.running := by
    simp only [running, hf, List.tail_cons, List.mem_filterMap, List.mem_cons]
    grind
  have hapart := h.apart
  simp only [running, hf, List.filterMap_cons] at hapart
  have hcases {k : NodeId} (hk : k ∉ { s with frames := s.frames.tail }.running) :
      r = some k ∨ k ∉ s.running := by
    by_cases hrk : r = some k
    · exact .inl hrk
    · exact .inr fun hm => ((hrunning k).1 hm).elim hrk hk
  refine { h with
    current := fun hk => h.current (List.mem_of_mem_tail hk)
    settled := ?_, apart := ?_
    distinct := fun f hf => h.distinct f (List.mem_of_mem_tail hf)
    counted := ?_, idle := ?_, active := ?_ }
  · intro k hk hl hc n
    rcases hcases hk with rfl | hk
    · exact (h.current (hf ▸ List.mem_cons_self) n).trans ((hr k rfl).reads n)
    · exact h.settled hk hl hc n
  · simp only [running, hf, List.tail_cons]
    cases r with
    | none => exact hapart
    | some n => exact (List.nodup_cons.1 hapart).2
  · intro k e he hk
    rcases hcases hk with rfl | hk
    · exact (hr k rfl).counted e he
    · exact h.counted he hk
  · intro k x hx ht hk
    rcases hcases hk with rfl | hk
    · exact (hr k rfl).idle x hx ht
    · exact h.idle hx ht hk
  · exact h.actives { Retains.refl s with } fun k hk => (hrunning k).2 (.inr hk)

theorem Runs.frames_eq {r : Option NodeId} (h : s.Runs new t)
    (hf : s.frames = { reader := r } :: rest) :
    ∃ xs, t.frames = ⟨r, xs⟩ :: rest ∧ ∀ y, y ∈ xs ↔ ∃ k, r = some k ∧ y ∈ readsOf k new := by
  have hmap := h.readers
  have hbelow := h.below
  have htop := h.top
  rw [hf] at hmap hbelow
  cases hfs : t.frames with
  | nil => simp [hfs] at hmap
  | cons f fs =>
    obtain ⟨r', xs⟩ := f
    rw [hfs] at hmap hbelow
    obtain rfl : r' = r := (List.cons.inj hmap).1
    cases hbelow
    refine ⟨xs, rfl, fun y => ?_⟩
    simpa [sources, Store.reader?, hf, hfs] using htop y

theorem Runs.neither (h : s.Runs new t) (hn : n ∈ s.running) :
    ∀ e ∈ new, e.closes n = false ∧ e.opens n = false := by
  intro e he
  by_cases ha : e.actor = some n
  · exact (h.silent e he n hn ha).2
  · exact ⟨Event.closes_of_ne ha, Event.opens_of_ne ha⟩

theorem Runs.popped {edges : Edges} {f : Frame}
    (h : { s with edges, frames := f :: s.frames }.Runs new u)
    (hf : ∀ r, f.reader = some r → r ∉ s.running) :
    s.Runs new { u with frames := u.frames.tail } ∧
      (∀ e ∈ new, ∀ k ∈ s.running, e.actor ≠ some k) := by
  have hsilent : ∀ e ∈ new, ∀ k ∈ s.running, e.actor ≠ some k := by
    intro e he k hk ha
    have hmem : k ∈ { s with edges, frames := f :: s.frames }.running := by
      obtain ⟨g, hg, hgk⟩ := List.mem_filterMap.1 hk
      exact List.mem_filterMap.2 ⟨g, List.mem_cons_of_mem _ hg, hgk⟩
    exact hf k (h.silent e he k hmem ha).1 hk
  have hframes : u.frames.tail = s.frames := h.below
  refine ⟨{
    node := h.node, component := h.component, roots := h.roots, pinned := h.pinned
    trace := h.trace
    readers := by rw [hframes]
    below := by rw [hframes]
    top := ?_
    silent := fun e he k hk ha => absurd ha (hsilent e he k hk) }, hsilent⟩
  intro n
  simp only [sources, hframes]
  constructor
  · exact .inl
  · rintro (hn | ⟨r, hr, hn⟩)
    · exact hn
    · rw [readsOf_eq_nil fun e he => hsilent e he r (mem_running_of_reader? hr)] at hn
      cases hn

end Store

end HotSwap
