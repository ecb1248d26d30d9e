import HotSwap.Proofs.Graph.Fresh
/-!
# Glitches

A change is told depth first: the effects behind one reader of a source run before the next reader is
told. So an effect that reads a source along two ways runs in between, sees one of them as it was, and
runs once more. Where no effect reads the written signal along two ways, each effect runs at most once
and sees nothing but values from scratch.
-/

namespace HotSwap

open Machine

def Event.ends (n : NodeId) : Event → Bool
  | .effect k _ _ => k == n
  | _ => false

def runsOf (n : NodeId) (trace : List Event) : Nat := trace.countP (Event.ends n)

namespace Store

variable {P Q D D' : Set NodeId} {s t u : Store} {n x : NodeId} {e : Effect} {d : Nat}
  {new new' : List Event}

/-- An effect that lives and reads `x`, directly or through memos. -/
structure Reacts (s : Store) (x n : NodeId) : Prop where
  effect : ∃ e, s.nodes[n]? = some (.effect e)
  live : .node n ∈ s.live
  leads : s.Leads x n

/-- Nothing that an effect reads, nor the effect itself, reads `x` along two ways. -/
def Unforked (s : Store) (x : NodeId) : Prop :=
  ∀ {n k y y' : NodeId}, s.Reacts x n → s.Leads k n → s.Feeds y k → s.Feeds y' k → s.Leads x y →
    s.Leads x y' → y = y'

def Observant (s : Store) : Prop :=
  ∀ {n : NodeId} {e : Effect}, s.nodes[n]? = some (.effect e) → .node n ∈ s.live →
    e.body.onlyReads = true

/-- What happened on the way: effects of `D` ran, each at most once, and saw values from scratch. -/
structure Smooth (s : Store) (D : Set NodeId) (new : List Event) : Prop where
  ran : ∀ {n : NodeId} {name : String} {v : Json}, .effect n name v ∈ new → n ∈ D
  once : ∀ n, runsOf n new ≤ 1
  fresh : ∀ {n x : NodeId} {w : Content}, .read (some n) x w ∈ new → s.memoAt n = none →
    w = .json (s.scratch x)

/-- The same nodes live and have the same bodies. -/
structure SameGraph (s t : Store) : Prop where
  live : t.live = s.live
  body : ∀ n, t.body? n = s.body? n
  memos : ∀ n, t.memoAt n = none ↔ s.memoAt n = none

/-- Nothing changed but what memos hold, who reads what, and what effects count. -/
structure Stays (s t : Store) : Prop extends SameGraph s t where
  cached : ∀ n, s.memoAt n = none → t.cached n = s.cached n

theorem effect_iff {body : LinkedExpr} : (∃ e, s.nodes[n]? = some (.effect e) ∧ e.body = body) ↔
    s.memoAt n = none ∧ s.body? n = some body := by
  cases hn : s.nodes[n]? with
  | none => simp [body?, hn]
  | some z =>
    cases z with
    | memo m => simp [memoAt, hn]
    | _ => simp [memoAt, body?, Node.body?, hn]

theorem Unforked.reader_unique (h : s.Unforked x) (hg : s.Graph) {m m' : NodeId}
    (hm : s.Feeds x m) (hm' : s.Feeds x m') (hn : s.Reacts x n) (hk : s.Leads m n)
    (hk' : s.Leads m' n) : m = m' := by
  suffices ∀ k, s.Leads k n → s.Leads m k → s.Leads m' k → m = m' from this n .refl hk hk'
  intro k hkn hmk
  -- a way back to `x` would be a cycle
  have hback {j : NodeId} (hj : s.Feeds x j) (hx : s.Leads j x) : False :=
    absurd (hg.lt_of_feeds hj) (Nat.not_lt.2 (hg.le_of_leads hx))
  induction hmk with
  | refl =>
    intro hmk'
    rcases Relation.ReflTransGen.cases_tail hmk' with he | ⟨j, hj, hjm⟩
    · exact he
    · obtain rfl := h hn hkn hm hjm .refl (hj.head hm')
      exact (hback hm' hj).elim
  | @tail j k hj hjk ih =>
    intro hmk'
    rcases Relation.ReflTransGen.cases_tail hmk' with rfl | ⟨j', hj', hjk'⟩
    · obtain rfl := h hn hkn hm' hjk .refl (hj.head hm)
      exact (hback hm hj).elim
    · obtain rfl := h hn hkn hjk hjk' (hj.head hm) (hj'.head hm')
      exact ih (hkn.head hjk) hj'

namespace SameGraph

theorem feeds (h : s.SameGraph t) : t.Feeds = s.Feeds := by
  funext y k
  simp only [Feeds, h.body]

theorem leads (h : s.SameGraph t) : t.Leads = s.Leads := by rw [Leads, Leads, h.feeds]

theorem effect (h : s.SameGraph t) {body : LinkedExpr} :
    (∃ e, t.nodes[n]? = some (.effect e) ∧ e.body = body) ↔
      ∃ e, s.nodes[n]? = some (.effect e) ∧ e.body = body := by
  rw [effect_iff, effect_iff, h.body, h.memos]

theorem isEffect (h : s.SameGraph t) :
    (∃ e, t.nodes[n]? = some (.effect e)) ↔ ∃ e, s.nodes[n]? = some (.effect e) := by
  constructor
  · rintro ⟨e, he⟩
    obtain ⟨e', he', _⟩ := h.effect.1 ⟨e, he, rfl⟩
    exact ⟨e', he'⟩
  · rintro ⟨e, he⟩
    obtain ⟨e', he', _⟩ := h.effect.2 ⟨e, he, rfl⟩
    exact ⟨e', he'⟩

theorem reacts (h : s.SameGraph t) : t.Reacts x n ↔ s.Reacts x n := by
  constructor
  · rintro ⟨he, hl, hx⟩
    exact ⟨h.isEffect.1 he, h.live ▸ hl, h.leads ▸ hx⟩
  · rintro ⟨he, hl, hx⟩
    exact ⟨h.isEffect.2 he, h.live ▸ hl, h.leads ▸ hx⟩

theorem unforked (h : s.SameGraph t) (hx : s.Unforked x) : t.Unforked x := by
  intro n k y y' hn
  rw [h.feeds, h.leads]
  exact hx (h.reacts.1 hn)

theorem observant (h : s.SameGraph t) (hs : s.Observant) : t.Observant := by
  intro n e he hl
  obtain ⟨e', he', hbody⟩ := h.effect.1 ⟨e, he, rfl⟩
  exact hbody ▸ hs he' (h.live ▸ hl)

theorem set {y z : Node} (hn : s.nodes[n]? = some y) (hgist : z.gist = y.gist) :
    s.SameGraph { s with nodes := s.nodes.set n z } := by
  refine ⟨rfl, body?_set hn (Node.body?_of_gist hgist), fun k => ?_⟩
  by_cases hkn : n = k
  · subst hkn
    simp only [memoAt, List.getElem?_set_self (List.getElem?_eq_some_iff.1 hn).1, hn]
    cases z <;> cases y <;> simp [Node.gist] at hgist ⊢
  · simp only [memoAt, List.getElem?_set_ne hkn]

end SameGraph

namespace Stays

theorem refl (s : Store) : s.Stays s := ⟨⟨rfl, fun _ => rfl, fun _ => .rfl⟩, fun _ _ => rfl⟩

theorem trans (h : s.Stays t) (h' : t.Stays u) : s.Stays u where
  live := h'.live.trans h.live
  body n := (h'.body n).trans (h.body n)
  memos n := (h'.memos n).trans (h.memos n)
  cached n hn := (h'.cached n ((h.memos n).2 hn)).trans (h.cached n hn)

theorem of_refreshed {K : Set NodeId} {b : Nat} (h : s.Refreshed K b t) : s.Stays t :=
  ⟨⟨h.live, h.body, h.memos⟩, fun _ hn => cached_congr (h.same (fresh_of_memoAt_none hn))⟩

theorem scratch (h : s.Stays t) : t.scratch = s.scratch := scratch_congr h.body h.memos h.cached

theorem set {y z : Node} (hn : s.nodes[n]? = some y) (hgist : z.gist = y.gist)
    (hcached : s.memoAt n = none → z.cached = y.cached) :
    s.Stays { s with nodes := s.nodes.set n z } := by
  refine ⟨.set hn hgist, fun k hk => ?_⟩
  by_cases hkn : n = k
  · subst hkn
    simp only [Store.cached, List.getElem?_set_self (List.getElem?_eq_some_iff.1 hn).1, hn,
      Option.map_some, Option.getD_some, hcached hk]
  · exact cached_congr (List.getElem?_set_ne hkn)

end Stays

namespace Smooth

theorem nil (s : Store) : s.Smooth D [] := ⟨by simp, by simp [runsOf], by simp⟩

theorem mono (h : s.Smooth D new) (hD : D ⊆ D') : s.Smooth D' new :=
  { h with ran := fun he => hD (h.ran he) }

theorem of_stays (hs : s.Stays t) (h : t.Smooth D new) : s.Smooth D new where
  ran := h.ran
  once := h.once
  fresh hr hm := hs.scratch ▸ h.fresh hr ((hs.memos _).2 hm)

theorem runsOf_eq_zero (h : s.Smooth D new) (hn : n ∉ D) : runsOf n new = 0 := by
  refine List.countP_eq_zero.2 fun e he hends => ?_
  cases e with
  | effect k name v =>
    obtain rfl : k = n := by simpa [Event.ends] using hends
    exact hn (h.ran he)
  | _ => cases hends

theorem append (h : s.Smooth D new) (h' : s.Smooth D' new') (hD : ∀ n, n ∈ D → n ∉ D') :
    s.Smooth (D ∪ D') (new' ++ new) where
  ran he := (List.mem_append.1 he).elim (fun he => .inr (h'.ran he)) fun he => .inl (h.ran he)
  once n := by
    rw [runsOf, List.countP_append]
    by_cases hn : n ∈ D
    · exact (congrArg (· + _) (h'.runsOf_eq_zero (hD n hn))).trans (Nat.zero_add _) ▸ h.once n
    · exact (congrArg (_ + ·) (h.runsOf_eq_zero hn)).trans (Nat.add_zero _) ▸ h'.once n
  fresh hr hm := (List.mem_append.1 hr).elim (h'.fresh · hm) (h.fresh · hm)

end Smooth

theorem mem_openReads {w : Content} {p : NodeId → Prop} (h : ∀ e ∈ new, e.Quiet p)
    (hr : .read (some n) x w ∈ new) : (x, w) ∈ openReads n new := by
  induction new with
  | nil => cases hr
  | cons e new ih =>
    have hnew (hr : .read (some n) x w ∈ new) := ih (fun e he => h e (List.mem_cons_of_mem _ he)) hr
    rcases List.mem_cons.1 hr with rfl | hmem
    · simp
    · have he := h e List.mem_cons_self
      cases e with
      | effect => exact he.elim
      | read reader y v =>
        cases reader with
        | none => exact hnew hmem
        | some r =>
          simp only [openReads]
          split
          · exact List.mem_cons_of_mem _ (hnew hmem)
          · exact hnew hmem
      | _ => exact hnew hmem

/-- An effect none of whose sources is still to be told sees all of them from scratch. -/
theorem Calm.run_smooth (h : s.Calm (P ∪ {n})) (hl : .node n ∈ s.live)
    (he : s.nodes[n]? = some (.effect e)) (ho : e.body.onlyReads = true)
    (hP : ∀ k ∈ P, ¬s.Leads k n) (ht : runEffect (calls d) n s = some ((), t)) :
    s.Stays t ∧ ∃ new, t.trace = new ++ s.trace ∧ s.Smooth {n} new := by
  cases hd : e.disposed with
  | true =>
    rw [runEffect_of_disposed _ he hd] at ht
    cases ht
    exact ⟨.refl s, [], rfl, .nil s⟩
  | false =>
    obtain ⟨-, u, count, hobs, rfl⟩ := h.run_observing he hd ho ht
    have hsu : s.Stays u := { Stays.of_refreshed hobs.toRefreshed with }
    have hun : u.nodes[n]? = some (.effect e) := (hobs.above (Nat.le_refl n)).trans he
    have hend : u.Stays { u with
        nodes := u.nodes.set n (.effect { e with runs := e.runs + 1, dependencies := count })
        frames := u.frames.tail
        trace := .effect n e.name (e.body.value u.cached {}) :: u.trace } :=
      { Stays.set (z := .effect { e with runs := e.runs + 1, dependencies := count }) hun rfl
          fun _ => rfl with }
    obtain ⟨new, hnew, hquiet, hopen⟩ := hobs.trace
    have hnone : s.memoAt n = none := by simp [memoAt, he]
    refine ⟨hsu.trans hend, .effect n e.name (e.body.value u.cached {}) :: new, ?_, ?_⟩
    · exact congrArg (_ :: ·) hnew
    have hends : ∀ e ∈ new, ∀ k, e.ends k = false := by
      intro e he k
      have hq := hquiet e he
      cases e with
      | effect => exact hq.elim
      | _ => rfl
    refine ⟨fun {k name v} hk => ?_, fun k => ?_, fun {k x w} hr hm => ?_⟩
    · rcases List.mem_cons.1 hk with hk | hk
      · cases hk
        rfl
      · simpa [Event.ends] using hends _ hk k
    · rw [runsOf, List.countP_cons, List.countP_eq_zero.2 fun e he => by simp [hends e he k]]
      split <;> simp
    · have hr' := (List.mem_cons.1 hr).resolve_left (by simp)
      have hk : n = k := by
        rcases hquiet _ hr' with hk | hk
        · exact absurd hm hk
        · exact Option.some.inj hk
      subst hk
      have hseen := mem_openReads hquiet hr'
      rw [hopen n rfl hnone, List.mem_reverse] at hseen
      obtain ⟨y, hy, hw⟩ := List.mem_map.1 hseen
      cases hw
      have hfeeds : s.Feeds x n :=
        ⟨e.body, body?_eq_some.2 ⟨_, he, rfl⟩, Expr.reads_subset_gets _ hy⟩
      rw [hobs.sound.cached_eq_scratch (hobs.live ▸ h.sound.graph.closed hfeeds hl)
        (hobs.found x hy).1 fun k hk hPk => ?_, hsu.scratch]
      rw [hsu.leads] at hk
      rcases hPk with hPk | rfl
      · exact hP k hPk (hk.tail hfeeds)
      · exact absurd (h.sound.graph.le_of_leads hk) (Nat.not_le.2 (h.sound.graph.lt_of_feeds hfeeds))

end Store

open Store

variable {P : Set NodeId} {s t u : Store} {n x : NodeId} {d : Nat} {c : Calls} {ns : List NodeId}

theorem Store.Reacts.of_feeds {m : NodeId} (h : s.Reacts m n) (hf : s.Feeds x m) : s.Reacts x n :=
  { h with leads := h.leads.head hf }

theorem Store.Unforked.of_feeds {m : NodeId} (h : s.Unforked x) (hf : s.Feeds x m) :
    s.Unforked m := fun hn hk hy hy' hl hl' => h (hn.of_feeds hf) hk hy hy' (hl.head hf) (hl'.head hf)

/-- A notification of a source that no effect reads along two ways, while none of its effects reads
what is still to be told. -/
def Calls.Smooth (c : Calls) : Prop :=
  ∀ ⦃P : Set NodeId⦄ ⦃x : NodeId⦄ ⦃s t : Store⦄, s.Calm (P ∪ {k | k ∈ s.targets x}) → s.Observant →
    s.Unforked x → (∀ k ∈ P, ∀ n, s.Reacts x n → ¬s.Leads k n) → c.notify x s = some ((), t) →
      s.Stays t ∧ ∃ new, t.trace = new ++ s.trace ∧ s.Smooth {n | s.Reacts x n} new

namespace Machine

theorem mark_smooth (hc : c.Smooth) (h : s.Calm (P ∪ {n})) (ho : s.Observant) (hu : s.Unforked n)
    (hP : ∀ k ∈ P, ∀ m, s.Reacts n m → ¬s.Leads k m) {m : Memo} (hn : s.nodes[n]? = some (.memo m))
    (ht : mark c n s = some ((), t)) :
    s.Stays t ∧ ∃ new, t.trace = new ++ s.trace ∧ s.Smooth {k | s.Reacts n k} new := by
  simp only [mark, bind_apply, node?_apply, hn, Option.bind_some] at ht
  cases hf : m.freshness with
  | clean =>
    simp only [markMemo, hf, bind_apply, setNode_apply, Option.bind_some] at ht
    have hstay : s.Stays { s with
        nodes := s.nodes.set n (.memo { m with freshness := .maybeDirty }) } :=
      .set hn rfl fun hnone => by simp [memoAt, hn] at hnone
    obtain ⟨hst, new, hnew, hsmooth⟩ := hc (h.mark hn) (hstay.observant ho) (hstay.unforked hu)
      (fun k hk l hl => hstay.leads ▸ hP k hk l (hstay.reacts.1 hl)) ht
    exact ⟨hstay.trans hst, new, hnew,
      (hsmooth.of_stays hstay).mono fun k hk => hstay.reacts.1 hk⟩
  | _ =>
    simp only [markMemo, hf, pure_apply, Option.some.injEq, Prod.mk.injEq, true_and] at ht
    subst ht
    exact ⟨.refl s, [], rfl, .nil s⟩

/-- The first pass over readers of `x`: each effect is behind one of them only. -/
theorem forEach_mark_smooth (hc : (calls d).Smooth) (hns : ∀ m ∈ ns, s.Feeds x m) (hnd : ns.Nodup)
    (h : s.Calm (P ∪ {k | k ∈ ns})) (ho : s.Observant) (hu : s.Unforked x)
    (hP : ∀ k ∈ P, ∀ m ∈ ns, s.memoAt m ≠ none → ∀ l, s.Reacts m l → ¬s.Leads k l)
    (ht : forEach (mark (calls d)) ns s = some ((), t)) :
    s.Stays t ∧ ∃ new, t.trace = new ++ s.trace ∧
      s.Smooth {n | ∃ m ∈ ns, s.memoAt m ≠ none ∧ s.Reacts m n} new := by
  induction ns generalizing P s with
  | nil =>
    cases ht
    exact ⟨.refl _, [], rfl, .nil _⟩
  | cons m rest ih =>
    obtain ⟨hm, hnd⟩ := List.nodup_cons.1 hnd
    have hxm := hns m List.mem_cons_self
    have hxrest : ∀ k ∈ rest, s.Feeds x k := fun k hk => hns k (List.mem_cons_of_mem _ hk)
    -- what is behind `m` is not behind a later reader
    have hapart {k l : NodeId} (hk : k ∈ rest) (hl : s.Reacts x l) (hml : s.Leads m l) :
        ¬s.Leads k l := fun hkl =>
      hm (hu.reader_unique h.sound.graph hxm (hxrest k hk) hl hml hkl ▸ hk)
    obtain ⟨_, u, hmark, ht⟩ := bind_eq_some.1 ht
    by_cases hmemo : ∃ a, s.nodes[m]? = some (.memo a)
    · obtain ⟨a, ha⟩ := hmemo
      have hnone : s.memoAt m ≠ none := by simp [memoAt, ha]
      have hhead : s.Calm ((P ∪ {k | k ∈ rest}) ∪ {m}) := h.mono fun k _ hk => by
        rcases hk with hk | hk
        · exact .inl (.inl hk)
        · exact (List.mem_cons.1 hk).elim .inr fun hk => .inl (.inr hk)
      obtain ⟨hsu, new, hnew, hsmooth⟩ := mark_smooth hc hhead ho (hu.of_feeds hxm) (fun k hk l hl =>
        hk.elim (fun hk => hP k hk m List.mem_cons_self hnone l hl)
          fun hk => hapart hk (hl.of_feeds hxm) hl.leads) ha hmark
      obtain ⟨hut, new', hnew', hsmooth'⟩ := ih (s := u) (P := P) (fun k hk => hsu.feeds ▸ hxrest k hk)
        hnd (mark_calm (calls_settle d) hhead ha hmark) (hsu.observant ho) (hsu.unforked hu)
        (fun k hk m' hm' hmm l hl => hsu.leads ▸ hP k hk m' (List.mem_cons_of_mem _ hm')
          (mt (hsu.memos m').2 hmm) l (hsu.reacts.1 hl)) ht
      refine ⟨hsu.trans hut, new' ++ new, by rw [hnew', hnew, List.append_assoc], ?_⟩
      refine (hsmooth.append (hsmooth'.of_stays hsu) ?_).mono ?_
      · rintro l hl ⟨m', hm', -, hl'⟩
        exact hapart hm' (hl.of_feeds hxm) hl.leads (hsu.reacts.1 hl').leads
      · rintro l (hl | ⟨m', hm', hmm, hl⟩)
        · exact ⟨m, List.mem_cons_self, hnone, hl⟩
        · exact ⟨m', List.mem_cons_of_mem _ hm', mt (hsu.memos m').2 hmm, hsu.reacts.1 hl⟩
    · rw [mark_of_not_memo _ h.sound.graph fun a ha => hmemo ⟨a, ha⟩] at hmark
      obtain rfl : s = u := by simpa using hmark
      have hpassed : s.Calm ((P ∪ {m}) ∪ {k | k ∈ rest}) := h.mono fun k _ hk => by
        rcases hk with hk | hk
        · exact .inl (.inl hk)
        · exact (List.mem_cons.1 hk).elim (fun hk => .inl (.inr hk)) .inr
      obtain ⟨hst, new, hnew, hsmooth⟩ := ih (P := P ∪ {m}) hxrest hnd hpassed ho hu (by
        rintro k (hk | rfl) m' hm' hmm l hl hkl
        · exact hP k hk m' (List.mem_cons_of_mem _ hm') hmm l hl hkl
        · exact hapart hm' (hl.of_feeds (hxrest m' hm')) hkl hl.leads) ht
      refine ⟨hst, new, hnew, hsmooth.mono ?_⟩
      rintro l ⟨m', hm', hmm⟩
      exact ⟨m', List.mem_cons_of_mem _ hm', hmm⟩

/-- The second pass over readers of `x`: each effect runs once. -/
theorem forEach_schedule_smooth (hns : ∀ m ∈ ns, s.Feeds x m ∧ .node m ∈ s.live) (hnd : ns.Nodup)
    (h : s.Calm (P ∪ {k | k ∈ ns ∧ ∃ e, s.nodes[k]? = some (.effect e)})) (ho : s.Observant)
    (hu : s.Unforked x)
    (hP : ∀ k ∈ P, ∀ m ∈ ns, (∃ e, s.nodes[m]? = some (.effect e)) → ¬s.Leads k m)
    (ht : forEach (schedule (calls d)) ns s = some ((), t)) :
    s.Stays t ∧ ∃ new, t.trace = new ++ s.trace ∧
      s.Smooth {n | n ∈ ns ∧ ∃ e, s.nodes[n]? = some (.effect e)} new := by
  induction ns generalizing s with
  | nil =>
    cases ht
    exact ⟨.refl _, [], rfl, .nil _⟩
  | cons m rest ih =>
    obtain ⟨hm, hnd⟩ := List.nodup_cons.1 hnd
    obtain ⟨hxm, hlm⟩ := hns m List.mem_cons_self
    obtain ⟨_, u, hrun, ht⟩ := bind_eq_some.1 ht
    by_cases he : ∃ e, s.nodes[m]? = some (.effect e)
    · have hreacts : s.Reacts x m := ⟨he, hlm, .single hxm⟩
      obtain ⟨e, he⟩ := he
      rw [schedule_of_effect _ he] at hrun
      have hhead : s.Calm ((P ∪ {k | k ∈ rest ∧ ∃ e, s.nodes[k]? = some (.effect e)}) ∪ {m}) :=
        h.mono fun k _ hk => by
          rcases hk with hk | ⟨hk, hek⟩
          · exact .inl (.inl hk)
          · exact (List.mem_cons.1 hk).elim .inr fun hk => .inl (.inr ⟨hk, hek⟩)
      obtain ⟨hsu, new, hnew, hsmooth⟩ := hhead.run_smooth hlm he (ho he hlm) (by
        rintro k (hk | ⟨hk, -⟩) hkm
        · exact hP k hk m List.mem_cons_self ⟨e, he⟩ hkm
        · exact hm (hu.reader_unique h.sound.graph hxm (hns k (List.mem_cons_of_mem _ hk)).1 hreacts
            .refl hkm ▸ hk)) hrun
      obtain ⟨hut, new', hnew', hsmooth'⟩ := ih (s := u)
        (fun k hk => ⟨hsu.feeds ▸ (hns k (List.mem_cons_of_mem _ hk)).1,
          hsu.live ▸ (hns k (List.mem_cons_of_mem _ hk)).2⟩) hnd
        ((runEffect_calm (calls_settle d) hhead he hrun).mono fun k _ hk =>
          hk.imp id fun hk => ⟨hk.1, hsu.isEffect.2 hk.2⟩) (hsu.observant ho) (hsu.unforked hu)
        (fun k hk m' hm' hem =>
          hsu.leads ▸ hP k hk m' (List.mem_cons_of_mem _ hm') (hsu.isEffect.1 hem)) ht
      refine ⟨hsu.trans hut, new' ++ new, by rw [hnew', hnew, List.append_assoc], ?_⟩
      refine (hsmooth.append (hsmooth'.of_stays hsu) ?_).mono ?_
      · rintro l rfl ⟨hl, -⟩
        exact hm hl
      · rintro l (rfl | ⟨hl, hel⟩)
        · exact ⟨List.mem_cons_self, e, he⟩
        · exact ⟨List.mem_cons_of_mem _ hl, hsu.isEffect.1 hel⟩
    · rw [schedule_of_not_effect _ h.sound.graph fun e hn => he ⟨e, hn⟩] at hrun
      obtain rfl : s = u := by simpa using hrun
      obtain ⟨hst, new, hnew, hsmooth⟩ := ih
        (fun k hk => hns k (List.mem_cons_of_mem _ hk)) hnd
        (h.mono fun k _ hk => hk.imp id fun ⟨hk, hek⟩ =>
          ⟨(List.mem_cons.1 hk).resolve_left fun e => he (e ▸ hek), hek⟩) ho hu
        (fun k hk m' hm' => hP k hk m' (List.mem_cons_of_mem _ hm')) ht
      refine ⟨hst, new, hnew, hsmooth.mono ?_⟩
      rintro l ⟨hl, hel⟩
      exact ⟨List.mem_cons_of_mem _ hl, hel⟩

end Machine

theorem calls_smooth (d : Nat) : (calls d).Smooth := by
  induction d with
  | zero => exact fun P x s t _ _ _ _ ht => by cases ht
  | succ d ih =>
    intro P x s t h ho hu hP ht
    obtain ⟨_, u, hlist, ht⟩ := bind_eq_some.1 ht
    cases hlist
    obtain ⟨_, u, hmarks, hruns⟩ := bind_eq_some.1 ht
    have hns : ∀ m ∈ s.targets x, s.Feeds x m ∧ .node m ∈ s.live := fun m hm =>
      ⟨h.sound.graph.edges (mem_targets.1 hm).1, (mem_targets.1 hm).2⟩
    have hnd : (s.targets x).Nodup := (h.sound.graph.nodup x).sublist List.filter_sublist
    obtain ⟨hsu, new, hnew, hsmooth⟩ := forEach_mark_smooth ih (fun m hm => (hns m hm).1) hnd h ho hu
      (fun k hk m hm _ l hl => hP k hk l (hl.of_feeds (hns m hm).1)) hmarks
    obtain ⟨hut, new', hnew', hsmooth'⟩ := forEach_schedule_smooth
      (fun m hm => ⟨hsu.feeds ▸ (hns m hm).1, hsu.live ▸ (hns m hm).2⟩) hnd
      (forEach_mark_calm (calls_settle d) _ h hmarks) (hsu.observant ho) (hsu.unforked hu)
      (fun k hk m hm he => hsu.leads ▸ hP k hk m
        ⟨hsu.isEffect.1 he, (hns m hm).2, .single (hns m hm).1⟩) hruns
    refine ⟨hsu.trans hut, new' ++ new, by rw [hnew', hnew, List.append_assoc], ?_⟩
    refine (hsmooth.append (hsmooth'.of_stays hsu) ?_).mono ?_
    · rintro n ⟨m, hm, hmemo, hn⟩ ⟨hnt, he⟩
      obtain ⟨e, he⟩ := hsu.isEffect.1 he
      obtain rfl := hu.reader_unique h.sound.graph (hns m hm).1 (hns n hnt).1
        (hn.of_feeds (hns m hm).1) hn.leads .refl
      simp [memoAt, he] at hmemo
    · rintro n (⟨m, hm, -, hn⟩ | ⟨hnt, he⟩)
      · exact hn.of_feeds (hns m hm).1
      · exact ⟨hsu.isEffect.1 he, (hns n hnt).2, .single (hns n hnt).1⟩

/-- A write to a signal that no effect reads along two ways runs each effect at most once, and each
value that an effect reads on the way is the value from scratch after the write. -/
theorem Store.Reached.set_smooth (h : Reached s) (ho : s.Observant) (hu : s.Unforked x) {v : Json}
    (ht : (Operation.set x v).run (calls d) s = some ((), t)) :
    ∃ new, t.trace = new ++ s.trace ∧ (∀ n, runsOf n new ≤ 1) ∧
      ∀ n e y w, t.nodes[n]? = some (.effect e) → .read (some n) y w ∈ new →
        w = .json (t.scratch y) := by
  change write (calls d) x v s = some ((), t) at ht
  by_cases hx : ∃ w, s.nodes[x]? = some (.signal w)
  · obtain ⟨w, hw⟩ := hx
    rw [write_of_signal _ hw] at ht
    have hsame : s.SameGraph { s with nodes := s.nodes.set x (.signal v) } :=
      .set hw rfl
    obtain ⟨hst, new, hnew, hsmooth⟩ := calls_smooth d (h.calm.1.setSignal hw v)
      (hsame.observant ho) (hsame.unforked hu) (fun _ hk => hk.elim) ht
    refine ⟨new, hnew, hsmooth.once, fun n e y w he hr => ?_⟩
    rw [hst.scratch]
    exact hsmooth.fresh hr ((hst.memos n).1 (by simp [memoAt, he]))
  · rw [write_of_ne _ fun w hw => hx ⟨w, hw⟩] at ht
    cases ht
    exact ⟨[], rfl, by simp [runsOf], by simp⟩

namespace Store

theorem chain_feeds {y k : NodeId} (h : chain.Feeds y k) : k = y + 1 := by
  obtain ⟨body, hb, hy⟩ := h
  match k with
  | 0 => cases hb
  | 1 | 2 =>
    cases hb
    cases List.mem_singleton.1 hy
    rfl
  | _ + 3 => cases hb

theorem observant_chain : chain.Observant := by
  intro n e he _
  match n with
  | 0 | 1 => cases he
  | 2 =>
    cases he
    rfl
  | _ + 3 => cases he

theorem unforked_chain : chain.Unforked x := fun _ _ hy hy' _ _ =>
  Nat.succ.inj ((chain_feeds hy).symm.trans (chain_feeds hy'))

def rerun : List Event :=
  [.effect 2 "e" (.bool false), .read (some 2) 1 (.json (.bool false)), .memo 1 "m" (.bool false),
    .read (some 1) 0 (.json (.bool false))]

theorem set_in_chain : ∃ t, (Operation.set 0 (.bool false)).run (calls 5) chain = some ((), t) ∧
    t.trace = rerun ++ chain.trace ∧ (∀ n, runsOf n rerun ≤ 1) ∧ t.scratch 1 = .bool false := by
  refine ⟨_, rfl, rfl, ?_⟩
  obtain ⟨new, hnew, honce, hfresh⟩ := reached_chain.set_smooth (x := 0) (v := .bool false) (d := 5)
    observant_chain unforked_chain rfl
  cases List.append_cancel_right (hnew.symm.trans (rfl : _ = rerun ++ chain.trace))
  exact ⟨honce, (Content.json.inj (hfresh 2 _ 1 _ rfl (.tail _ (.head _)))).symm⟩

example : (([.signal (.bool false), .memo "a" (.get 0), .memo "b" (.get 0),
    .effect "e" (.list [.get 1, .get 2]) false, .set 0 (.bool true)].foldl
      (fun s o => ((Operation.run (calls 5) o s).map Prod.snd).getD s) {}).trace.filter
        (Event.ends 3 ·)).take 2 =
    [.effect 3 "e" (.array [.bool true, .bool true]), .effect 3 "e" (.array [.bool true, .bool false])] := by
  cbv

end Store

end HotSwap
