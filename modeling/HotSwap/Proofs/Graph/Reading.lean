import HotSwap.Proofs.Evaluation.Nesting
import HotSwap.Proofs.Evaluation.Reading
import HotSwap.Proofs.Graph.Consistent
/-!
# Reading in a graph

A body that only reads evaluates to its value over what its sources hold afterwards. On the way only
memos change that had to be computed, and none that is fresh comes to hold anything else. A read of a
node ends within the nesting that its number allows.
-/

namespace HotSwap

open Machine

namespace Store

variable {P K : Set NodeId} {b : Nat} {s t u : Store} {xs ys : List NodeId} {n : NodeId}

/-- Only memos below `b` may have been computed, and what was fresh holds what it held. -/
structure Refreshed (K : Set NodeId) (b : Nat) (s t : Store) : Prop where
  live : t.live = s.live
  body : ∀ n, t.body? n = s.body? n
  memos : ∀ n, t.memoAt n = none ↔ s.memoAt n = none
  above : ∀ {n : NodeId}, b ≤ n → t.nodes[n]? = s.nodes[n]?
  same : ∀ {n : NodeId}, s.Fresh ∅ n → t.nodes[n]? = s.nodes[n]?
  fresh : ∀ {n : NodeId}, s.Fresh K n → t.Fresh K n ∧ t.cached n = s.cached n
  edges : ∀ {k n : NodeId}, b ≤ k → k ∈ Edges.readers s.edges n → k ∈ Edges.readers t.edges n
  frames : t.frames.map Frame.reader = s.frames.map Frame.reader

/-- The running computation reads the sources `xs`, in this order, and sees what they hold. -/
structure Observes (P K : Set NodeId) (b : Nat) (xs : List NodeId) (s t : Store) : Prop
    extends Refreshed K b s t where
  sound : t.Sound P K
  found : ∀ x ∈ xs, t.Fresh ∅ x ∧ ∀ r, s.reader? = some r → r ∈ Edges.readers t.edges x
  trace : ∃ new, t.trace = new ++ s.trace ∧
    (∀ e ∈ new, e.Quiet fun r => s.memoAt r ≠ none ∨ s.reader? = some r) ∧
      ∀ r, s.reader? = some r → s.memoAt r = none →
        openReads r new = (observed t.cached xs).reverse

/-- A store in which a body may run that reads below `b`. -/
structure Readable (P K : Set NodeId) (b : Nat) (s : Store) : Prop where
  sound : s.Sound P K
  kept : ∀ k < b, k ∈ K → k ∉ P ∧ .node k ∈ s.live
  reader : ∀ r, s.reader? = some r → b ≤ r

theorem reader?_eq (s : Store) : s.reader? = (s.frames.map Frame.reader).head?.join := by
  cases h : s.frames <;> simp [reader?, h]

theorem mem_frames_of_reader? {r : NodeId} (h : s.reader? = some r) :
    some r ∈ s.frames.map Frame.reader := by
  rw [reader?_eq] at h
  cases hf : s.frames.map Frame.reader with
  | nil => simp [hf] at h
  | cons f rest =>
    rw [hf] at h
    cases h
    exact List.mem_cons_self

namespace Refreshed

theorem refl (s : Store) : s.Refreshed K b s :=
  ⟨rfl, fun _ => rfl, fun _ => .rfl, fun _ => rfl, fun _ => rfl, fun h => ⟨h, rfl⟩, fun _ h => h, rfl⟩

theorem reader? (h : s.Refreshed K b t) : t.reader? = s.reader? := by
  rw [reader?_eq, reader?_eq, h.frames]

theorem feeds (h : s.Refreshed K b t) {k : NodeId} : t.Feeds n k ↔ s.Feeds n k := by
  simp only [Feeds, h.body]

theorem leads (h : s.Refreshed K b t) : t.Leads = s.Leads := by
  have hfeeds : t.Feeds = s.Feeds := by
    funext n k
    exact propext h.feeds
  rw [Leads, Leads, hfeeds]

theorem mayRead (h : s.Refreshed K b t) (hn : s.MayRead n) : t.MayRead n := by
  intro r hr
  exact h.feeds.2 (hn r (h.reader? ▸ hr))

theorem fresh_empty (h : s.Refreshed K b t) (hn : s.Fresh ∅ n) : t.Fresh ∅ n := hn.congr (h.same hn)

theorem cached (h : s.Refreshed K b t) (hn : s.Fresh ∅ n) : t.cached n = s.cached n :=
  cached_congr (h.same hn)

theorem scratch (h : s.Refreshed K b t) : t.scratch = s.scratch :=
  scratch_congr h.body h.memos fun _ hm => cached_congr (h.same (fresh_of_memoAt_none hm))

theorem trans (h : s.Refreshed K b t) (h' : t.Refreshed K b u) : s.Refreshed K b u where
  live := h'.live.trans h.live
  body n := (h'.body n).trans (h.body n)
  memos n := (h'.memos n).trans (h.memos n)
  above hn := (h'.above hn).trans (h.above hn)
  same hn := (h'.same (h.fresh_empty hn)).trans (h.same hn)
  fresh hn := ⟨(h'.fresh (h.fresh hn).1).1, (h'.fresh (h.fresh hn).1).2.trans (h.fresh hn).2⟩
  edges hk hn := h'.edges hk (h.edges hk hn)
  frames := h'.frames.trans h.frames

theorem mono {b' : Nat} (h : s.Refreshed K b t) (hb : b ≤ b') : s.Refreshed K b' t :=
  { h with
    above := fun hn => h.above (Nat.le_trans hb hn)
    edges := fun hk => h.edges (Nat.le_trans hb hk) }

end Refreshed

namespace Observes

theorem refl (h : s.Sound P K) : s.Observes P K b [] s :=
  { Refreshed.refl s with
    sound := h
    found := by simp
    trace := ⟨[], rfl, by simp, fun _ _ _ => rfl⟩ }

theorem trans (h : s.Observes P K b xs t) (h' : t.Observes P K b ys u)
    (hb : ∀ r, s.reader? = some r → b ≤ r) : s.Observes P K b (xs ++ ys) u := by
  have hreader := h.reader?
  refine { h.toRefreshed.trans h'.toRefreshed with
    sound := h'.sound, found := fun x hx => ?_, trace := ?_ }
  · rcases List.mem_append.1 hx with hx | hx
    · obtain ⟨hf, hr⟩ := h.found x hx
      exact ⟨h'.fresh_empty hf, fun r hs => h'.edges (hb r hs) (hr r hs)⟩
    · exact ⟨(h'.found x hx).1, fun r hs => (h'.found x hx).2 r (hreader ▸ hs)⟩
  · obtain ⟨new, hnew, hquiet, hopen⟩ := h.trace
    obtain ⟨new', hnew', hquiet', hopen'⟩ := h'.trace
    have hquiet'' : ∀ e ∈ new', e.Quiet fun r => s.memoAt r ≠ none ∨ s.reader? = some r :=
      fun e he => (hquiet' e he).mono fun r hr => hr.imp (mt (h.memos r).2) (hreader ▸ ·)
    refine ⟨new' ++ new, by rw [hnew', hnew, List.append_assoc], fun e he => ?_, fun r hs hm => ?_⟩
    · exact (List.mem_append.1 he).elim (hquiet'' e) (hquiet e)
    · have hkept : observed u.cached xs = observed t.cached xs :=
        observed_congr fun x hx => h'.cached (h.found x hx).1
      rw [openReads_append hquiet'', hopen r hs hm,
        hopen' r (hreader ▸ hs) ((h.memos r).2 hm), observed_append, hkept, List.reverse_append]

theorem mono {b' : Nat} (h : s.Observes P K b xs t) (hb : b ≤ b') : s.Observes P K b' xs t :=
  { h.toRefreshed.mono hb with sound := h.sound, found := h.found, trace := h.trace }

theorem readable (h : s.Observes P K b xs t) (hs : s.Readable P K b) : t.Readable P K b where
  sound := h.sound
  kept k hk hK := ⟨(hs.kept k hk hK).1, h.live ▸ (hs.kept k hk hK).2⟩
  reader r hr := hs.reader r (h.reader? ▸ hr)

theorem stable {e : LinkedExpr} {env : Env} (h : s.Observes P K b (e.reads t.cached env) t)
    (h' : t.Refreshed K b u) : e.value u.cached env = e.value t.cached env ∧
      e.reads u.cached env = e.reads t.cached env :=
  Expr.value_congr e fun x hx => h'.cached (h.found x hx).1

end Observes

end Store

open Store

variable {P K : Set NodeId} {b : Nat} {s t u : Store} {xs : List NodeId} {n : NodeId} {c : Calls}

def Calls.Answers (c : Calls) (P K : Set NodeId) (b : Nat) : Prop :=
  ∀ n < b, ∀ s : Store, s.Sound P K → (∀ k < b, k ∈ K → k ∉ P ∧ .node k ∈ s.live) → s.MayRead n →
    ∃ t, c.read n s = some (.json (t.cached n), t) ∧ s.Observes P K b [n] t

theorem Store.Observes.emit (h : s.Observes P K b xs t) {e : Event}
    (he : e.Quiet fun _ => False) : s.Observes P K b xs { t with trace := e :: t.trace } := by
  refine { h with sound := ?_, trace := ?_ }
  · have hread : ∀ r n v, e ≠ .read (some r) n v := by
      rintro r n v rfl
      exact he
    refine ⟨h.sound.graph.trace fun r n v hr => absurd hr (hread r n v), fun hl hn => ?_,
      fun he' ho hf => (openReads_cons he).trans (h.sound.idle he' ho hf)⟩
    exact (h.sound.consistent hl hn).same rfl (lastReads_cons he) fun _ hx => hx
  · obtain ⟨new, hnew, hquiet, hreads⟩ := h.trace
    refine ⟨e :: new, by simp [hnew], fun e' he' => ?_, fun r hr hm => ?_⟩
    · rcases List.mem_cons.1 he' with rfl | he'
      · exact he.mono fun _ => False.elim
      · exact hquiet e' he'
    · rw [openReads_cons he, hreads r hr hm]
      rfl

section Evaluation

mutual

theorem Expr.eval_observes (hc : c.Answers P K b) (env : Env) : ∀ (e : LinkedExpr) (s : Store),
    e.onlyReads = true → (∀ y ∈ e.gets, y < b ∧ s.MayRead y) → s.Readable P K b →
      ∃ t, e.eval c env s = some (e.value t.cached env, t) ∧
        s.Observes P K b (e.reads t.cached env) t
  | .literal _, s, _, _, h | .props, s, _, _, h | .current, s, _, _, h | .member _, s, _, _, h =>
    ⟨s, rfl, .refl h.sound⟩
  | .get n, s, _, hg, h => by
    obtain ⟨hn, hr⟩ := hg n (List.mem_singleton_self n)
    obtain ⟨t, ht, ho⟩ := hc n hn s h.sound h.kept hr
    exact ⟨t, by simp [eval, ht, value, Content.toJson], ho⟩
  | .add es, s, he, hg, h | .mul es, s, he, hg, h | .concat es, s, he, hg, h
  | .list es, s, he, hg, h | .seq es, s, he, hg, h => by
    obtain ⟨t, ht, ho⟩ := Expr.evalAll_observes hc env es s he hg h
    exact ⟨t, by simp [eval, ht, value], ho⟩
  | .less a a', s, he, hg, h => by
    rw [onlyReads, Bool.and_eq_true] at he
    obtain ⟨t, ht, ho⟩ := Expr.eval_observes hc env a s he.1
      (fun y hy => hg y (List.mem_append_left _ hy)) h
    obtain ⟨u, hu, ho'⟩ := Expr.eval_observes hc env a' t he.2
      (fun y hy => (hg y (List.mem_append_right _ hy)).imp_right ho.mayRead) (ho.readable h)
    obtain ⟨hv, hr⟩ := ho.stable ho'.toRefreshed
    refine ⟨u, by simp [eval, ht, hu, value, hv], ?_⟩
    rw [reads, hr]
    exact ho.trans ho' h.reader
  | .cond e a a', s, he, hg, h => by
    rw [onlyReads, Bool.and_eq_true, Bool.and_eq_true] at he
    obtain ⟨t, ht, ho⟩ := Expr.eval_observes hc env e s he.1.1
      (fun y hy => hg y (List.mem_append_left _ (List.mem_append_left _ hy))) h
    have hga : ∀ y ∈ a.gets, y < b ∧ t.MayRead y := fun y hy =>
      (hg y (List.mem_append_left _ (List.mem_append_right _ hy))).imp_right ho.mayRead
    have hga' : ∀ y ∈ a'.gets, y < b ∧ t.MayRead y := fun y hy =>
      (hg y (List.mem_append_right _ hy)).imp_right ho.mayRead
    by_cases hv : (value t.cached env e).truthy = true
    · obtain ⟨u, hu, ho'⟩ := Expr.eval_observes hc env a t he.1.2 hga (ho.readable h)
      obtain ⟨hv', hr⟩ := ho.stable ho'.toRefreshed
      refine ⟨u, by simp [eval, ht, hu, value, hv, hv'], ?_⟩
      rw [reads, hr, hv', if_pos hv]
      exact ho.trans ho' h.reader
    · obtain ⟨u, hu, ho'⟩ := Expr.eval_observes hc env a' t he.2 hga' (ho.readable h)
      obtain ⟨hv', hr⟩ := ho.stable ho'.toRefreshed
      refine ⟨u, by simp [eval, ht, hu, value, hv, hv'], ?_⟩
      rw [reads, hr, hv', if_neg hv]
      exact ho.trans ho' h.reader
  | .log e, s, he, hg, h => by
    obtain ⟨t, ht, ho⟩ := Expr.eval_observes hc env e s he hg h
    exact ⟨{ t with trace := .note (e.value t.cached env) :: t.trace },
      by simp [eval, ht, emit, value]; rfl, ho.emit trivial⟩

theorem Expr.evalAll_observes (hc : c.Answers P K b) (env : Env) :
    ∀ (es : List LinkedExpr) (s : Store), onlyReadsAll es = true →
      (∀ y ∈ getsAll es, y < b ∧ s.MayRead y) → s.Readable P K b →
        ∃ t, Expr.evalAll c env es s = some (Expr.values t.cached env es, t) ∧
          s.Observes P K b (Expr.readsAll t.cached env es) t
  | [], s, _, _, h => ⟨s, rfl, .refl h.sound⟩
  | e :: rest, s, he, hg, h => by
    rw [onlyReadsAll, Bool.and_eq_true] at he
    obtain ⟨t, ht, ho⟩ := Expr.eval_observes hc env e s he.1
      (fun y hy => hg y (List.mem_append_left _ hy)) h
    obtain ⟨u, hu, ho'⟩ := Expr.evalAll_observes hc env rest t he.2
      (fun y hy => (hg y (List.mem_append_right _ hy)).imp_right ho.mayRead) (ho.readable h)
    obtain ⟨hv, hr⟩ := ho.stable ho'.toRefreshed
    refine ⟨u, by simp [evalAll, ht, hu, values, hv], ?_⟩
    rw [readsAll, hr]
    exact ho.trans ho' h.reader

end

end Evaluation

namespace Store

theorem tracked_cases (s : Store) (n : NodeId) :
    s.reader? = none ∧ s.tracked n = s ∨ ∃ r sources rest, s.frames = ⟨some r, sources⟩ :: rest ∧
      s.tracked n = { s with
        frames := (Frame.mk (some r) sources).reading n :: rest
        edges := Edges.subscribe s.edges n r } := by
  unfold tracked
  split
  · rename_i r sources rest hf
    exact .inr ⟨r, sources, rest, hf, rfl⟩
  · rename_i hf
    refine .inl ⟨?_, rfl⟩
    rw [reader?]
    cases h : s.frames with
    | nil => rfl
    | cons f rest =>
      obtain ⟨_ | r, sources⟩ := f
      · rfl
      · exact absurd h (hf r sources rest)

theorem Observes.track (h : s.Sound P K) (hn : s.MayRead n) : s.Observes P K b [] (s.tracked n) ∧
    ∀ r, s.reader? = some r → r ∈ Edges.readers (s.tracked n).edges n := by
  rcases tracked_cases s n with ⟨hr, ht⟩ | ⟨r, sources, rest, hf, ht⟩ <;> rw [ht]
  · exact ⟨.refl h, by simp [hr]⟩
  · have hreader : s.reader? = some r := by simp [reader?, hf]
    have hframes : ((Frame.mk (some r) sources).reading n :: rest).map Frame.reader =
        s.frames.map Frame.reader := by simp [hf, Frame.reader_reading]
    have hgraph := h.graph.subscribe (hn r hreader)
    refine ⟨{ Refreshed.refl s with
      edges := fun _ hk => Edges.mem_readers_subscribe _ _ hk
      frames := hframes
      sound := ⟨{ hgraph with }, fun hl hk => ?_, fun he ho hk => h.idle he ho (hframes ▸ hk)⟩
      found := by simp
      trace := ⟨[], rfl, by simp, fun _ _ _ => rfl⟩ }, fun r' hr => ?_⟩
    · exact (h.consistent hl hk).same rfl rfl fun x hx => Edges.mem_readers_subscribe _ _ hx
    · obtain rfl : r = r' := by simpa [hreader] using hr
      exact Edges.mem_readers_subscribe_self _

theorem Observes.read (h : s.Sound P K) (hn : s.MayRead n) (hf : s.Fresh ∅ n)
    (hr : ∀ r, s.reader? = some r → r ∈ Edges.readers s.edges n) :
    s.Observes P K b [n]
      { s with trace := .read s.reader? n (.json (s.cached n)) :: s.trace } := by
  have hquiet : (Event.read s.reader? n (.json (s.cached n))).Quiet (s.reader? = some ·) := by
    cases hs : s.reader? with
    | none => trivial
    | some r => rfl
  refine { Refreshed.refl s with
    sound := ⟨h.graph.trace fun r x v he => ?_, fun hl hk => ?_, fun he ho hk => ?_⟩
    found := fun x hx => ?_, trace := ⟨[_], rfl, ?_, fun r hs _ => ?_⟩ }
  · injection he with hs
    obtain ⟨body, hb, _⟩ := hn r hs
    exact ⟨body, hb⟩
  · exact (h.consistent hl hk).same rfl (lastReads_cons hquiet) fun x hx => hx
  · rename_i k e
    have hk' : s.reader? ≠ some k := fun hs => hk (mem_frames_of_reader? hs)
    have hall : ∀ e ∈ [Event.read s.reader? n (.json (s.cached n))], e.Quiet (s.reader? = some ·) := by
      simpa using hquiet
    have happend : openReads k ([.read s.reader? n (.json (s.cached n))] ++ s.trace) = [] := by
      rw [openReads_append hall, openReads_eq_nil hall hk', h.idle he ho hk, List.nil_append]
    exact happend
  · obtain rfl := List.mem_singleton.1 hx
    exact ⟨hf, hr⟩
  · intro e he
    obtain rfl := List.mem_singleton.1 he
    exact hquiet.mono fun _ => .inr
  · rw [hs, openReads_read_self]
    rfl

def entered (s : Store) (n : NodeId) : Store :=
  { s with edges := Edges.unsubscribe s.edges n, frames := { reader := some n } :: s.frames }

theorem Sound.enter (h : s.Sound P K) (n : NodeId) : (s.entered n).Sound (P ∪ {n}) K where
  graph := { h.graph.unsubscribe n with }
  consistent hl hk := (h.consistent hl fun hP => hk (.inl hP)).same rfl rfl fun _ hx =>
    (Edges.mem_readers_unsubscribe _).2 ⟨hx, fun he => hk (.inr he)⟩
  idle he ho hk := h.idle he ho fun hs => hk (List.mem_cons_of_mem _ hs)

theorem Sound.readable_enter (h : s.Sound P K)
    (hkept : ∀ k < n, k ∈ K → k ∉ P ∧ .node k ∈ s.live) :
    (s.entered n).Readable (P ∪ {n}) K n where
  sound := h.enter n
  kept k hk hK := ⟨fun hm => hm.elim (hkept k hk hK).1 (Nat.ne_of_lt hk), (hkept k hk hK).2⟩
  reader _ hr := (Option.some.inj hr).le

theorem Graph.mayRead_enter (h : s.Graph) {body : LinkedExpr} (hb : s.body? n = some body) :
    ∀ y ∈ body.gets, y < n ∧ (s.entered n).MayRead y := fun _ hy =>
  ⟨h.lt_of_feeds ⟨body, hb, hy⟩, fun _ hr => ⟨body, Option.some.inj hr ▸ hb, hy⟩⟩

/-- The run of the memo `n` left `u`, and the memo takes the value `v`. -/
structure Computed (n : NodeId) (name : String) (body : LinkedExpr) (v : Json) (u t : Store) :
    Prop where
  nodes : t.nodes = u.nodes.set n (.memo ⟨.value name body, some (.json v), .clean⟩)
  edges : t.edges = u.edges
  live : t.live = u.live
  frames : t.frames = u.frames.tail
  trace : t.trace = .memo n name v :: u.trace

variable {name : String} {body : LinkedExpr} {value : Option Content} {freshness : Freshness}
  {v : Json}

namespace Computed

theorem settled (hun : u.nodes[n]? = some (.memo ⟨.value name body, value, freshness⟩))
    (hjson : ∀ x, value = some x → ∃ j, x = .json j) (v : Json) :
    Computed n name body v u (Store.settled { u with
      frames := u.frames.tail, trace := .memo n name v :: u.trace } n (.json v)) := by
  rw [settled_of_json (s := { u with
    frames := u.frames.tail, trace := .memo n name v :: u.trace }) hun hjson]
  exact ⟨rfl, rfl, rfl, rfl, rfl⟩

theorem ne (h : Computed n name body v u t) {k : NodeId} (hk : k ≠ n) :
    t.nodes[k]? = u.nodes[k]? := by
  rw [h.nodes, List.getElem?_set_ne hk.symm]

theorem self (h : Computed n name body v u t)
    (hun : u.nodes[n]? = some (.memo ⟨.value name body, value, freshness⟩)) :
    t.nodes[n]? = some (.memo ⟨.value name body, some (.json v), .clean⟩) := by
  rw [h.nodes, List.getElem?_set_self (List.getElem?_eq_some_iff.1 hun).1]

theorem keeps (h : Computed n name body v u t)
    (hun : u.nodes[n]? = some (.memo ⟨.value name body, value, freshness⟩))
    (hrelied : u.Fresh K n → v = u.cached n) {k : NodeId} (hf : u.Fresh K k) :
    t.Fresh K k ∧ t.cached k = u.cached k := by
  by_cases hk : k = n
  · subst hk
    exact ⟨fresh_of_clean (h.self hun) rfl rfl, (cached_of_memo (h.self hun)).trans (hrelied hf)⟩
  · exact ⟨hf.congr (h.ne hk), cached_congr (h.ne hk)⟩

end Computed

/-- Only a memo that was invalidated by hand is due and relied on, and it holds what its body gives. -/
theorem Observes.relied (hu : (s.entered n).Observes (P ∪ {n}) K n (body.reads u.cached {}) u)
    (h : s.Sound P K) (hkept : n ∈ K → n ∉ P ∧ .node n ∈ s.live)
    (hn : s.nodes[n]? = some (.memo ⟨.value name body, value, freshness⟩))
    (due : Memo.Due ⟨.value name body, value, freshness⟩) (hf : s.Fresh K n) :
    body.value u.cached {} = s.cached n := by
  have hK : n ∈ K := by
    by_contra hK
    exact (hf _ hn).2 (due ((hf _ hn).1.resolve_right hK))
  obtain ⟨hs, hw⟩ := (h.consistent (hkept hK).2 (hkept hK).1).memo hn hf
  rw [hs]
  exact (Expr.value_congr body fun x hx => (hu.fresh (hw x hx).2).2).1

theorem Computed.sound (ht : Computed n name body v u t)
    (hu : (s.entered n).Observes (P ∪ {n}) K n (body.reads u.cached {}) u) (h : s.Sound P K)
    (hn : s.nodes[n]? = some (.memo ⟨.value name body, value, freshness⟩))
    (hv : v = body.value u.cached {}) (hrelied : u.Fresh K n → v = u.cached n) : t.Sound P K := by
  have hun := (hu.above (Nat.le_refl n)).trans hn
  have hself := ht.self hun
  have hplaced : (Node.memo ⟨.value name body, some (.json v), .clean⟩).Placed n := by
    cases h.graph.placed hn with
    | memo ho hlt _ => exact .memo ho hlt fun _ e => ⟨v, (Option.some.inj e).symm⟩
  have hgraph := (hu.sound.graph.set hun hplaced rfl).trace (e := .memo n name v) (by simp)
  refine ⟨hgraph.congr ht.nodes ht.edges ht.live ht.trace, fun {k} hl hP => ?_,
    fun {k e} he ho hf => ?_⟩
  · by_cases hk : k = n
    · subst hk
      refine ⟨fun hm _ => ?_, fun he => by simp [hself] at he⟩
      rw [hself] at hm
      cases hm
      have hreads : ∀ x ∈ body.reads u.cached {}, x < k := fun x hx =>
        (h.graph.placed hn).gets_lt rfl (Expr.reads_subset_gets body hx)
      obtain ⟨hvalue, hr⟩ := Expr.value_congr body fun x hx =>
        cached_congr (ht.ne (Nat.ne_of_lt (hreads x hx)))
      refine ⟨by rw [cached_of_memo hself, hvalue]; exact hv, fun x hx => ?_⟩
      rw [hr] at hx
      obtain ⟨hf, hmem⟩ := hu.found x hx
      refine ⟨ht.edges ▸ hmem k rfl, (hf.congr (ht.ne (Nat.ne_of_lt (hreads x hx)))).mono ?_⟩
      exact Set.empty_subset K
    · refine (hu.sound.consistent (ht.live ▸ hl) fun hm => hm.elim hP hk).keep (ht.ne hk) ?_
        (·.congr (ht.ne hk).symm) fun x hx hf => ⟨ht.edges ▸ hx, ht.keeps hun hrelied hf⟩
      rw [ht.trace]
      exact lastReads_cons (p := fun _ => False) trivial
  · have hk : k ≠ n := by
      rintro rfl
      simp [hself] at he
    rw [ht.trace, openReads_cons (e := .memo n name v) trivial]
    refine hu.sound.idle ((ht.ne hk).symm.trans he) ho fun hmem => ?_
    rw [hu.frames] at hmem
    rcases List.mem_cons.1 hmem with hmem | hmem
    · exact hk (Option.some.inj hmem)
    · rw [ht.frames, List.map_tail, hu.frames] at hf
      exact hf hmem

theorem Computed.refreshed (ht : Computed n name body v u t)
    (hu : (s.entered n).Refreshed K n u)
    (hn : s.nodes[n]? = some (.memo ⟨.value name body, value, freshness⟩))
    (due : Memo.Due ⟨.value name body, value, freshness⟩)
    (hrelied : u.Fresh K n → v = u.cached n) : s.Refreshed K (n + 1) t := by
  have hun := (hu.above (Nat.le_refl n)).trans hn
  have hself := ht.self hun
  refine ⟨ht.live.trans hu.live, fun k => ?_, fun k => ?_, fun {k} hk => ?_, fun {k} hf => ?_,
    fun {k} hf => ?_, fun {k x} hk hx => ?_, ?_⟩
  · refine Eq.trans ?_ (hu.body k)
    by_cases hk : k = n
    · subst hk
      simp [body?, hself, hun, Node.body?]
    · exact body?_congr (ht.ne hk)
  · by_cases hk : k = n
    · subst hk
      simp [memoAt_eq_some.2 hself, memoAt_eq_some.2 hn]
    · refine Iff.trans ?_ (hu.memos k)
      rw [memoAt, memoAt, ht.ne hk]
  · exact (ht.ne (Nat.ne_of_gt hk)).trans (hu.above (Nat.le_of_succ_le hk))
  · have hk : k ≠ n := by
      rintro rfl
      exact not_fresh_of_due hn due hf
    exact (ht.ne hk).trans (hu.same hf)
  · obtain ⟨hf', hc⟩ := hu.fresh hf
    obtain ⟨hft, hct⟩ := ht.keeps hun hrelied hf'
    exact ⟨hft, hct.trans hc⟩
  · rw [ht.edges]
    exact hu.edges (Nat.le_of_succ_le hk)
      ((Edges.mem_readers_unsubscribe _).2 ⟨hx, Nat.ne_of_gt hk⟩)
  · rw [ht.frames, List.map_tail, hu.frames]
    rfl

/-- A memo that had to be computed takes the value of its body, and whoever relied on it before sees
what he saw. -/
theorem Observes.computed (h : s.Sound P K) (hkept : n ∈ K → n ∉ P ∧ .node n ∈ s.live)
    (hn : s.nodes[n]? = some (.memo ⟨.value name body, value, freshness⟩))
    (due : Memo.Due ⟨.value name body, value, freshness⟩)
    (hu : (s.entered n).Observes (P ∪ {n}) K n (body.reads u.cached {}) u)
    (ht : Computed n name body (body.value u.cached {}) u t) :
    s.Observes P K (n + 1) [] t ∧ t.Fresh ∅ n ∧ t.cached n = body.value u.cached {} := by
  have hun := (hu.above (Nat.le_refl n)).trans hn
  have hself := ht.self hun
  have hrelied (hf : u.Fresh K n) : body.value u.cached {} = u.cached n := by
    rw [hu.relied h hkept hn due (hf.congr (hn.trans hun.symm)), cached_of_memo hn,
      cached_of_memo hun]
  obtain ⟨new, hnew, hquiet, -⟩ := hu.trace
  have hquiet' : ∀ e ∈ .memo n name (body.value u.cached {}) :: new,
      e.Quiet fun r => s.memoAt r ≠ none := by
    intro e he
    rcases List.mem_cons.1 he with rfl | he
    · trivial
    · refine (hquiet e he).mono fun r hr => hr.elim id ?_
      rintro ⟨⟩
      simp [memoAt_eq_some.2 hn]
  refine ⟨{ ht.refreshed hu.toRefreshed hn due hrelied with
    sound := ht.sound hu h hn rfl hrelied
    found := by simp
    trace := ⟨.memo n name (body.value u.cached {}) :: new, by rw [ht.trace, hnew]; rfl,
      fun e he => (hquiet' e he).mono fun _ => .inl, fun r _ hm => ?_⟩ },
    fresh_of_clean hself rfl rfl, cached_of_memo hself⟩
  exact openReads_eq_nil hquiet' fun hr => hr hm

end Store

namespace Machine

theorem content_observes (hc : ∀ P, c.Answers P K n) (h : s.Sound P K)
    (hkept : ∀ k < n + 1, k ∈ K → k ∉ P ∧ .node k ∈ s.live) :
    ∃ t, content c n s = some (.json (t.cached n), t) ∧ s.Observes P K (n + 1) [] t ∧
      t.Fresh ∅ n := by
  cases hn : s.nodes[n]? with
  | none =>
    exact ⟨s, by simp [content, node?_apply, hn, cached], .refl h, fun m hm => by simp [hn] at hm⟩
  | some x =>
    have hplaced := h.graph.placed hn
    cases hplaced with
    | signal v =>
      exact ⟨s, by simp [content, node?_apply, hn, cached_of_signal hn], .refl h, fresh_of_signal hn⟩
    | effect =>
      exact ⟨s, by simp [content, node?_apply, hn, cached, Node.cached], .refl h,
        fun m hm => by simp [hn] at hm⟩
    | @memo name body value freshness ho hlt hjson =>
      have hcontent : content c n s = memoContent c n ⟨.value name body, value, freshness⟩ s := by
        simp [content, node?_apply, hn]
      rw [hcontent]
      rcases Memo.due_or_clean ⟨.value name body, value, freshness⟩ with due | ⟨v, hf, hv⟩
      · rw [memoContent_of_due c n due]
        obtain ⟨u, hu, hobs⟩ := Expr.eval_observes (hc (P ∪ {n})) {} body (s.entered n) ho
          (h.graph.mayRead_enter (body?_eq_some.2 ⟨_, hn, rfl⟩))
          (h.readable_enter fun k hk => hkept k (Nat.lt_succ_of_lt hk))
        have hun : u.nodes[n]? = some (.memo ⟨.value name body, value, freshness⟩) :=
          (hobs.above (Nat.le_refl n)).trans hn
        have hrun : runRecipe c n (.value name body) (s.entered n) = some (.json (body.value u.cached {}),
            { u with trace := .memo n name (body.value u.cached {}) :: u.trace }) := by
          simp [runRecipe, hu, emit]
        obtain ⟨ht, hfresh, hcached⟩ := Observes.computed h (hkept n n.lt_succ_self) hn due hobs
          (.settled hun hjson _)
        refine ⟨_, (recompute_of_run hrun).trans ?_, ht, hfresh⟩
        rw [hcached]
      · obtain ⟨j, rfl⟩ := hjson v hv
        rw [memoContent_of_clean c n hf hv]
        refine ⟨s, ?_, .refl h, fresh_of_clean hn hf hv⟩
        rw [cached_of_memo hn, hv]
        rfl

theorem readNode_observes (hc : ∀ P, c.Answers P K n) (h : s.Sound P K)
    (hkept : ∀ k < n + 1, k ∈ K → k ∉ P ∧ .node k ∈ s.live) (hr : s.MayRead n) :
    ∃ t, readNode c n s = some (.json (t.cached n), t) ∧ s.Observes P K (n + 1) [n] t := by
  obtain ⟨ho, hsub⟩ := Observes.track (b := n + 1) h hr
  obtain ⟨t, ht, ho', hf⟩ := content_observes hc ho.sound fun k hk hK =>
    ⟨(hkept k hk hK).1, ho.live ▸ (hkept k hk hK).2⟩
  have hreader : ∀ r, s.reader? = some r → n + 1 ≤ r := fun r hs => h.graph.lt_of_feeds (hr r hs)
  have hst := ho.trans ho' hreader
  refine ⟨_, readNode_of_content ht, hst.trans (Observes.read ho'.sound (hst.mayRead hr) hf
    fun r hs => ?_) hreader⟩
  have hs' : s.reader? = some r := hst.reader? ▸ hs
  exact ho'.edges (hreader r hs') (hsub r hs')

end Machine

/-- A read of a node ends within the nesting that its number allows. -/
theorem calls_answer (d : Nat) : ∀ b ≤ d, ∀ P, (calls d).Answers P K b := by
  induction d with
  | zero => exact fun b hb P n hn => absurd hn (by omega)
  | succ d ih =>
    intro b hb P n hn s h hkept hr
    obtain ⟨t, ht, ho⟩ := readNode_observes (ih n (by omega)) h
      (fun k hk => hkept k (Nat.lt_of_lt_of_le hk hn)) hr
    exact ⟨t, ht, ho.mono hn⟩

end HotSwap
