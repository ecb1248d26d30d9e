import HotSwap.Proofs.Graph.Log
import HotSwap.Proofs.Graph.Propagation
import HotSwap.Proofs.Subscription.Listing
/-!
# What a log says of a store

A memo that does not run is due exactly if the log says that it is stale, and as long as it is not,
it is subscribed to what its last computation read and to nothing else. A memo that runs is
subscribed to what it has read so far. A read leaves alone all memos that are fresh, and all that
stand above it.
-/

namespace HotSwap

open Machine Log

namespace Store

variable {A B P : Set NodeId} {l l' l'' : Log} {s t u : Store} {k n r : NodeId} {ys : List NodeId}

/-- The signals `ys` are those that the sources of `k` go back to, and none of the sources has to be
computed. -/
structure Sums (s : Store) (l : Log) (k : NodeId) (ys : List NodeId) : Prop where
  mem : ∀ y, y ∈ ys ↔ ∃ x, k ∈ Edges.readers s.edges x ∧ y ∈ grounds x l
  fresh : ∀ {x : NodeId}, k ∈ Edges.readers s.edges x → s.Fresh ∅ x

/-- What does not run is due if it is stale, and only then. -/
structure Rests (s : Store) (l : Log) (k : NodeId) : Prop where
  idle : gathered k l = []
  plain : s.memoAt k = none → basis k l = none
  stale : s.memoAt k ≠ none → (Stale k l ↔ ¬s.Fresh ∅ k)
  sums : s.memoAt k ≠ none → s.Fresh ∅ k → s.Sums l k (grounds k l)

/-- What runs is stale until it ends. -/
structure Busy (s : Store) (l : Log) (r : NodeId) : Prop where
  due : ¬s.Fresh ∅ r
  stale : Stale r l
  sums : s.Sums l r (gathered r l)

/-- The log says of all that does not run whether it is due. -/
structure Tallied (s : Store) (l : Log) : Prop where
  rests : ∀ {k : NodeId}, some k ∉ s.frames.map Frame.reader → s.Rests l k
  known : ∀ {r : Option NodeId} {x : NodeId} {v : Content}, .event (.read r x v) ∈ l →
    x < s.nodes.length

structure Accounted (s : Store) (l : Log) : Prop extends Tallied s l where
  busy : ∀ {r : NodeId}, s.reader? = some r → s.Busy l r
  exact : Exact (fun x => s.memoAt x ≠ none) l

/-- What happens until `t` leaves alone the nodes of `A` and those that are fresh. -/
structure Bypasses (A : Set NodeId) (l : Log) (s : Store) (l' : Log) (t : Store) : Prop where
  log : ∃ new, t.trace = new ++ s.trace ∧ l' = new.map .event ++ l ∧
    ∀ e ∈ new, ∀ k, k ∈ A ∨ s.Fresh ∅ k → e.actor ≠ some k
  node : ∀ {k : NodeId}, k ∈ A ∨ s.Fresh ∅ k → t.nodes[k]? = s.nodes[k]?
  edges : ∀ {k : NodeId}, k ∈ A ∨ s.Fresh ∅ k → ∀ x,
    k ∈ Edges.readers t.edges x ↔ k ∈ Edges.readers s.edges x

theorem memoAt_congr (h : t.nodes[k]? = s.nodes[k]?) : t.memoAt k = s.memoAt k := by
  rw [memoAt, memoAt, h]

theorem Sums.keep (h : s.Sums l k ys)
    (edges : ∀ x, k ∈ Edges.readers t.edges x ↔ k ∈ Edges.readers s.edges x)
    (sources : ∀ x, k ∈ Edges.readers s.edges x → s.Fresh ∅ x →
      t.Fresh ∅ x ∧ grounds x l' = grounds x l) : t.Sums l' k ys where
  mem y := by
    rw [h.mem]
    refine exists_congr fun x => ?_
    rw [edges]
    exact and_congr_right fun hk => by rw [(sources x hk (h.fresh hk)).2]
  fresh hk := (sources _ ((edges _).1 hk) (h.fresh ((edges _).1 hk))).1

theorem Rests.keep (h : s.Rests l k) (node : t.nodes[k]? = s.nodes[k]?)
    (idle : gathered k l' = gathered k l) (basis : basis k l' = basis k l)
    (stale : Stale k l' ↔ Stale k l) (sums : ∀ ys, s.Sums l k ys → t.Sums l' k ys) :
    t.Rests l' k := by
  have hmemo := memoAt_congr node
  have hfresh : t.Fresh ∅ k ↔ s.Fresh ∅ k := ⟨(·.congr node.symm), (·.congr node)⟩
  refine ⟨idle.trans h.idle, fun hk => basis.trans (h.plain (hmemo ▸ hk)), fun hk => ?_,
    fun hk hf => ?_⟩
  · rw [stale, hfresh]
    exact h.stale (hmemo ▸ hk)
  · rw [grounds, basis]
    exact sums _ (h.sums (hmemo ▸ hk) (hfresh.1 hf))

namespace Bypasses

theorem refl (A : Set NodeId) (l : Log) (s : Store) : Bypasses A l s l s :=
  ⟨⟨[], rfl, rfl, by simp⟩, fun _ => rfl, fun _ _ => .rfl⟩

theorem fresh (h : Bypasses A l s l' t) (hk : s.Fresh ∅ k) : t.Fresh ∅ k :=
  hk.congr (h.node (.inr hk))

theorem trans (h : Bypasses A l s l' t) (h' : Bypasses A l' t l'' u) : Bypasses A l s l'' u := by
  have hkeep {k : NodeId} (hk : k ∈ A ∨ s.Fresh ∅ k) : k ∈ A ∨ t.Fresh ∅ k := hk.imp_right h.fresh
  obtain ⟨new, htrace, rfl, hactor⟩ := h.log
  obtain ⟨new', htrace', rfl, hactor'⟩ := h'.log
  refine ⟨⟨new' ++ new, by rw [htrace', htrace, List.append_assoc], by simp,
    fun e he k hk => ?_⟩, fun hk => (h'.node (hkeep hk)).trans (h.node hk),
    fun hk x => (h'.edges (hkeep hk) x).trans (h.edges hk x)⟩
  rcases List.mem_append.1 he with he | he
  · exact hactor' e he k (hkeep hk)
  · exact hactor e he k hk

theorem mono (h : Bypasses A l s l' t) (hB : B ⊆ A) : Bypasses B l s l' t := by
  have hkeep {k : NodeId} (hk : k ∈ B ∨ s.Fresh ∅ k) : k ∈ A ∨ s.Fresh ∅ k := hk.imp_left (hB ·)
  obtain ⟨new, htrace, hlog, hactor⟩ := h.log
  exact ⟨⟨new, htrace, hlog, fun e he k hk => hactor e he k (hkeep hk)⟩,
    fun hk => h.node (hkeep hk), fun hk => h.edges (hkeep hk)⟩

section

variable (h : Bypasses A l s l' t) (hk : k ∈ A ∨ s.Fresh ∅ k)

include h hk

theorem basis : basis k l' = Log.basis k l := by
  obtain ⟨new, _, rfl, hactor⟩ := h.log
  exact basis_append fun e he => hactor e he k hk

theorem gathered : gathered k l' = Log.gathered k l := by
  obtain ⟨new, _, rfl, hactor⟩ := h.log
  exact gathered_append fun e he => hactor e he k hk

theorem stale : Stale k l' ↔ Stale k l := by
  obtain ⟨new, _, rfl, hactor⟩ := h.log
  exact stale_events fun e he => Event.closes_of_ne (hactor e he k hk)

theorem sums (hs : s.Sums l k ys) : t.Sums l' k ys :=
  hs.keep (h.edges hk) fun x _ hx => ⟨h.fresh hx, by rw [grounds, grounds, h.basis (.inr hx)]⟩

theorem rests (hr : s.Rests l k) : t.Rests l' k :=
  hr.keep (h.node hk) (h.gathered hk) (h.basis hk) (h.stale hk) fun _ => h.sums hk

theorem busy (hr : s.Busy l k) : t.Busy l' k where
  due hf := hr.due (hf.congr (h.node hk).symm)
  stale := (h.stale hk).2 hr.stale
  sums := by
    rw [h.gathered hk]
    exact h.sums hk hr.sums

end

end Bypasses

theorem bypasses_track (h : ∀ r, s.reader? = some r → ¬s.Fresh ∅ r) (l : Log) (n : NodeId) :
    Bypasses {k | s.reader? ≠ some k} l s l (s.tracked n) := by
  rcases tracked_cases s n with ⟨-, ht⟩ | ⟨r, sources, rest, hf, ht⟩ <;> rw [ht]
  · exact .refl _ l s
  · have hreader : s.reader? = some r := by simp [reader?, hf]
    refine ⟨⟨[], rfl, rfl, by simp⟩, fun _ => rfl, fun {k} hk x => ?_⟩
    have hkr : k ≠ r := by
      rintro rfl
      exact hk.elim (fun hk => hk hreader) (h k hreader)
    simp [Edges.mem_readers_subscribe_iff, hkr]

theorem bypasses_enter (h : ¬s.Fresh ∅ n) (l : Log) : Bypasses {k | k ≠ n} l s l (s.entered n) := by
  refine ⟨⟨[], rfl, rfl, by simp⟩, fun _ => rfl, fun {k} hk x => ?_⟩
  have hkn : k ≠ n := hk.elim id fun hk e => h (e ▸ hk)
  simp [entered, Edges.mem_readers_unsubscribe, hkn]

theorem bypasses_emit {e : Event} (he : e.actor = none) (l : Log) (s : Store) :
    Bypasses Set.univ l s (.event e :: l) { s with trace := e :: s.trace } :=
  ⟨⟨[e], rfl, rfl, by simp [he]⟩, fun _ => rfl, fun _ _ => .rfl⟩

theorem bypasses_computed (h : ¬s.Fresh ∅ n) (l : Log) (name : String) (m : Memo) (v : Json) :
    Bypasses {k | k ≠ n} l s (.event (.memo n name v) :: l)
      (filled { s with frames := s.frames.tail, trace := .memo n name v :: s.trace } n m
        (.json v)) := by
  have hne {k : NodeId} (hk : k ≠ n ∨ s.Fresh ∅ k) : k ≠ n := hk.elim id fun hk e => h (e ▸ hk)
  refine ⟨⟨[_], rfl, rfl, fun e he k hk => ?_⟩, fun hk => ?_, fun _ _ => .rfl⟩
  · obtain rfl := List.mem_singleton.1 he
    exact fun heq => hne hk (Option.some.inj heq).symm
  · exact List.getElem?_set_ne (hne hk).symm

theorem bypasses_recorded (h : ∀ r, s.reader? = some r → ¬s.Fresh ∅ r) (l : Log) (n : NodeId)
    (v : Content) : Bypasses {k | s.reader? ≠ some k} l s (.event (.read s.reader? n v) :: l)
      (s.recorded n v) := by
  refine ⟨⟨[_], rfl, rfl, fun e he k hk => ?_⟩, fun _ => rfl, fun _ _ => .rfl⟩
  obtain rfl := List.mem_singleton.1 he
  exact fun heq => hk.elim (fun hk => hk heq) (h k heq)

end Store

section

variable {c : Calls} {Q : Store → Prop} {G : NodeId → Prop}

mutual

theorem Expr.eval_keeps (hread : ∀ {y s v t}, G y → Q s → c.read y s = some (v, t) → Q t)
    (hnote : ∀ {s} v, Q s → Q { s with trace := .note v :: s.trace }) (env : Env) :
    ∀ (e : LinkedExpr) {s t : Store} {v : Json}, e.onlyReads = true → (∀ y ∈ e.gets, G y) → Q s →
      e.eval c env s = some (v, t) → Q t
  | .literal _, _, _, _, _, _, h, ht | .props, _, _, _, _, _, h, ht
  | .current, _, _, _, _, _, h, ht | .member _, _, _, _, _, _, h, ht => by
    cases ht
    exact h
  | .get n, s, t, v, _, hg, h, ht => by
    obtain ⟨x, u, hu, e⟩ := bind_eq_some.1 ht
    cases e
    exact hread (hg n (List.mem_singleton_self n)) h hu
  | .add es, s, t, v, he, hg, h, ht | .mul es, s, t, v, he, hg, h, ht
  | .concat es, s, t, v, he, hg, h, ht | .list es, s, t, v, he, hg, h, ht
  | .seq es, s, t, v, he, hg, h, ht => by
    obtain ⟨vs, u, hu, e⟩ := bind_eq_some.1 ht
    cases e
    exact Expr.evalAll_keeps hread hnote env es he hg h hu
  | .less a b, s, t, v, he, hg, h, ht => by
    rw [onlyReads, Bool.and_eq_true] at he
    obtain ⟨x, u, hu, ht⟩ := bind_eq_some.1 ht
    obtain ⟨y, w, hw, ht⟩ := bind_eq_some.1 ht
    cases ht
    have hu' := Expr.eval_keeps hread hnote env a he.1
      (fun y hy => hg y (List.mem_append_left _ hy)) h hu
    exact Expr.eval_keeps hread hnote env b he.2
      (fun y hy => hg y (List.mem_append_right _ hy)) hu' hw
  | .cond e a b, s, t, v, he, hg, h, ht => by
    rw [onlyReads, Bool.and_eq_true, Bool.and_eq_true] at he
    obtain ⟨x, u, hu, ht⟩ := bind_eq_some.1 ht
    have hu' := Expr.eval_keeps hread hnote env e he.1.1
      (fun y hy => hg y (List.mem_append_left _ (List.mem_append_left _ hy))) h hu
    split at ht
    · exact Expr.eval_keeps hread hnote env a he.1.2
        (fun y hy => hg y (List.mem_append_left _ (List.mem_append_right _ hy))) hu' ht
    · exact Expr.eval_keeps hread hnote env b he.2
        (fun y hy => hg y (List.mem_append_right _ hy)) hu' ht
  | .log e, s, t, v, he, hg, h, ht => by
    obtain ⟨x, u, hu, ht⟩ := bind_eq_some.1 ht
    cases ht
    exact hnote v (Expr.eval_keeps hread hnote env e he hg h hu)

theorem Expr.evalAll_keeps (hread : ∀ {y s v t}, G y → Q s → c.read y s = some (v, t) → Q t)
    (hnote : ∀ {s} v, Q s → Q { s with trace := .note v :: s.trace }) (env : Env) :
    ∀ (es : List LinkedExpr) {s t : Store} {vs : List Json}, onlyReadsAll es = true →
      (∀ y ∈ getsAll es, G y) → Q s → Expr.evalAll c env es s = some (vs, t) → Q t
  | [], _, _, _, _, _, h, ht => by
    cases ht
    exact h
  | e :: rest, s, t, vs, he, hg, h, ht => by
    rw [onlyReadsAll, Bool.and_eq_true] at he
    obtain ⟨x, u, hu, ht⟩ := bind_eq_some.1 ht
    obtain ⟨xs, w, hw, ht⟩ := bind_eq_some.1 ht
    cases ht
    have hu' := Expr.eval_keeps hread hnote env e he.1
      (fun y hy => hg y (List.mem_append_left _ hy)) h hu
    exact Expr.evalAll_keeps hread hnote env rest he.2
      (fun y hy => hg y (List.mem_append_right _ hy)) hu' hw

end

end

open Store

variable {A P : Set NodeId} {l l' : Log} {s t u : Store} {k n r : NodeId} {d : Nat}

namespace Store

theorem Accounted.note (h : s.Accounted l) (v : Json) :
    Accounted { s with trace := .note v :: s.trace } (.event (.note v) :: l) where
  rests hk := (bypasses_emit (e := .note v) rfl l s).rests (.inl trivial) (h.rests hk)
  known hx := h.known ((List.mem_cons.1 hx).resolve_left (by rintro ⟨⟩))
  busy hr := (bypasses_emit (e := .note v) rfl l s).busy (.inl trivial) (h.busy hr)
  exact := h.exact.cons (fun _ => rfl) nofun

theorem Tallied.enter (h : s.Tallied l) (hexact : Exact (fun x => s.memoAt x ≠ none) l)
    (hn : some n ∉ s.frames.map Frame.reader) (hdue : ¬s.Fresh ∅ n) :
    (s.entered n).Accounted l where
  rests {k} hk := by
    rw [entered, List.map_cons, List.mem_cons, not_or] at hk
    exact (bypasses_enter hdue l).rests (.inl fun e => hk.1 (e ▸ rfl)) (h.rests hk.2)
  known := h.known
  busy {r} hr := by
    obtain rfl : n = r := Option.some.inj hr
    have hmemo : s.memoAt n ≠ none := fun hm => hdue (fresh_of_memoAt_none hm)
    refine ⟨hdue, ((h.rests hn).stale hmemo).2 hdue, fun y => ?_, fun {x} hx => ?_⟩
    · rw [(h.rests hn).idle]
      simp [entered, Edges.mem_readers_unsubscribe]
    · simp [entered, Edges.mem_readers_unsubscribe] at hx
  exact := hexact

theorem Accounted.computed (h : s.Accounted l) (hg : s.Graph) {F : List (Option NodeId)}
    (hf : s.frames.map Frame.reader = some n :: F) (name : String) {m : Memo}
    (hn : s.nodes[n]? = some (.memo m)) (v : Json) (ht : t = filled { s with
      frames := s.frames.tail, trace := .memo n name v :: s.trace } n m (.json v)) :
    t.Tallied (.event (.memo n name v) :: l) ∧ t.Fresh ∅ n ∧ t.frames.map Frame.reader = F := by
  have hreader : s.reader? = some n := by rw [reader?_eq, hf]; rfl
  have hbusy := h.busy hreader
  have hbypass : Bypasses {k | k ≠ n} l s (.event (.memo n name v) :: l) t :=
    ht ▸ bypasses_computed hbusy.due l name m v
  have hframes : t.frames.map Frame.reader = F := by
    rw [ht, filled, List.map_tail, hf, List.tail_cons]
  have hself : t.nodes[n]? =
      some (.memo { m with value := some (.json v), freshness := .clean }) := by
    rw [ht]
    exact List.getElem?_set_self (List.getElem?_eq_some_iff.1 hn).1
  have hfresh : t.Fresh ∅ n := fresh_of_clean hself rfl rfl
  have hclose : (Event.memo n name v).closes n = true := decide_eq_true rfl
  refine ⟨⟨fun {k} hk => ?_, fun hx => ?_⟩, hfresh, hframes⟩
  · by_cases hkn : k = n
    · subst hkn
      have hgrounds : grounds k (.event (.memo k name v) :: l) = Log.gathered k l := by
        rw [grounds, basis_closes hclose, Option.getD_some]
      refine ⟨gathered_closes hclose, fun hm => ?_, fun _ => ?_, fun _ _ => ?_⟩
      · simp [memoAt_eq_some.2 hself] at hm
      · exact iff_of_false (not_stale_closes hclose) (not_not_intro hfresh)
      · rw [hgrounds]
        refine hbusy.sums.keep (fun x => by rw [ht]; rfl) fun x hx hf => ?_
        have hx : x ∈ {j | j ≠ k} := Nat.ne_of_lt (hg.lt_of_feeds (hg.edges hx))
        exact ⟨hbypass.fresh hf, by rw [grounds, grounds, hbypass.basis (.inl hx)]⟩
    · refine hbypass.rests (.inl hkn) (h.rests ?_)
      rw [hf, List.mem_cons, not_or]
      exact ⟨fun e => hkn (Option.some.inj e), hframes ▸ hk⟩
  · have hlength : t.nodes.length = s.nodes.length := by rw [ht, filled, List.length_set]
    rw [hlength]
    exact h.known ((List.mem_cons.1 hx).resolve_left (by rintro ⟨⟩))

end Store

/-- Reads of what stands below all that runs keep to the log, and are told there. -/
def Calls.Logs (c : Calls) : Prop :=
  ∀ ⦃P : Set NodeId⦄ ⦃n : NodeId⦄ ⦃l : Log⦄ ⦃s t : Store⦄ ⦃v : Content⦄, s.Sound P ∅ →
    s.MayRead n → n < s.nodes.length → (∀ k, some k ∈ s.frames.map Frame.reader → n < k) →
      s.Accounted l → c.read n s = some (v, t) →
        (∃ l', t.Accounted l' ∧ Bypasses {k | n < k ∧ s.reader? ≠ some k} l s l' t) ∧
          ∃ new, t.trace = .read s.reader? n v :: new ++ s.trace

def Store.Logging (P : Set NodeId) (n : NodeId) (l : Log) (s u : Store) : Prop :=
  ∃ l' xs, u.Accounted l' ∧ Bypasses {k | n < k} l (s.entered n) l' u ∧
    (s.entered n).Observes (P ∪ {n}) ∅ n xs u

/-- What a source holds is at hand in `t`: it was computed if it was stale, and only then. -/
structure Store.Obtains (n : NodeId) (l : Log) (s : Store) (l' : Log) (t : Store) : Prop
    extends t.Tallied l', Bypasses {k | n < k} l s l' t where
  obtained : t.Fresh ∅ n
  readers : t.frames.map Frame.reader = s.frames.map Frame.reader
  present : n < t.nodes.length
  exact : ∀ r w, Exact (fun x => t.memoAt x ≠ none) (.event (.read r n w) :: l')

namespace Machine

variable {v : Content}

theorem runRecipe_logs (hc : (calls d).Logs) (h : s.Sound P ∅)
    (habove : ∀ k, some k ∈ s.frames.map Frame.reader → n < k) (hl : (s.entered n).Accounted l)
    {name : String} {body : LinkedExpr} {value : Option Content} {freshness : Freshness}
    (hn : s.nodes[n]? = some (.memo ⟨.value name body, value, freshness⟩))
    (ht : runRecipe (calls d) n (.value name body) (s.entered n) = some (v, t)) :
    ∃ j u, v = .json j ∧ t = { u with trace := .memo n name j :: u.trace } ∧
      s.Logging P n l u := by
  obtain ⟨j, u, hu, ht⟩ := bind_eq_some.1 ht
  cases ht
  have honly : body.onlyReads = true := by
    cases h.graph.placed hn with
    | memo ho _ _ => exact ho
  have hgets := h.graph.mayRead_enter (body?_eq_some.2 ⟨_, hn, rfl⟩)
  have hreader : ∀ r, (s.entered n).reader? = some r → n ≤ r := fun r hr =>
    Nat.le_of_eq (Option.some.inj hr)
  refine ⟨j, u, rfl, rfl, ?_⟩
  refine Expr.eval_keeps (Q := s.Logging P n l) (G := (· ∈ body.gets))
    (fun {y w v t} hy hw ht => ?_) (fun {w} v hw => ?_) {} body honly (fun _ => id) ?_ hu
  · obtain ⟨l', xs, hacc, hbypass, hobs⟩ := hw
    obtain ⟨hyn, hmay⟩ := hgets y hy
    have hmay' := hobs.mayRead hmay
    obtain ⟨-, hobs'⟩ := calls_read hobs.sound (fun _ _ hk => hk.elim) hmay' ht
    have hwn : w.nodes[n]? = some _ := (hobs.above (Nat.le_refl n)).trans hn
    obtain ⟨⟨l'', hacc', hbypass'⟩, -⟩ := hc hobs.sound hmay'
      (Nat.lt_trans hyn (List.getElem?_eq_some_iff.1 hwn).1) (fun k hk => by
        rw [hobs.frames] at hk
        rcases List.mem_cons.1 hk with hk | hk
        · exact Option.some.inj hk ▸ hyn
        · exact Nat.lt_trans hyn (habove k hk)) hacc ht
    refine ⟨l'', xs ++ [y], hacc', hbypass.trans (hbypass'.mono fun k hk => ?_),
      hobs.trans (hobs'.mono hyn) hreader⟩
    refine ⟨Nat.lt_trans hyn hk, ?_⟩
    rw [hobs.reader?]
    exact fun hr => Nat.ne_of_lt hk (Option.some.inj hr)
  · obtain ⟨l', xs, hacc, hbypass, hobs⟩ := hw
    exact ⟨_, xs, hacc.note v, hbypass.trans ((bypasses_emit rfl l' w).mono (Set.subset_univ _)),
      hobs.emit trivial⟩
  · exact ⟨l, [], hl, .refl _ _ _, .refl (h.enter n)⟩

/-- What a read answers is computed if it is stale, and only then. -/
theorem content_logs (hc : (calls d).Logs) (h : s.Sound P ∅) (hn : n < s.nodes.length)
    (habove : ∀ k, some k ∈ s.frames.map Frame.reader → n < k) (hl : s.Tallied l)
    (hexact : Exact (fun x => s.memoAt x ≠ none) l) (ht : content (calls d) n s = some (v, t)) :
    ∃ l', Obtains n l s l' t := by
  have hnot : some n ∉ s.frames.map Frame.reader := fun hm => Nat.lt_irrefl n (habove n hm)
  have unchanged (hf : s.Fresh ∅ n) (ht : t = s) : ∃ l', Obtains n l s l' t := by
    subst ht
    exact ⟨l, { hl, Bypasses.refl _ l t with
      obtained := hf
      readers := rfl
      present := hn
      exact := hexact.cons_read fun hm hs => ((hl.rests hnot).stale hm).1 hs hf }⟩
  obtain ⟨x, hx⟩ : ∃ x, s.nodes[n]? = some x := ⟨_, List.getElem?_eq_getElem hn⟩
  cases h.graph.placed hx with
  | signal w =>
    simp only [content, bind_apply, node?_apply, hx, Option.bind_some] at ht
    cases ht
    exact unchanged (fresh_of_signal hx) rfl
  | effect =>
    simp only [content, bind_apply, node?_apply, hx, Option.bind_some] at ht
    cases ht
    exact unchanged (fun m hm => by simp [hx] at hm) rfl
  | @memo name body value freshness _ _ hjson =>
    have hcontent : content (calls d) n s =
        memoContent (calls d) n ⟨.value name body, value, freshness⟩ s := by
      simp [content, node?_apply, hx]
    rw [hcontent] at ht
    rcases Memo.due_or_clean ⟨.value name body, value, freshness⟩ with due | ⟨w, hf, hv⟩
    · rw [memoContent_of_due _ n due] at ht
      have hdue := not_fresh_of_due hx due
      obtain ⟨_, hrun, ht⟩ := recompute_eq_some ht
      obtain ⟨j, u, rfl, rfl, l', xs, hacc, hbypass, hobs⟩ :=
        runRecipe_logs hc h habove (hl.enter hexact hnot hdue) hx hrun
      have hun := (hobs.above (Nat.le_refl n)).trans hx
      replace ht := ht.trans (settled_of_json (s := { u with
        frames := u.frames.tail, trace := .memo n name j :: u.trace }) hun hjson (.json j))
      obtain ⟨htallied, hfresh, hframes⟩ := hacc.computed hobs.sound.graph hobs.frames name hun j ht
      have hbusy := hacc.busy hobs.reader?
      have hend := bypasses_computed hbusy.due l' name ⟨.value name body, value, freshness⟩ j
      have hne : {k | n < k} ⊆ {k | k ≠ n} := fun k hk => Nat.ne_of_gt hk
      have hall := (((bypasses_enter hdue l).mono hne).trans hbypass).trans (hend.mono hne)
      refine ⟨_, { htallied, ht ▸ hall with
        obtained := hfresh, readers := hframes, present := ?_, exact := fun r w => ?_ }⟩
      · rw [ht, filled, List.length_set]
        exact (List.getElem?_eq_some_iff.1 hun).1
      · refine (hacc.exact.cons_computed hbusy.stale r w name j).mono fun {_ x _} _ hm => ?_
        by_cases hxn : x = n
        · simp [hxn, memoAt_eq_some.2 hun]
        · rwa [ht, memoAt_congr (hend.node (.inl hxn))] at hm
    · rw [memoContent_of_clean _ n hf hv] at ht
      cases ht
      exact unchanged (fresh_of_clean hx hf hv) rfl

theorem readNode_eq_some {c : Calls} (h : readNode c n s = some (v, t)) :
    ∃ u, content c n (s.tracked n) = some (v, u) ∧ t = u.recorded n v := by
  simp only [readNode, bind_apply, track_eq, Option.bind_some, reader_apply, emit, modify_apply,
    pure_apply] at h
  obtain ⟨⟨w, u⟩, hu, h⟩ := Option.bind_eq_some_iff.1 h
  cases h
  exact ⟨u, hu, rfl⟩

end Machine

namespace Store

theorem mem_readers_tracked (hr : s.reader? = some r) (x : NodeId) :
    r ∈ Edges.readers (s.tracked n).edges x ↔ r ∈ Edges.readers s.edges x ∨ x = n := by
  rcases tracked_cases s n with ⟨hnone, -⟩ | ⟨r', sources, rest, hf, ht⟩
  · cases hnone.symm.trans hr
  · obtain rfl : r' = r := by simpa [reader?, hf] using hr
    simp [ht, Edges.mem_readers_subscribe_iff]

theorem Busy.read (h : s.Busy l r) (hr : s.reader? = some r) (hn : n < r)
    (ho : Obtains n l (s.tracked n) l' u) (v : Content) :
    (u.recorded n v).Busy (.event (.read (some r) n v) :: l') r where
  due hf := h.due (hf.congr (by
    rw [← nodes_tracked s n]
    exact (ho.node (.inl hn)).symm))
  stale := (stale_event rfl).2 ((ho.stale (.inl hn)).2 h.stale)
  sums := by
    have hfresh {x : NodeId} (hx : r ∈ Edges.readers s.edges x) : (s.tracked n).Fresh ∅ x :=
      (h.sums.fresh hx).congr (by rw [nodes_tracked])
    have hedges (x : NodeId) : r ∈ Edges.readers u.edges x ↔ r ∈ Edges.readers s.edges x ∨ x = n :=
      (ho.edges (.inl hn) x).trans (mem_readers_tracked hr x)
    have hgrounds (x : NodeId) : grounds x (.event (.read (some r) n v) :: l') = grounds x l' := by
      rw [grounds, basis_event rfl, grounds]
    refine ⟨fun y => ?_, fun {x} hx => ?_⟩
    · rw [gathered_read, ho.gathered (.inl hn), List.mem_append, h.sums.mem]
      constructor
      · rintro (hy | ⟨x, hx, hy⟩)
        · exact ⟨n, (hedges n).2 (.inr rfl), hgrounds n ▸ hy⟩
        · refine ⟨x, (hedges x).2 (.inl hx), ?_⟩
          rwa [hgrounds, grounds, ho.basis (.inr (hfresh hx))]
      · rintro ⟨x, hx, hy⟩
        rw [hgrounds] at hy
        rcases (hedges x).1 hx with hx | rfl
        · refine .inr ⟨x, hx, ?_⟩
          rwa [grounds, ho.basis (.inr (hfresh hx))] at hy
        · exact .inl hy
    · rcases (hedges x).1 hx with hx | rfl
      · exact ho.fresh (hfresh hx)
      · exact ho.obtained

end Store

theorem Machine.readNode_logs (hc : (calls d).Logs) (h : s.Sound P ∅) (hmay : s.MayRead n)
    (hn : n < s.nodes.length) (habove : ∀ k, some k ∈ s.frames.map Frame.reader → n < k)
    (hl : s.Accounted l) {v : Content} (ht : readNode (calls d) n s = some (v, t)) :
    (∃ l', t.Accounted l' ∧ Bypasses {k | n < k ∧ s.reader? ≠ some k} l s l' t) ∧
      ∃ new, t.trace = .read s.reader? n v :: new ++ s.trace := by
  obtain ⟨u, hu, rfl⟩ := readNode_eq_some ht
  have hidle {k : NodeId} (hk : some k ∉ s.frames.map Frame.reader) : s.reader? ≠ some k :=
    fun hr => hk (mem_frames_of_reader? hr)
  obtain ⟨htracked, -⟩ := Observes.track (b := 0) h hmay
  have hbypass := bypasses_track (fun r hr => (hl.busy hr).due) l n
  have htallied : (s.tracked n).Tallied l :=
    { rests := fun hk => hbypass.rests (.inl (hidle (htracked.frames ▸ hk)))
        (hl.rests (htracked.frames ▸ hk))
      known := fun hx => nodes_tracked s n ▸ hl.known hx }
  obtain ⟨l', ho⟩ := content_logs hc htracked.sound (nodes_tracked s n ▸ hn)
    (htracked.frames ▸ habove) htallied (by simpa only [memoAt, nodes_tracked] using hl.exact) hu
  have hframes := ho.readers.trans htracked.frames
  have hreader : u.reader? = s.reader? := by rw [reader?_eq, reader?_eq, hframes]
  have hbusy {r : NodeId} (hr : s.reader? = some r) :
      (u.recorded n v).Busy (.event (.read u.reader? n v) :: l') r := by
    rw [hreader, hr]
    exact (hl.busy hr).read hr (habove r (mem_frames_of_reader? hr)) ho v
  have hrecorded := bypasses_recorded (s := u) (fun r hr => (hbusy (hreader ▸ hr)).due) l' n v
  refine ⟨⟨_, ⟨⟨fun {k} hk => ?_, fun {r x w} hx => ?_⟩, fun hr => hbusy (hreader ▸ hr),
    ho.exact u.reader? v⟩, ?_⟩, ?_⟩
  · exact hrecorded.rests (.inl (hreader ▸ hidle (hframes ▸ hk))) (ho.rests hk)
  · rcases List.mem_cons.1 hx with hx | hx
    · cases hx
      exact ho.present
    · exact ho.known hx
  · refine ((hbypass.mono fun k hk => hk.2).trans (ho.toBypasses.mono fun k hk => hk.1)).trans
      (hrecorded.mono fun k hk => ?_)
    exact fun hr => hk.2 (hreader ▸ hr)
  · obtain ⟨new, hnew, -⟩ := ho.log
    obtain ⟨old, hold, -⟩ := hbypass.log
    exact ⟨new ++ old, by rw [← hreader, List.cons_append, List.append_assoc, ← hold, ← hnew]; rfl⟩

theorem calls_logs (d : Nat) : (calls d).Logs := by
  induction d with
  | zero => exact fun P n l s t v _ _ _ _ _ ht => by cases ht
  | succ d ih =>
    exact fun P n l s t v h hmay hn habove hl ht => readNode_logs ih h hmay hn habove hl ht

end HotSwap
