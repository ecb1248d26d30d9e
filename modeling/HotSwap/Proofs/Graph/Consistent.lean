import Mathlib.Data.Set.Basic
import HotSwap.Proofs.Graph.Basic
import HotSwap.Proofs.Graph.Observed
/-!
# Which caches to trust

Between operations a clean memo holds the value of its body over what its sources hold, and an effect
that only reads has last observed what they hold; both are subscribed to what they read. While a change
is on its way this fails for those that are still to be told of it: they are `P`. A memo may also be
invalidated by hand and hold a good value nevertheless, which its readers go on to rely on: those are
`K`.
-/

namespace HotSwap

open Machine

namespace Store

variable {P Q K L : Set NodeId} {s t : Store} {n : NodeId}

/-- A read of the source would leave its value as it is. -/
def Fresh (s : Store) (K : Set NodeId) (n : NodeId) : Prop :=
  ∀ m, s.nodes[n]? = some (.memo m) → (m.freshness = .clean ∨ n ∈ K) ∧ m.value ≠ none

/-- All that a body reads is fresh, and a change of it will reach `n`. -/
def Watches (s : Store) (K : Set NodeId) (n : NodeId) (body : LinkedExpr) : Prop :=
  ∀ x ∈ body.reads s.cached {}, n ∈ Edges.readers s.edges x ∧ s.Fresh K x

structure Consistent (s : Store) (K : Set NodeId) (n : NodeId) : Prop where
  memo : ∀ {name : String} {body : LinkedExpr} {value : Option Content} {freshness : Freshness},
    s.nodes[n]? = some (.memo ⟨.value name body, value, freshness⟩) → s.Fresh K n →
      s.cached n = body.value s.cached {} ∧ s.Watches K n body
  effect : ∀ {e : Effect}, s.nodes[n]? = some (.effect e) → e.disposed = false →
    e.body.onlyReads = true → 0 < e.runs →
      lastReads n s.trace = (observed s.cached (e.body.reads s.cached {})).reverse ∧
        s.Watches K n e.body

/-- A graph in which all but `P` is up to date, and no run of an effect that only reads is left
unfinished. -/
structure Sound (P K : Set NodeId) (s : Store) : Prop where
  graph : s.Graph
  consistent : ∀ {n : NodeId}, .node n ∈ s.live → n ∉ P → s.Consistent K n
  idle : ∀ {n : NodeId} {e : Effect}, s.nodes[n]? = some (.effect e) → e.body.onlyReads = true →
    some n ∉ s.frames.map Frame.reader → openReads n s.trace = []

theorem Fresh.mono (h : s.Fresh K n) (hK : K ⊆ L) : s.Fresh L n := fun m hm =>
  ⟨(h m hm).1.imp_right (hK ·), (h m hm).2⟩

theorem Fresh.congr (h : s.Fresh K n) (hn : t.nodes[n]? = s.nodes[n]?) : t.Fresh K n :=
  fun m hm => h m (hn ▸ hm)

theorem fresh_of_signal {v : Json} (h : s.nodes[n]? = some (.signal v)) : s.Fresh K n := by
  intro m hm
  simp [h] at hm

theorem fresh_of_memoAt_none (h : s.memoAt n = none) : s.Fresh K n := by
  intro m hm
  simp [memoAt_eq_some.2 hm] at h

theorem fresh_of_clean {m : Memo} {v : Content} (hn : s.nodes[n]? = some (.memo m))
    (hf : m.freshness = .clean) (hv : m.value = some v) : s.Fresh K n := by
  intro m' hm
  obtain rfl : m = m' := by simpa [hn] using hm
  exact ⟨.inl hf, by simp [hv]⟩

theorem not_fresh_of_due {m : Memo} (hn : s.nodes[n]? = some (.memo m)) (due : m.Due) :
    ¬s.Fresh ∅ n := fun h => (h m hn).2 (due ((h m hn).1.resolve_right (Set.notMem_empty n)))

theorem Consistent.keep (h : s.Consistent K n) (hn : t.nodes[n]? = s.nodes[n]?)
    (hl : lastReads n t.trace = lastReads n s.trace) (hfresh : t.Fresh L n → s.Fresh K n)
    (hx : ∀ x, n ∈ Edges.readers s.edges x → s.Fresh K x →
      n ∈ Edges.readers t.edges x ∧ t.Fresh L x ∧ t.cached x = s.cached x) : t.Consistent L n := by
  have watches {body : LinkedExpr} (hw : s.Watches K n body) :
      body.value t.cached {} = body.value s.cached {} ∧
        body.reads t.cached {} = body.reads s.cached {} ∧ t.Watches L n body := by
    obtain ⟨hv, hr⟩ : body.value t.cached {} = body.value s.cached {} ∧
        body.reads t.cached {} = body.reads s.cached {} :=
      Expr.value_congr body fun x hr => (hx x (hw x hr).1 (hw x hr).2).2.2
    refine ⟨hv, hr, fun x hxr => ?_⟩
    rw [hr] at hxr
    obtain ⟨hmem, hf, _⟩ := hx x (hw x hxr).1 (hw x hxr).2
    exact ⟨hmem, hf⟩
  constructor
  · intro name body value freshness hm hf
    obtain ⟨hv, hw⟩ := h.memo (hn ▸ hm) (hfresh hf)
    obtain ⟨hv', _, hw'⟩ := watches hw
    exact ⟨by rw [cached_congr hn, hv, hv'], hw'⟩
  · intro e he hd ho hr
    obtain ⟨hv, hw⟩ := h.effect (hn ▸ he) hd ho hr
    obtain ⟨_, hr', hw'⟩ := watches hw
    refine ⟨?_, hw'⟩
    rw [hl, hv, hr', observed_congr fun x hxr => (hx x (hw x hxr).1 (hw x hxr).2).2.2]

theorem Consistent.same (h : s.Consistent K n) (hn : t.nodes = s.nodes)
    (hl : lastReads n t.trace = lastReads n s.trace)
    (he : ∀ x, n ∈ Edges.readers s.edges x → n ∈ Edges.readers t.edges x) : t.Consistent K n :=
  h.keep (by rw [hn]) hl (·.congr (by rw [hn])) fun x hx hf =>
    ⟨he x hx, hf.congr (by rw [hn]), cached_congr (by rw [hn])⟩

theorem Consistent.of_due {m : Memo} (hn : s.nodes[n]? = some (.memo m)) (due : m.Due) :
    s.Consistent ∅ n where
  memo hm hf := by
    rw [hn] at hm
    cases hm
    exact absurd hf (not_fresh_of_due hn due)
  effect he := by simp [hn] at he

theorem Sound.mono (h : s.Sound P K) (hPQ : ∀ n, .node n ∈ s.live → n ∈ P → n ∈ Q) :
    s.Sound Q K :=
  { h with consistent := fun hl hn => h.consistent hl fun hP => hn (hPQ _ hl hP) }

/-- A fresh source whose own sources are all trusted holds its value from scratch. -/
theorem Sound.cached_eq_scratch (h : s.Sound P K) :
    ∀ {n : NodeId}, .node n ∈ s.live → s.Fresh K n →
      (∀ y, s.Leads y n → y ∉ P) → s.cached n = s.scratch n := by
  intro n
  induction n using Nat.strongRecOn with
  | ind n ih =>
    intro hl hf hP
    cases hn : s.nodes[n]? with
    | none => simp [cached, scratch, scratchWithin, hn]
    | some x =>
      have hplaced := h.graph.placed hn
      cases hplaced with
      | signal v => rw [cached_of_signal hn, scratch_of_signal hn]
      | @memo name body value freshness ho hlt _ =>
        obtain ⟨hv, hw⟩ := (h.consistent hl (hP n .refl)).memo hn hf
        have hb : s.body? n = some body := body?_eq_some.2 ⟨_, hn, rfl⟩
        rw [hv, h.graph.scratch_of_memo hn]
        refine (Expr.value_congr body fun y hy => ?_).1.symm
        have hget : y ∈ body.gets := Expr.reads_subset_gets body hy
        exact (ih y (hlt y hget) (h.graph.closed ⟨body, hb, hget⟩ hl) (hw y hy).2 fun z hz =>
          hP z (hz.tail ⟨body, hb, hget⟩)).symm
      | effect => simp [cached, Node.cached, scratch, scratchWithin, hn]

end Store

end HotSwap
