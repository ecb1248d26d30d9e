import HotSwap.Proofs.Graph.Operation
/-!
# Nothing is stale between operations

Whatever a program did with signals, memos and effects: a read of a memo answers the value that the
signals call for, and an effect that only reads has observed, when it last ran, what it would observe
now.
-/

namespace HotSwap.Store

variable {P K : Set NodeId} {s t : Store} {n : NodeId} {e : Effect}

/-- A read of a source ends, and answers its value from scratch, if all that leads to it is
trusted. -/
theorem Sound.read_trusted (h : s.Sound P K) (hf : s.frames = [])
    (hkept : ∀ k ∈ K, k ∉ P ∧ .node k ∈ s.live) (hl : .node n ∈ s.live)
    (hP : ∀ k, s.Leads k n → k ∉ P) :
    (∀ d > n, ∃ t, (calls d).read n s = some (.json (s.scratch n), t)) ∧
      ∀ d x t, (calls d).read n s = some (x, t) → x = .json (s.scratch n) := by
  have hmay : s.MayRead n := fun r hr => by simp [reader?, hf] at hr
  have hvalue {b : Nat} {t : Store} (ho : s.Observes P K b [n] t) : t.cached n = s.scratch n := by
    rw [← ho.scratch]
    refine ho.sound.cached_eq_scratch (ho.live ▸ hl)
      ((ho.found n (List.mem_singleton_self n)).1.mono (Set.empty_subset K)) fun k hk => hP k ?_
    rwa [ho.leads] at hk
  refine ⟨fun d hd => ?_, fun d x t ht => ?_⟩
  · obtain ⟨t, ht, ho⟩ := calls_answer d (n + 1) hd P n n.lt_succ_self s h
      (fun k _ hk => hkept k hk) hmay
    exact ⟨t, by rw [ht, hvalue ho]⟩
  · obtain ⟨hx, ho⟩ := calls_read h (fun k _ hk => hkept k hk) hmay ht
    rw [hx, hvalue ho]

/-- In its last run an effect that only reads has read what its body reads now, and every source as
it is from scratch. -/
theorem Sound.lastReads_trusted (h : s.Sound ∅ K) (he : s.nodes[n]? = some (.effect e))
    (hl : .node n ∈ s.live) (hd : e.disposed = false) (hr : 0 < e.runs)
    (ho : e.body.onlyReads = true) :
    lastReads n s.trace = (observed s.scratch (e.body.reads s.scratch {})).reverse ∧
      ∀ x v, (x, v) ∈ lastReads n s.trace → v = .json (s.scratch x) := by
  obtain ⟨hlast, hw⟩ := (h.consistent hl (Set.notMem_empty n)).effect he hd ho hr
  have hscratch : ∀ x ∈ e.body.reads s.cached {}, s.scratch x = s.cached x := fun x hx =>
    (h.cached_eq_scratch (h.graph.closed
      ⟨_, body?_eq_some.2 ⟨_, he, rfl⟩, Expr.reads_subset_gets _ hx⟩ hl) (hw x hx).2
        fun _ _ => Set.notMem_empty _).symm
  obtain ⟨_, hreads⟩ := Expr.value_congr e.body hscratch
  have hlast' : lastReads n s.trace = (observed s.scratch (e.body.reads s.scratch {})).reverse := by
    rw [hlast, hreads, observed_congr hscratch]
  refine ⟨hlast', fun x v hx => ?_⟩
  rw [hlast', List.mem_reverse] at hx
  obtain ⟨y, _, hy⟩ := List.mem_map.1 hx
  cases hy
  rfl

/-- A signal, a memo that reads it and an effect that reads the memo, once the signal was set. -/
def chain : Store :=
  ([.signal (.bool false), .memo "m" (.get 0), .effect "e" (.get 1) false, .set 0 (.bool true)].foldl
    (fun s o => ((Operation.run (calls 5) o s).map Prod.snd).getD s) {})

theorem reached_chain : Reached chain := by
  refine .step (.set 0 (.bool true)) 5 (.step (.effect "e" (.get 1) false) 5 (.step (.memo "m" (.get 0))
    5 (.step (.signal (.bool false)) 5 .refl trivial rfl) ?_ rfl) ?_ rfl) trivial rfl
  · exact ⟨rfl, by decide⟩
  · exact ⟨rfl, by decide⟩

/-- Between operations a read of a memo ends, and answers its value from scratch. -/
theorem Reached.read_scratch (h : Reached s) (hl : .node n ∈ s.live) :
    (∀ d > n, ∃ t, (calls d).read n s = some (.json (s.scratch n), t)) ∧
      ∀ d x t, (calls d).read n s = some (x, t) → x = .json (s.scratch n) :=
  h.calm.1.sound.read_trusted h.calm.2 (fun _ hk => hk.elim) hl fun _ _ => Set.notMem_empty _

theorem read_in_chain : .node 1 ∈ chain.live ∧ chain.scratch 1 = .bool true ∧
    ∃ t, (calls 5).read 1 chain = some (.json (.bool true), t) :=
  ⟨by decide, rfl, (reached_chain.read_scratch (n := 1) (by decide)).1 5 (by decide)⟩

/-- Between operations an effect that only reads has last read what it would read now. -/
theorem Reached.lastReads_scratch (h : Reached s) (he : s.nodes[n]? = some (.effect e))
    (hl : .node n ∈ s.live) (hd : e.disposed = false) (hr : 0 < e.runs)
    (ho : e.body.onlyReads = true) :
    lastReads n s.trace = (observed s.scratch (e.body.reads s.scratch {})).reverse ∧
      ∀ x v, (x, v) ∈ lastReads n s.trace → v = .json (s.scratch x) :=
  h.calm.1.sound.lastReads_trusted he hl hd hr ho

theorem lastReads_in_chain : chain.nodes[2]? =
      some (.effect { name := "e", body := .get 1, runs := 2, dependencies := 1 }) ∧
    .node 2 ∈ chain.live ∧ lastReads 2 chain.trace = [(1, .json (.bool true))] :=
  ⟨rfl, by decide, (reached_chain.lastReads_scratch (n := 2) rfl (by decide) rfl (by decide) rfl).1⟩

end HotSwap.Store
