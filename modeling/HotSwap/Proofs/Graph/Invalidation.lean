import HotSwap.Proofs.Graph.Fresh
/-!
# Invalidating a memo by hand

A memo that is marked dirty tells nobody. Its readers may go on to rely on what it held, which is still
right; but it looks like a memo that has told them, so a change that reaches it next stops there. If
the memo is read before, or nobody relies on it, nothing is lost.
-/

namespace HotSwap

open Machine

namespace Store

variable {P K L : Set NodeId} {s t u : Store} {n : NodeId} {m : Memo} {d : Nat}

/-- The memo would not pass on a change, although somebody who lives relies on it. -/
def Withholds (s : Store) (n : NodeId) : Prop :=
  (∃ m, s.nodes[n]? = some (.memo m) ∧ m.freshness ≠ .clean) ∧
    ∃ k ∈ s.targets n, ∀ m, s.nodes[k]? = some (.memo m) → m.freshness = .clean

/-- Reads may happen at any time, and all else while `n` withholds nothing. -/
def Minds (n : NodeId) (s : Store) (o : Operation) : Prop := (∃ k, o = .read k) ∨ ¬s.Withholds n

theorem markDirty_of_memo (hn : s.nodes[n]? = some (.memo m)) :
    markDirty n s = some ((), { s with
      nodes := s.nodes.set n (.memo { m with freshness := .dirty }) }) := by
  simp [markDirty, memo?_apply, memoAt_eq_some.2 hn, setNode_apply]

theorem markDirty_of_ne (hn : ∀ m, s.nodes[n]? ≠ some (.memo m)) :
    markDirty n s = some ((), s) := by
  have hnone : s.memoAt n = none :=
    Option.eq_none_iff_forall_ne_some.2 fun m hm => hn m (memoAt_eq_some.1 hm)
  simp [markDirty, memo?_apply, hnone]

theorem Fresh.of_notMem (h : s.Fresh K n) (hn : n ∉ K) : s.Fresh L n := fun m hm =>
  ⟨.inl ((h m hm).1.resolve_right hn), (h m hm).2⟩

theorem Sound.relax (h : s.Sound P K) (hL : ∀ k ∈ L, s.Fresh K k) (hKL : K ⊆ L) : s.Sound P L :=
  { h with
    consistent := fun {k} hl hk => (h.consistent hl hk).keep rfl rfl
      (fun hf => (Classical.em (k ∈ L)).elim (hL k) hf.of_notMem)
      fun _ hx hf => ⟨hx, hf.mono hKL, rfl⟩ }

/-- A memo that was clean may be relied on although it is dirty now. -/
theorem Sound.invalidate (h : s.Sound ∅ ∅) (ht : markDirty n s = some ((), t)) :
    ∃ K ⊆ {n}, t.Sound ∅ K ∧ (∀ k ∈ K, .node k ∈ t.live) ∧ t.frames = s.frames := by
  by_cases hm : ∃ m, s.nodes[n]? = some (.memo m)
  · obtain ⟨⟨recipe, value, freshness⟩, hn⟩ := hm
    rw [markDirty_of_memo hn] at ht
    cases ht
    let K : Set NodeId := {k | k = n ∧ .node n ∈ s.live ∧ s.Fresh ∅ n}
    have hK : s.Sound ∅ K := h.relax (fun k hk => hk.1 ▸ hk.2.2) (Set.empty_subset K)
    have hself : (s.nodes.set n (.memo ⟨recipe, value, .dirty⟩))[n]? =
        some (.memo ⟨recipe, value, .dirty⟩) :=
      List.getElem?_set_self (List.getElem?_eq_some_iff.1 hn).1
    have hfresh (hf : s.Fresh K n) : s.Fresh ∅ n :=
      (Classical.em (n ∈ K)).elim (fun hnK => hnK.2.2) hf.of_notMem
    have hkept (hnK : n ∈ K) :
        Fresh { s with nodes := s.nodes.set n (.memo ⟨recipe, value, .dirty⟩) } K n := by
      intro m hm
      cases hself.symm.trans hm
      exact ⟨.inr hnK, (hnK.2.2 _ hn).2⟩
    have hplaced : (Node.memo ⟨recipe, value, .dirty⟩).Placed n := by
      cases h.graph.placed hn with
      | memo ho hlt hv => exact .memo ho hlt hv
    refine ⟨K, fun k hk => hk.1, hK.set hn hplaced rfl (fun _ hl => ?_) fun k hl _ _ =>
      ⟨Set.notMem_empty k, fun hr hf => ⟨hkept ⟨rfl, ?_, hfresh hf⟩, rfl⟩⟩, fun k hk => ?_, rfl⟩
    · refine ⟨fun {name body v f} hm hf => ?_, fun he => ?_⟩
      · cases hself.symm.trans hm
        have hnK : n ∈ K := (hf _ hself).1.resolve_left (by simp)
        obtain ⟨hv, hw⟩ := (h.consistent hl (Set.notMem_empty n)).memo hn hnK.2.2
        have hcached : cached { s with
            nodes := s.nodes.set n (.memo ⟨.value name body, value, .dirty⟩) } = s.cached := by
          funext x
          by_cases hx : x = n
          · rw [hx, cached_of_memo hself, cached_of_memo hn]
          · exact cached_congr (List.getElem?_set_ne (Ne.symm hx))
        rw [hcached]
        refine ⟨hv, fun x hx => ?_⟩
        rw [hcached] at hx
        have hlt : x < n := (h.graph.placed hn).gets_lt rfl (Expr.reads_subset_gets body hx)
        exact ⟨(hw x hx).1, ((hw x hx).2.mono (Set.empty_subset K)).congr
          (List.getElem?_set_ne (Nat.ne_of_gt hlt))⟩
      · cases hself.symm.trans he
    · exact h.graph.closed (h.graph.edges hr) hl
    · exact hk.1 ▸ hk.2.1
  · rw [markDirty_of_ne fun m hn => hm ⟨m, hn⟩] at ht
    cases ht
    exact ⟨∅, Set.empty_subset _, h, fun _ hk => hk.elim, rfl⟩

/-- Once the memo withholds nothing, nobody relies on more than what is clean. -/
theorem Sound.forget (h : s.Sound ∅ K) (hK : K ⊆ {n}) (hw : ¬s.Withholds n) : s.Sound ∅ ∅ := by
  have hkeep {k : NodeId} (hl : .node k ∈ s.live)
      (hx : ∀ x, k ∈ Edges.readers s.edges x → s.Fresh K x → s.Fresh ∅ x) : s.Consistent ∅ k :=
    (h.consistent hl (Set.notMem_empty k)).keep rfl rfl (·.mono (Set.empty_subset K))
      fun x hr hf => ⟨hr, hx x hr hf, rfl⟩
  have hother {x : NodeId} (hx : x ≠ n) (hf : s.Fresh K x) : s.Fresh ∅ x :=
    hf.of_notMem fun hxK => hx (hK hxK)
  refine { h with consistent := fun {k} hl _ => ?_ }
  by_cases hc : ∃ m, s.nodes[n]? = some (.memo m) ∧ m.freshness ≠ .clean
  · by_cases hr : k ∈ Edges.readers s.edges n
    · -- a reader of it has been told itself
      have hk : ∃ m, s.nodes[k]? = some (.memo m) ∧ m.freshness ≠ .clean := by
        by_contra hk
        exact hw ⟨hc, k, mem_targets.2 ⟨hr, hl⟩, fun m hm => by
          by_contra hf
          exact hk ⟨m, hm, hf⟩⟩
      obtain ⟨m, hm, hf⟩ := hk
      exact .of_due hm fun hclean => absurd hclean hf
    · exact hkeep hl fun x hx => hother fun e => hr (e ▸ hx)
  · refine hkeep hl fun x hx hf => ?_
    by_cases hxn : x = n
    · subst hxn
      intro m hm
      refine ⟨.inl ?_, (hf m hm).2⟩
      by_contra hfr
      exact hc ⟨m, hm, hfr⟩
    · exact hother hxn hf

theorem Evolves.sound (h : Evolves (Minds n) s t) {K : Set NodeId} (hK : K ⊆ {n})
    (hs : s.Sound ∅ K) (hl : ∀ k ∈ K, .node k ∈ s.live) (hf : s.frames = []) :
    ∃ L ⊆ {n}, t.Sound ∅ L ∧ (∀ k ∈ L, .node k ∈ t.live) ∧ t.frames = [] := by
  induction h with
  | refl => exact ⟨K, hK, hs, hl, hf⟩
  | @step t u o d _ ho hmay ht ih =>
    obtain ⟨L, hL, ht', hl', hf'⟩ := ih
    have hframes := frames_run hf' o ht
    by_cases hw : t.Withholds n
    · obtain ⟨k, rfl⟩ := hmay.resolve_right (not_not.2 hw)
      obtain ⟨x, w, hx, e⟩ := bind_eq_some.1 ht
      cases e
      obtain ⟨_, hobs⟩ := calls_read ht' (fun j _ hj => ⟨Set.notMem_empty j, hl' j hj⟩)
        (fun r hr => by simp [reader?, hf'] at hr) hx
      exact ⟨L, hL, hobs.sound, fun j hj => hobs.live ▸ hl' j hj, hframes⟩
    · have hcalm : t.Calm ∅ := ⟨ht'.forget hL hw, by simp [hf']⟩
      exact ⟨∅, Set.empty_subset _, (hcalm.run hf' o ho ht).sound, fun _ hk => hk.elim, hframes⟩

/-- After a memo was invalidated by hand, reads and writes go on to be right as long as no write
happens while the memo withholds it from somebody. -/
theorem Reached.invalidated (h : Reached s) (ht : markDirty n s = some ((), t))
    (hu : Evolves (Minds n) t u) :
    (∀ k, .node k ∈ u.live →
      (∀ d > k, ∃ w, (calls d).read k u = some (.json (u.scratch k), w)) ∧
        ∀ d x w, (calls d).read k u = some (x, w) → x = .json (u.scratch k)) ∧
      ∀ k e, u.nodes[k]? = some (.effect e) → .node k ∈ u.live → e.disposed = false → 0 < e.runs →
        e.body.onlyReads = true → ∀ x v, (x, v) ∈ lastReads k u.trace → v = .json (u.scratch x) := by
  obtain ⟨hcalm, hframes⟩ := h.calm
  obtain ⟨K, hK, hsound, hl, hf⟩ := hcalm.sound.invalidate ht
  obtain ⟨L, -, hsound', hl', hf'⟩ := hu.sound hK hsound hl (hf.trans hframes)
  exact ⟨fun k hk => hsound'.read_trusted hf' (fun j hj => ⟨Set.notMem_empty j, hl' j hj⟩) hk
      fun _ _ => Set.notMem_empty _,
    fun k e he hk hd hr ho => (hsound'.lastReads_trusted he hk hd hr ho).2⟩

theorem invalidated_in_chain : ∃ t u v, markDirty 1 chain = some ((), t) ∧
    (Operation.read 1).run (calls 5) t = some ((), u) ∧ ¬u.Withholds 1 ∧
    (Operation.set 0 (.bool false)).run (calls 5) u = some ((), v) ∧ v.scratch 1 = .bool false ∧
    (∃ w, (calls 5).read 1 v = some (.json (.bool false), w)) ∧
    ∀ x w, (x, w) ∈ lastReads 2 v.trace → w = .json (v.scratch x) := by
  obtain ⟨t, ht⟩ : ∃ t, markDirty 1 chain = some ((), t) := ⟨_, rfl⟩
  obtain ⟨u, hu⟩ : ∃ u, (Operation.read 1).run (calls 5) t = some ((), u) := by
    cases ht
    exact ⟨_, rfl⟩
  have hw : ¬u.Withholds 1 := by
    cases ht
    cases hu
    rintro ⟨⟨m, hm, hf⟩, -⟩
    cases hm
    exact hf rfl
  obtain ⟨v, hv⟩ : ∃ v, (Operation.set 0 (.bool false)).run (calls 5) u = some ((), v) := by
    cases ht
    cases hu
    exact ⟨_, rfl⟩
  obtain ⟨hread, hlast⟩ := reached_chain.invalidated ht ((Evolves.refl.step (.read 1) 5 trivial
    (.inl ⟨1, rfl⟩) hu).step (.set 0 (.bool false)) 5 trivial (.inr hw) hv)
  refine ⟨t, u, v, ht, hu, hw, hv, ?_⟩
  cases ht
  cases hu
  cases hv
  exact ⟨rfl, (hread 1 (by decide)).1 5 (by decide), hlast 2 _ rfl (by decide) rfl (by decide) rfl⟩

example : ((markDirty 1 chain).bind fun (_, s) =>
    ((Operation.set 0 (.bool false)).run (calls 5) s).map fun (_, t) =>
      (lastReads 2 t.trace, t.scratch 1)) =
    some ([(1, .json (.bool true))], .bool false) := rfl

/-- A memo that was invalidated by hand, and all that does not read it, goes on to be right whatever
happens. -/
theorem Reached.invalidated_apart {may : Store → Operation → Prop} {k : NodeId} (h : Reached s)
    (ht : markDirty n s = some ((), t)) (hu : Evolves may t u) (hl : .node k ∈ u.live)
    (hk : k = n ∨ ¬u.Leads n k) :
    (∀ d > k, ∃ w, (calls d).read k u = some (.json (u.scratch k), w)) ∧
      ∀ d x w, (calls d).read k u = some (x, w) → x = .json (u.scratch k) := by
  obtain ⟨hcalm, hframes⟩ := h.calm
  let P : Set NodeId := {k | s.Leads n k ∧ k ≠ n}
  obtain ⟨hP, hf, hlast⟩ : t.Calm P ∧ t.frames = [] ∧ s.Lasts t := by
    by_cases hm : ∃ m, s.nodes[n]? = some (.memo m)
    · obtain ⟨⟨recipe, value, freshness⟩, hn⟩ := hm
      rw [markDirty_of_memo hn] at ht
      cases ht
      have hplaced : (Node.memo ⟨recipe, value, .dirty⟩).Placed n := by
        cases hcalm.sound.graph.placed hn with
        | memo ho hlt hv => exact .memo ho hlt hv
      have hset := hcalm.sound.set (Q := P) hn hplaced rfl
        (fun _ _ => .of_due (List.getElem?_set_self (List.getElem?_eq_some_iff.1 hn).1) nofun)
        fun k _ hk hkn => ⟨Set.notMem_empty k, fun hr _ =>
          (hk ⟨.single (hcalm.sound.graph.edges hr), hkn⟩).elim⟩
      exact ⟨⟨hset, by simp [hframes]⟩, hframes, .set hn rfl⟩
    · rw [markDirty_of_ne fun m hn => hm ⟨m, hn⟩] at ht
      cases ht
      exact ⟨hcalm.mono fun _ _ hk => hk.elim, hframes, .refl _⟩
  obtain ⟨hcalm', hframes'⟩ := hu.calm hP hf
  refine hcalm'.sound.read_trusted hframes' (fun _ hk => hk.elim) hl fun z hz hzP => ?_
  have hnz : u.Leads n z := (hlast.trans hu.lasts).leads hzP.1
  rcases hk with rfl | hk
  · exact hzP.2 (Nat.le_antisymm (hcalm'.sound.graph.le_of_leads hz)
      (hcalm'.sound.graph.le_of_leads hnz))
  · exact hk (hnz.trans hz)

end Store

end HotSwap
