import HotSwap.Proofs.Graph.Account
/-!
# What a change marks

Where all readers are memos, a change only marks: it reaches the fresh memos behind the source,
along the subscriptions, and nothing else.
-/

namespace HotSwap

open Machine Log

namespace Store

variable {A : Set NodeId} {l : Log} {s t u : Store} {j k n x : NodeId} {m : Memo}

/-- Memos in `A` are marked, and those that read a memo that is marked are not fresh either. -/
structure Marks (A : Set NodeId) (s t : Store) : Prop where
  same : t = { s with nodes := t.nodes }
  outside : ∀ {k : NodeId}, k ∉ A → t.nodes[k]? = s.nodes[k]?
  marked : ∀ k : NodeId, t.nodes[k]? = s.nodes[k]? ∨ ∃ m, s.nodes[k]? = some (.memo m) ∧
    t.nodes[k]? = some (.memo { m with freshness := .maybeDirty })
  told : ∀ {j : NodeId}, s.Fresh ∅ j → ¬t.Fresh ∅ j → ∀ k ∈ s.targets j, ¬t.Fresh ∅ k

/-- All that reads is a memo, and `A` contains the readers of each of its sources. -/
structure Markable (A : Set NodeId) (s : Store) : Prop where
  memo : ∀ {k j : NodeId}, k ∈ Edges.readers s.edges j → s.memoAt k ≠ none
  closed : ∀ {k j : NodeId}, j ∈ A → k ∈ Edges.readers s.edges j → k ∈ A

theorem not_fresh_of_marked (h : s.nodes[n]? = some (.memo { m with freshness := .maybeDirty })) :
    ¬s.Fresh ∅ n := fun hf => (hf _ h).1.elim nofun (Set.notMem_empty n)

namespace Marks

theorem refl (A : Set NodeId) (s : Store) : Marks A s s :=
  ⟨rfl, fun _ => rfl, fun _ => .inl rfl, fun hf hn => absurd hf hn⟩

theorem edges (h : Marks A s t) : t.edges = s.edges := by rw [h.same]

theorem targets (h : Marks A s t) (j : NodeId) : t.targets j = s.targets j := by rw [h.same]; rfl

theorem due (h : Marks A s t) (hk : ¬s.Fresh ∅ k) : ¬t.Fresh ∅ k := by
  rcases h.marked k with hs | ⟨m, _, ht⟩
  · exact mt (·.congr hs.symm) hk
  · exact not_fresh_of_marked ht

theorem memoAt (h : Marks A s t) (k : NodeId) : t.memoAt k = none ↔ s.memoAt k = none := by
  rcases h.marked k with hk | ⟨m, hs, ht⟩
  · rw [memoAt_congr hk]
  · simp [memoAt_eq_some.2 hs, memoAt_eq_some.2 ht]

theorem lt_length (h : Marks A s t) (k : NodeId) : k < t.nodes.length ↔ k < s.nodes.length := by
  rw [← not_le, ← not_le, ← List.getElem?_eq_none_iff, ← List.getElem?_eq_none_iff]
  rcases h.marked k with hk | ⟨m, hs, ht⟩
  · rw [hk]
  · simp [hs, ht]

theorem markable (h : Marks A s t) (hs : Markable A s) : Markable A t where
  memo hk := mt (h.memoAt _).1 (hs.memo (h.edges ▸ hk))
  closed hj hk := hs.closed hj (h.edges ▸ hk)

theorem trans (h : Marks A s t) (h' : Marks A t u) : Marks A s u where
  same := by rw [h'.same, h.same]
  outside hk := (h'.outside hk).trans (h.outside hk)
  marked k := by
    rcases h.marked k with hs | ⟨m, hs, ht⟩
    · rw [← hs]
      exact h'.marked k
    · refine .inr ⟨m, hs, ?_⟩
      rcases h'.marked k with hu | ⟨m', hm', hu⟩
      · exact hu.trans ht
      · cases ht.symm.trans hm'
        exact hu
  told {j} hs hu k hk := by
    by_cases ht : t.Fresh ∅ j
    · exact h'.told ht hu k (h.targets j ▸ hk)
    · exact h'.due (h.told hs ht k hk)

theorem of_set (hn : s.nodes[n]? = some (.memo m)) (hA : n ∈ A)
    (h : Marks A { s with nodes := s.nodes.set n (.memo { m with freshness := .maybeDirty }) } t)
    (hreaders : ∀ k ∈ s.targets n, ¬t.Fresh ∅ k) : Marks A s t ∧ ¬t.Fresh ∅ n := by
  have hself : (s.nodes.set n (.memo { m with freshness := .maybeDirty }))[n]? =
      some (.memo { m with freshness := .maybeDirty }) :=
    List.getElem?_set_self (List.getElem?_eq_some_iff.1 hn).1
  have hne {k : NodeId} (hk : k ≠ n) :
      (s.nodes.set n (.memo { m with freshness := .maybeDirty }))[k]? = s.nodes[k]? :=
    List.getElem?_set_ne hk.symm
  have hdue : ¬t.Fresh ∅ n := h.due (not_fresh_of_marked hself)
  refine ⟨⟨h.same, fun {k} hk => ?_, fun k => ?_, fun {j} hs ht k hk => ?_⟩, hdue⟩
  · exact (h.outside hk).trans (hne fun e => hk (e ▸ hA))
  · by_cases hkn : k = n
    · subst hkn
      refine .inr ⟨m, hn, ?_⟩
      rcases h.marked k with ht | ⟨m', hm', ht⟩
      · exact ht.trans hself
      · cases hself.symm.trans hm'
        exact ht
    · rcases h.marked k with ht | ⟨m', hm', ht⟩
      · exact .inl (ht.trans (hne hkn))
      · exact .inr ⟨m', (hne hkn).symm.trans hm', ht⟩
  · by_cases hjn : j = n
    · exact hreaders k (hjn ▸ hk)
    · exact h.told (hs.congr (hne hjn)) ht k hk

end Marks

end Store

open Store

variable {A : Set NodeId} {c : Calls} {l : Log} {s t u : Store} {k n x : NodeId} {d : Nat}

/-- A notification marks the fresh readers of a source, and all that is behind them. -/
def Calls.Marks (c : Calls) : Prop :=
  ∀ ⦃A : Set NodeId⦄ ⦃x : NodeId⦄ ⦃s t : Store⦄, Markable A s → x ∈ A →
    c.notify x s = some ((), t) → Store.Marks A s t ∧ ∀ k ∈ s.targets x, ¬t.Fresh ∅ k

namespace Machine

theorem mark_marks (hc : c.Marks) (h : Markable A s) (hA : n ∈ A) (hn : s.memoAt n ≠ none)
    (ht : mark c n s = some ((), t)) : Store.Marks A s t ∧ ¬t.Fresh ∅ n := by
  obtain ⟨m, hm⟩ := Option.ne_none_iff_exists'.1 hn
  have hnode := memoAt_eq_some.1 hm
  simp only [mark, bind_apply, node?_apply, hnode, Option.bind_some] at ht
  cases hf : m.freshness with
  | clean =>
    simp only [markMemo, hf, bind_apply, setNode_apply, Option.bind_some] at ht
    have hset : Markable A
        { s with nodes := s.nodes.set n (.memo { m with freshness := .maybeDirty }) } := by
      refine ⟨fun {k j} hk => ?_, fun hj hk => h.closed hj hk⟩
      by_cases hkn : k = n
      · simp [memoAt, hkn, (List.getElem?_eq_some_iff.1 hnode).1]
      · rw [memoAt_congr (List.getElem?_set_ne (Ne.symm hkn))]
        exact h.memo hk
    obtain ⟨hmarks, hreaders⟩ := hc hset hA ht
    exact hmarks.of_set hnode hA hreaders
  | _ =>
    simp only [markMemo, hf, pure_apply, Option.some.injEq, Prod.mk.injEq, true_and] at ht
    subst ht
    exact ⟨.refl A s, fun hfresh => by simpa [hf] using (hfresh m hnode).1⟩

theorem forEach_mark_marks (hc : c.Marks) (ns : List NodeId) (h : Markable A s)
    (hns : ∀ n ∈ ns, n ∈ A ∧ s.memoAt n ≠ none) (ht : forEach (mark c) ns s = some ((), t)) :
    Store.Marks A s t ∧ ∀ n ∈ ns, ¬t.Fresh ∅ n := by
  induction ns generalizing s with
  | nil =>
    cases ht
    exact ⟨.refl A _, by simp⟩
  | cons n rest ih =>
    obtain ⟨_, u, hu, ht⟩ := bind_eq_some.1 ht
    obtain ⟨hn, hrest⟩ := List.forall_mem_cons.1 hns
    obtain ⟨hsu, hdue⟩ := mark_marks hc h hn.1 hn.2 hu
    obtain ⟨hut, hdue'⟩ := ih (hsu.markable h)
      (fun k hk => ⟨(hrest k hk).1, mt (hsu.memoAt k).1 (hrest k hk).2⟩) ht
    exact ⟨hsu.trans hut, List.forall_mem_cons.2 ⟨hut.due hdue, hdue'⟩⟩

theorem forEach_schedule_of_memos (c : Calls) (ns : List NodeId)
    (hns : ∀ n ∈ ns, s.memoAt n ≠ none) : forEach (schedule c) ns s = some ((), s) := by
  induction ns with
  | nil => rfl
  | cons n rest ih =>
    obtain ⟨hn, hrest⟩ := List.forall_mem_cons.1 hns
    obtain ⟨m, hm⟩ := Option.ne_none_iff_exists'.1 hn
    have hschedule : schedule c n s = some ((), s) := by
      simp [schedule, node?_apply, memoAt_eq_some.1 hm]
    simp [forEach, hschedule, ih hrest]

end Machine

theorem calls_marks (d : Nat) : (calls d).Marks := by
  induction d with
  | zero => exact fun A x s t _ _ ht => by cases ht
  | succ d ih =>
    intro A x s t h hx ht
    obtain ⟨_, u, hu, ht⟩ := bind_eq_some.1 ht
    cases hu
    obtain ⟨_, u, hu, ht⟩ := bind_eq_some.1 ht
    have htargets : ∀ k ∈ s.targets x, k ∈ A ∧ s.memoAt k ≠ none := fun k hk =>
      have hk := (mem_targets.1 hk).1
      ⟨h.closed hx hk, h.memo hk⟩
    obtain ⟨hmarks, hdue⟩ := forEach_mark_marks ih _ h htargets hu
    have hschedule := forEach_schedule_of_memos (s := u) (calls d) (s.targets x) fun k hk =>
      mt (hmarks.memoAt k).1 (htargets k hk).2
    cases ht.symm.trans hschedule
    exact ⟨hmarks, hdue⟩

end HotSwap
