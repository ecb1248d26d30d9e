import HotSwap.Proofs.Edit.Reconcile
import HotSwap.Proofs.Mount.Recompute
/-!
# Redirecting a cell

When a cell is redirected, the nodes that are mounted over it are pending until they are marked. The
readers that are told are those that live and are subscribed, so none of them is forgotten.
-/

namespace HotSwap

open Machine

namespace Store

variable {out : ComponentId → Json → String} {stood : Stood}
  {pending : NodeId → Prop} {past : Store → Prop} {s t : Store} {cell n : NodeId}

theorem Coherent.set_cell (h : Coherent out stood (fun _ => False) past s)
    {old : Option ComponentId} {k : ComponentId} (hcell : s.nodes[cell]? = some (.cell old))
    (hk : Occupies out stood s cell k) (ht : t = { s with
      nodes := s.nodes.set cell (.cell (some k)) }) :
    Coherent out stood (t.MountedOver cell) past t := by
  have h : Coherent out stood (t.MountedOver cell) past s :=
    h.weaken (fun _ _ _ _ => id) fun _ _ _ _ _ _ _ _ _ _ => False.elim
  subst ht
  have hst := (Rewired.set_cell hcell k).toGrows.precedes
  have hself : (s.nodes.set cell (.cell (some k)))[cell]? = some (.cell (some k)) :=
    List.getElem?_set_self (List.getElem?_eq_some_iff.1 hcell).1
  have hmemo {l : NodeId} {m : Memo}
      (hl : (s.nodes.set cell (.cell (some k)))[l]? = some (.memo m)) :
      s.nodes[l]? = some (.memo m) := by
    by_cases e : cell = l
    · subst e
      simp [hself] at hl
    · rwa [List.getElem?_set_ne e] at hl
  refine ⟨fun a ha => (h.earlier ha).trans hst, h.ordered, fun j p hp => ?_, fun c x hx => ?_,
    fun l m _ _ _ x hl hr hx => (h.template (hmemo hl) hr hx).mono hst,
    fun l m hl => Mountable.mono (h.mountable (hmemo hl)) hst,
    fun l m c _ _ x hl hr hf hx hlive => ?_⟩
  · obtain ⟨x, hx⟩ := h.proxied hp
    exact (Rewired.set_cell hcell k).cell hx
  · by_cases e : cell = c
    · subst e
      obtain rfl : some k = x := by simpa [hself] using hx
      exact ⟨k, rfl, hk.mono (fun _ _ => id) hst⟩
    · dsimp only at hx
      rw [List.getElem?_set_ne e] at hx
      obtain ⟨j, hj, ho⟩ := h.standing hx
      exact ⟨j, hj, ho.mono (fun _ _ => id) hst⟩
  · obtain ⟨v, rfl, hv⟩ := h.mount (hmemo hl) hr hf hx hlive
    refine ⟨v, rfl, hv.mono (fun _ => id) hst hv.subscribed ?_ fun _ => id⟩
    by_cases e : cell = c
    · subst e
      exact .inl ⟨m, _, _, hl, hr⟩
    · exact .inr fun hc => (List.getElem?_set_ne e).trans hc

theorem Coherent.told {ns : List NodeId} (h : Coherent out stood (· ∈ n :: ns) past s)
    (hn : ∀ m, s.nodes[n]? = some (.memo m) → m.freshness ≠ .clean) :
    Coherent out stood (· ∈ ns) past s :=
  h.weaken (fun _ _ _ _ => id) fun _ m _ _ _ hl _ hf _ _ hmem =>
    (List.mem_cons.1 hmem).resolve_left fun e => hn m (e ▸ hl) hf

theorem Coherent.mark {ns : List NodeId} {d : Nat} (h : Coherent out stood (· ∈ n :: ns) past s)
    (ht : Machine.mark (calls d) n s = some ((), t)) :
    ∃ past', (∀ a, past a → past' a) ∧ Coherent out stood (· ∈ ns) past' t := by
  have hR := (accommodating_preserves out).toAdmissible
  have hmark := (mark_within hR (calls_preserves out d) n s ht).2
  by_cases hclean : ∃ m, s.nodes[n]? = some (.memo m) ∧ m.freshness = .clean
  · obtain ⟨m, hn, hf⟩ := hclean
    simp only [Machine.mark, bind_apply, node?_apply, Option.bind_some, hn, markMemo, hf,
      setNode_apply] at ht
    -- from here on it is not clean, unless its readers have it computed anew
    obtain ⟨past₁, hpast₁, h₁⟩ := (hR.mark hn).coherent h
    have h₁ : Coherent out stood (· ∈ ns) past₁ _ := h₁.told fun m' hm' => by
      rw [List.getElem?_set_self (List.getElem?_eq_some_iff.1 hn).1] at hm'
      cases hm'
      nofun
    obtain ⟨past₂, hpast₂, h₂⟩ := ((calls_preserves out d).notify n _ ht).2.coherent h₁
    exact ⟨past₂, fun a ha => hpast₂ a (hpast₁ a ha), h₂⟩
  · exact hmark.coherent (h.told fun m hm hf => hclean ⟨m, hm, hf⟩)

theorem Coherent.mark_all {ns : List NodeId} {d : Nat} (h : Coherent out stood (· ∈ ns) past s)
    (ht : forEach (Machine.mark (calls d)) ns s = some ((), t)) :
    ∃ past', (∀ a, past a → past' a) ∧ Coherent out stood (fun _ => False) past' t := by
  induction ns generalizing s past with
  | nil =>
    cases ht
    exact ⟨past, fun _ => id, h.weaken (fun _ _ _ _ => id) (by simp)⟩
  | cons n ns ih =>
    obtain ⟨_, u, hu, ht⟩ := bind_eq_some.1 ht
    obtain ⟨past₁, hpast₁, h₁⟩ := h.mark hu
    obtain ⟨past₂, hpast₂, h₂⟩ := ih h₁ ht
    exact ⟨past₂, fun a ha => hpast₂ a (hpast₁ a ha), h₂⟩

theorem Coherent.notify (h : Coherent out stood (s.MountedOver cell) past s)
    (ht : topCalls.notify cell s = some ((), t)) :
    ∃ past', (∀ a, past a → past' a) ∧ Coherent out stood (fun _ => False) past' t := by
  have hR := (accommodating_preserves out).toAdmissible
  have hnotify : notifyNode topCalls cell s = some ((), t) :=
    ((calls_le (Nat.le_succ nesting)).notify cell s ht).1
  obtain ⟨targets, u, hu, hrest⟩ := bind_eq_some.1 hnotify
  cases hu
  obtain ⟨_, v, hv, hrest⟩ := bind_eq_some.1 hrest
  have h₁ : Coherent out stood (· ∈ (Edges.readers s.edges cell).filter s.isLive) past s := by
    refine h.weaken (fun _ _ _ _ => id) fun l m c _ _ hl hr _ hlive hmem hover => ?_
    obtain ⟨m', props, scope, hl', hr'⟩ := hover
    obtain rfl : m = m' := by simpa [hl] using hl'
    obtain rfl : c = cell := by
      rw [hr] at hr'
      cases hr'
      rfl
    exact List.mem_filter.2 ⟨hmem, decide_eq_true hlive⟩
  obtain ⟨past₂, hpast₂, h₂⟩ := h₁.mark_all hv
  obtain ⟨past₃, hpast₃, h₃⟩ := (forEach_within hR (schedule_within hR (calls_preserves out nesting))
    _ _ hrest).2.coherent h₂
  exact ⟨past₃, fun a ha => hpast₃ a (hpast₂ a ha), h₃⟩

theorem Coherent.redirect (h : Coherent out stood (fun _ => False) past s) {r : Registration}
    {k : ComponentId} (hr : s.Celled r) (hk : Occupies out stood s r.cell k)
    (ht : redirect r k s = some ((), t)) :
    ∃ past', (∀ a, past a → past' a) ∧ Coherent out stood (fun _ => False) past' t := by
  obtain ⟨old, hold⟩ := hr
  obtain ⟨_, u, hu, ht⟩ := bind_eq_some.1 ht
  cases hu
  obtain ⟨_, v, hv, ht⟩ := bind_eq_some.1 ht
  cases hv
  have hset := (h.set_cell hold hk rfl).mild (.collect _)
  refine Coherent.notify ?_ ht
  exact hset

end Store

end HotSwap
