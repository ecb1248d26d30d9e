import Mathlib.Data.List.Nodup
import HotSwap.Proofs.Edit.Dependency
import HotSwap.Proofs.Graph.Basic
/-!
# Lists of readers

The table of subscriptions lists a source only if somebody reads it, and nobody twice: subscribing
and unsubscribing keep it so.
-/

namespace HotSwap

theorem OrderedMap.mem_put {κ υ : Type} [DecidableEq κ] {k : κ} {v : υ} {p : κ × υ}
    {es : List (κ × υ)} (hp : p ∈ put k v es) : p = (k, v) ∨ p ∈ es := by
  induction es with
  | nil => exact .inl (List.mem_singleton.1 hp)
  | cons e rest ih =>
    obtain ⟨l, w⟩ := e
    by_cases hl : l = k
    · subst hl
      rw [put, if_pos rfl] at hp
      exact (List.mem_cons.1 hp).imp_right (List.mem_cons_of_mem _)
    · rw [put, if_neg hl] at hp
      rcases List.mem_cons.1 hp with rfl | hp
      · exact .inr List.mem_cons_self
      · exact (ih hp).imp_right (List.mem_cons_of_mem _)

theorem OrderedMap.mem_keep {κ υ : Type} {f : υ → Option υ} {p : κ × υ} {es : List (κ × υ)}
    (hp : p ∈ keep f es) : ∃ q ∈ es, f q.2 = some p.2 := by
  induction es with
  | nil => cases hp
  | cons e rest ih =>
    obtain ⟨l, w⟩ := e
    cases hf : f w with
    | none =>
      simp only [keep, hf] at hp
      obtain ⟨q, hq, e⟩ := ih hp
      exact ⟨q, List.mem_cons_of_mem _ hq, e⟩
    | some w' =>
      simp only [keep, hf] at hp
      rcases List.mem_cons.1 hp with rfl | hp
      · exact ⟨(l, w), List.mem_cons_self, hf⟩
      · obtain ⟨q, hq, e⟩ := ih hp
        exact ⟨q, List.mem_cons_of_mem _ hq, e⟩

namespace Edges

variable {e : Edges} {n r k x : NodeId}

theorem mem_readers_subscribe_iff :
    k ∈ readers (subscribe e n r) x ↔ k ∈ readers e x ∨ x = n ∧ k = r := by
  by_cases hx : x = n
  · subst hx
    rw [readers_subscribe_self]
    split
    · grind
    · simp
  · rw [readers_subscribe_of_ne e hx]
    simp [hx]

def listing (e : Edges) (r : NodeId) : List NodeId :=
  (e.entries.filter fun p => decide (r ∈ p.2)).map Prod.fst

theorem nodup_listing (e : Edges) (r : NodeId) : (e.listing r).Nodup :=
  e.nodup.sublist (List.filter_sublist.map Prod.fst)

theorem mem_listing {r : NodeId} : n ∈ e.listing r ↔ r ∈ readers e n := by
  have hentry {rs : List NodeId} : (n, rs) ∈ e.entries ↔ e.get? n = some rs :=
    OrderedMap.mem_entries
  simp only [listing, List.mem_map, List.mem_filter, decide_eq_true_eq, readers]
  constructor
  · rintro ⟨⟨_, rs⟩, ⟨hp, hr⟩, rfl⟩
    rwa [hentry.1 hp]
  · intro hr
    cases hn : e.get? n with
    | none => simp [hn] at hr
    | some rs => exact ⟨(n, rs), ⟨hentry.2 hn, by simpa [hn] using hr⟩, rfl⟩

def Listed (e : Edges) : Prop := ∀ p ∈ e.entries, p.2 ≠ [] ∧ p.2.Nodup

theorem Listed.nodup (h : e.Listed) (x : NodeId) : (readers e x).Nodup := by
  rw [readers]
  cases hx : e.get? x with
  | none => exact List.nodup_nil
  | some rs => exact (h (x, rs) (OrderedMap.mem_entries.2 hx)).2

theorem Listed.subscribe (h : e.Listed) (n r : NodeId) : (subscribe e n r).Listed := by
  by_cases hr : r ∈ readers e n
  · rwa [subscribe_of_mem hr]
  · rw [subscribe_of_notMem hr]
    intro p hp
    rcases OrderedMap.mem_put hp with rfl | hp
    · refine ⟨by simp, ?_⟩
      rw [← List.concat_eq_append, List.nodup_concat]
      exact ⟨hr, h.nodup n⟩
    · exact h p hp

theorem Listed.unsubscribe (h : e.Listed) (r : NodeId) : (unsubscribe e r).Listed := by
  intro p hp
  obtain ⟨q, hq, hw⟩ := OrderedMap.mem_keep hp
  rw [without] at hw
  split at hw
  · cases hw
  · rename_i hne
    rw [← Option.some.inj hw]
    exact ⟨hne, (h q hq).2.filter _⟩

theorem Listed.unsubscribeAll (rs : List NodeId) : ∀ {e : Edges}, e.Listed →
    (rs.foldl Edges.unsubscribe e).Listed := by
  induction rs with
  | nil => exact id
  | cons r rs ih => exact fun h => ih (h.unsubscribe r)

end Edges

end HotSwap
