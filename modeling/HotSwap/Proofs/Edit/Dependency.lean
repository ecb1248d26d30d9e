import Mathlib.Data.List.Perm.Subperm
import HotSwap.Dependency
/-!
# Unchanged snapshots

To be unchanged is an equivalence of snapshots. So a snapshot may be compared with any one of those
that it is unchanged from, the last or the first.
-/

namespace HotSwap

namespace Binding

theorem sameNumber_self (a : UInt64) : sameNumber a a = true := by
  unfold sameNumber
  split
  · simp_all
  · simp

theorem sameNumber_comm (a b : UInt64) : sameNumber a b = sameNumber b a := by
  unfold sameNumber
  rw [Bool.or_comm, Bool.and_comm, Bool.and_comm (isZero a)]
  congr 2
  exact Bool.beq_comm

theorem sameNumber_trans {a b c : UInt64} (h : sameNumber a b = true)
    (h' : sameNumber b c = true) : sameNumber a c = true := by
  unfold sameNumber at *
  split at h
  · simp_all
  · have hb : isNaN b = false := by simp_all
    rw [hb] at h'
    split at h'
    · simp_all
    · have ha : (isNaN a || isNaN c) = false := by simp_all
      rw [ha]
      simp only [Bool.or_eq_true, Bool.and_eq_true, beq_iff_eq] at h h'
      obtain rfl | ⟨hz, hz'⟩ := h
      · simpa using h'
      · obtain rfl | ⟨-, hc⟩ := h'
        · simp [hz, hz']
        · simp [hz, hc]

theorem same_self (b : Binding) : b.same b = true := by
  cases b <;> simp [same, sameNumber_self]

theorem same_comm (a b : Binding) : a.same b = b.same a := by
  cases a <;> cases b <;> simp [same, sameNumber_comm, Bool.beq_comm]

theorem same_trans {a b c : Binding} (h : a.same b = true) (h' : b.same c = true) :
    a.same c = true := by
  cases a <;> cases b <;> simp only [same, Bool.false_eq_true] at h <;>
    cases c <;> simp only [same, Bool.false_eq_true] at h' ⊢
  case number.number.number => exact sameNumber_trans h h'
  all_goals simp_all

end Binding

theorem OrderedMap.mem_entries {κ υ : Type} [DecidableEq κ] {m : OrderedMap κ υ} {k : κ} {v : υ} :
    (k, v) ∈ m.entries ↔ m.get? k = some v := by
  obtain ⟨es, hd⟩ := m
  simp only [get?]
  induction es with
  | nil => simp [find?]
  | cons e es ih =>
    obtain ⟨l, w⟩ := e
    simp only [List.map_cons, List.nodup_cons] at hd
    rw [List.mem_cons, ih hd.2, find?]
    split
    · subst l
      have hk : find? k es ≠ some v := fun he =>
        hd.1 ((find?_isSome_iff k es).1 (by rw [he]; rfl))
      simp [hk, eq_comm]
    · simp [Ne.symm ‹_›]

namespace Dependencies

theorem kept_iff {d e : Dependencies} :
    kept d e = true ↔ ∀ k b, d.get? k = some b → ∃ c, e.get? k = some c ∧ b.same c = true := by
  simp [kept, ← OrderedMap.mem_entries, Option.any_eq_true]

theorem kept_self (d : Dependencies) : kept d d = true :=
  kept_iff.2 fun _ b h => ⟨b, h, b.same_self⟩

theorem kept_trans {d e f : Dependencies} (h : kept d e = true) (h' : kept e f = true) :
    kept d f = true := by
  rw [kept_iff] at *
  intro k a ha
  obtain ⟨b, hb, hab⟩ := h k a ha
  obtain ⟨c, hc, hbc⟩ := h' k b hb
  exact ⟨c, hc, Binding.same_trans hab hbc⟩

theorem kept_symm {d e : Dependencies} (hs : d.size = e.size) (h : kept d e = true) :
    kept e d = true := by
  rw [kept_iff] at *
  have hsub : d.keys ⊆ e.keys := by
    intro k hk
    rw [← OrderedMap.contains_iff, OrderedMap.contains, Option.isSome_iff_exists] at *
    obtain ⟨b, hb⟩ := hk
    obtain ⟨c, hc, -⟩ := h k b hb
    exact ⟨c, hc⟩
  have hlen : e.keys.length ≤ d.keys.length := by
    simpa [OrderedMap.keys, OrderedMap.size] using Nat.le_of_eq hs.symm
  have hperm := (d.nodup_keys.subperm hsub).perm_of_length_le hlen
  intro k c hc
  have hk : k ∈ d.keys := by
    rw [hperm.mem_iff, ← OrderedMap.contains_iff, OrderedMap.contains, hc]
    rfl
  rw [← OrderedMap.contains_iff, OrderedMap.contains, Option.isSome_iff_exists] at hk
  obtain ⟨b, hb⟩ := hk
  obtain ⟨c', hc', hbc⟩ := h k b hb
  obtain rfl : c = c' := Option.some.inj (hc.symm.trans hc')
  exact ⟨b, hb, by rwa [Binding.same_comm]⟩

variable {d e f : Option Dependencies}

theorem changed_self (d : Option Dependencies) : changed d d = false := by
  cases d with
  | none => rfl
  | some d => simp [changed, kept_self]

theorem changed_symm (h : changed d e = false) : changed e d = false := by
  cases d <;> cases e <;> simp only [changed, Bool.true_eq_false] at h ⊢
  simp only [Bool.or_eq_false_iff, bne_eq_false_iff_eq, Bool.not_eq_false'] at h ⊢
  exact ⟨h.1.symm, kept_symm h.1 h.2⟩

theorem changed_trans (h : changed d e = false) (h' : changed e f = false) :
    changed d f = false := by
  cases d <;> cases e <;> simp only [changed, Bool.true_eq_false] at h <;>
    cases f <;> simp only [changed, Bool.true_eq_false] at h' ⊢
  simp only [Bool.or_eq_false_iff, bne_eq_false_iff_eq, Bool.not_eq_false'] at h h' ⊢
  exact ⟨h.1.trans h'.1, kept_trans h.2 h'.2⟩

theorem changed_congr (h : changed d e = false) (f : Option Dependencies) :
    changed d f = changed e f := by
  cases hd : changed d f with
  | false => exact (changed_trans (changed_symm h) hd).symm
  | true =>
    cases he : changed e f with
    | false => exact absurd (changed_trans h he) (by simp [hd])
    | true => rfl

end Dependencies

end HotSwap
