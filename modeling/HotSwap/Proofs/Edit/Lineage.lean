import Mathlib.Data.List.Chain
import HotSwap.Proofs.Edit.Dependency
import HotSwap.Registry.Patch
/-!
# Lineages

The registrations that the versions of a module made under one id, from the first version that knows
the id to the latest. They decide which body is installed: without a signature the latest one, with a
signature the first one since which nothing changed.
-/

namespace HotSwap

open Machine

abbrev Lineage := List Registration

namespace Lineage

/-- From place `j` on all registrations carry one signature, and none changes a dependency. -/
structure UnchangedFrom (l : Lineage) (signature : String) (j : Nat) : Prop where
  bound : j < l.length
  signed : ∀ r ∈ l.drop j, r.signature = some signature
  kept : (l.drop j).IsChain fun a b => Dependencies.changed a.dependencies b.dependencies = false

/-- `k` is the component that has to be installed after all registrations of `l`. -/
def Installs (l : Lineage) (k : ComponentId) : Prop :=
  ∃ last, l.getLast? = some last ∧
    match last.signature with
    | none => k = last.component
    | some signature => ∃ j r, l[j]? = some r ∧ k = r.component ∧
        l.UnchangedFrom signature j ∧ ∀ i, l.UnchangedFrom signature i → j ≤ i

variable {l : Lineage} {n last : Registration} {signature : String} {i : Nat} {k : ComponentId}

theorem unchangedFrom_snoc_last (h : n.signature = some signature) :
    UnchangedFrom (l ++ [n]) signature l.length where
  bound := by simp
  signed := by simpa using h
  kept := by simp

theorem unchangedFrom_snoc (hl : l.getLast? = some last) (hi : i < l.length) :
    UnchangedFrom (l ++ [n]) signature i ↔ l.UnchangedFrom signature i ∧
      n.signature = some signature ∧
      Dependencies.changed last.dependencies n.dependencies = false := by
  have hd : (l ++ [n]).drop i = l.drop i ++ [n] := by
    rw [List.drop_append_of_le_length (Nat.le_of_lt hi)]
  have hlast : (l.drop i).getLast? = some last := by
    rw [List.getLast?_drop, if_neg (Nat.not_le.2 hi), hl]
  constructor
  · rintro ⟨hb, hs, hk⟩
    rw [hd] at hs hk
    obtain ⟨hk, -, hr⟩ := List.isChain_append.1 hk
    exact ⟨⟨hi, fun r hr => hs r (List.mem_append_left _ hr), hk⟩, hs n (by simp),
      hr last hlast n rfl⟩
  · rintro ⟨⟨-, hs, hk⟩, hn, hc⟩
    refine ⟨by simpa using Nat.lt_succ_of_lt hi, ?_, ?_⟩
    · rw [hd]
      intro r hr
      rcases List.mem_append.1 hr with hr | hr
      · exact hs r hr
      · rwa [List.mem_singleton.1 hr]
    · rw [hd]
      refine List.isChain_append.2 ⟨hk, by simp, ?_⟩
      intro a ha b hb
      obtain rfl : last = a := Option.some.inj (hlast.symm.trans ha)
      obtain rfl : n = b := by simpa using hb
      exact hc

theorem Installs.mem (h : l.Installs k) : ∃ r ∈ l, r.component = k := by
  obtain ⟨last, hl, h⟩ := h
  split at h
  · exact ⟨last, List.mem_of_getLast? hl, h.symm⟩
  · obtain ⟨j, r, hj, rfl, -⟩ := h
    exact ⟨r, List.mem_of_getElem? hj, rfl⟩

theorem installs_singleton (n : Registration) : Installs [n] n.component := by
  refine ⟨n, rfl, ?_⟩
  cases hs : n.signature with
  | none => rfl
  | some signature =>
    exact ⟨0, n, rfl, rfl, unchangedFrom_snoc_last (l := []) hs, fun _ _ => Nat.zero_le _⟩

theorem installs_snoc_swapped (hl : l.getLast? = some last)
    (hn : ∀ signature, n.signature = some signature → last.signature = some signature →
      Dependencies.changed last.dependencies n.dependencies = true) :
    Installs (l ++ [n]) n.component := by
  refine ⟨n, by simp, ?_⟩
  cases hs : n.signature with
  | none => rfl
  | some signature =>
    refine ⟨l.length, n, by simp, rfl, unchangedFrom_snoc_last hs, fun i hi => ?_⟩
    by_contra hlt
    have hlt : i < l.length := Nat.not_le.1 hlt
    obtain ⟨hu, -, hc⟩ := (unchangedFrom_snoc hl hlt).1 hi
    have hmem : last ∈ l.drop i := by
      have h : (l.drop i).getLast? = some last := by
        rw [List.getLast?_drop, if_neg (Nat.not_le.2 hlt), hl]
      exact List.mem_of_getLast? h
    rw [hn signature hs (hu.signed last hmem)] at hc
    cases hc

theorem installs_snoc_unchanged (h : l.Installs k) (hl : l.getLast? = some last)
    (hn : n.signature = some signature) (hs : last.signature = some signature)
    (hc : Dependencies.changed last.dependencies n.dependencies = false) :
    Installs (l ++ [n]) k := by
  obtain ⟨last', hl', h⟩ := h
  obtain rfl : last = last' := Option.some.inj (hl.symm.trans hl')
  rw [hs] at h
  obtain ⟨j, r, hj, rfl, hu, hleast⟩ := h
  refine ⟨n, by simp, ?_⟩
  rw [hn]
  refine ⟨j, r, ?_, rfl, (unchangedFrom_snoc hl hu.bound).2 ⟨hu, hn, hc⟩, fun i hi => ?_⟩
  · rw [List.getElem?_append_left hu.bound, hj]
  · rcases Nat.lt_or_ge i l.length with hlt | hge
    · exact hleast i ((unchangedFrom_snoc hl hlt).1 hi).1
    · exact Nat.le_of_lt (Nat.lt_of_lt_of_le hu.bound hge)

end Lineage

end HotSwap
