import HotSwap.Proofs.Registry.Representation
/-!
# The outcome of a reconciliation

What is registered afterwards, and what every cell holds, can be read off the two registries as they
were before. Contexts have no part in what becomes of components.
-/

namespace HotSwap

open Machine

namespace OrderedMap

variable {κ υ : Type} [DecidableEq κ]

theorem ext_get? {m n : OrderedMap κ υ} (hk : m.keys = n.keys) (hg : ∀ k, m.get? k = n.get? k) :
    m = n := by
  obtain ⟨es, hd⟩ := m
  obtain ⟨es', hd'⟩ := n
  apply ext
  simp only [keys, get?] at hk hg ⊢
  induction es generalizing es' with
  | nil => exact (List.map_eq_nil_iff.1 hk.symm).symm
  | cons e es ih =>
    obtain ⟨e', es', rfl⟩ : ∃ e' rest, es' = e' :: rest := by
      cases es' with
      | nil => cases hk
      | cons e' rest => exact ⟨e', rest, rfl⟩
    obtain ⟨k, v⟩ := e
    obtain ⟨k', v'⟩ := e'
    rw [List.map_cons, List.map_cons, List.cons.injEq] at hk
    obtain ⟨rfl, hk⟩ := hk
    obtain ⟨hnew, hd⟩ := List.nodup_cons.1 hd
    obtain ⟨hnew', hd'⟩ := List.nodup_cons.1 hd'
    have hv : v = v' := by simpa [find?] using hg k
    have absent {es : List (κ × υ)} (h : k ∉ es.map Prod.fst) : find? k es = none :=
      Option.not_isSome_iff_eq_none.1 (mt (find?_isSome_iff k es).1 h)
    -- under the first key nothing else is found, under any other the rests decide
    have hrest : ∀ l, find? l es = find? l es' := by
      intro l
      by_cases hl : k = l
      · subst hl
        rw [absent hnew, absent hnew']
      · simpa [find?, hl] using hg l
    rw [hv, ih hd es' hd' hk hrest]

end OrderedMap

/-- What a reconciliation of `w` into `c` leaves, wherever it stops. -/
structure Registry.Outcome (label : NodeId → String) (s t : Store) (c w : RegistryId)
    (report : PatchReport) : Prop where
  report : report = Registry.report (s.registry c) (s.registry w)
  extended : Registry.Extended (s.registry c) (s.registry w) (t.registry c)
  get : ∀ id, (t.registry c).components.get? id =
    if id ∈ Components.reached (s.registry w).components (s.registry c).components.keys then
      Components.patchedAt (s.registry c).components (s.registry w).components id
    else ((s.registry c).components.get? id).or
      (if (s.registry w).components.missing (s.registry c).components.keys = none then
        (s.registry w).components.get? id else none)
  held : ∀ {r : Registration}, s.Celled r → t.held r.cell =
    Components.rewireAll label (s.registry c).components (s.registry w).components
      (Components.reached (s.registry w).components (s.registry c).components.keys) r.cell
      (s.held r.cell)
  grows : s.Grows t
  others : ∀ v, v ≠ c → t.registry v = s.registry v

namespace Store

variable {s t : Store} {c w : RegistryId} {report : PatchReport} {owner : Ownership}

theorem Owned.outcome (h : s.Owned owner) (hc : c < s.registries.length)
    (hr : Machine.reconcile c w s = some (report, t)) :
    Registry.Outcome (fun n => (owner n).2) s t c w report := by
  obtain ⟨u, known, all, contexts, rec, ht, ext, hreport⟩ :=
    reconcile_report (h c).labelled (h w).labelled (fun _ _ ho => ((h c).components ho).named) hr
  have hreg := registry_reconcile rec.patched.rewired.registries ht hc
  have hself : t.registry c = { components := all, contexts } := (hreg c).trans (if_pos rfl)
  have hremoved : report.removed =
      ((s.registry w).components.missing (s.registry c).components.keys).toList := by
    rw [hreport]
    rfl
  refine ⟨hreport, hself ▸ ext, fun id => ?_, fun {r} hr => ?_, ?_, fun v hv => ?_⟩
  · rw [hself]
    dsimp only
    cases hm : (s.registry w).components.missing (s.registry c).components.keys with
    | none =>
      rw [hm] at hremoved
      obtain ⟨hall, hget⟩ := rec.kept hremoved
      rw [hget, rec.patched.get, if_pos rfl, Components.reached_eq_self hall]
      split
      · obtain ⟨o, ho⟩ := OrderedMap.mem_keys.1 ‹_›
        obtain ⟨n, hn⟩ := OrderedMap.mem_keys.1 ((OrderedMap.contains_iff ..).1 (hall id ‹_›))
        simp [Components.patchedAt, ho, hn]
      · rfl
    | some gone =>
      rw [hm] at hremoved
      obtain ⟨-, rfl⟩ := rec.gone (by simp [hremoved])
      simp only [rec.patched.get, reduceCtorEq, if_false, Option.or_none]
  · rw [← rec.patched.rewired.held hr, ht]
    rfl
  · rw [ht]
    exact { rec.patched.rewired.toGrows with }
  · rw [hreg, if_neg hv]

end Store

end HotSwap
