import HotSwap.Proofs.Edit.Ledger
/-!
# Which body is installed

After any run of edits, whatever the program does in between, the cell of an id holds the body that
its lineage says: decisions are made against metadata that is adopted only on a swap, and still come
out as if each version had been compared with the one right before it.
-/

namespace HotSwap

open Machine

namespace Timeline

/-- The versions know the id from some version on, the canonical registration carries the metadata
of the latest one, and its cell holds what the lineage installs. -/
theorem installed_after_edits {A : Admission} {s₀ : Store} {T : Timeline} (h : T.Reached A s₀)
    {v x : Version} {vs : List Version} (hv : T.versions = v :: vs) (hx : x ∈ T.versions)
    {id : String} {n : Registration} (hn : x.built.components.get? id = some n) :
    ∃ m r k last, KnownFrom T.versions id m ∧
      (T.moment.store.registry v.registry).components.get? id = some r ∧
      T.moment.store.nodes[r.cell]? = some (.cell (some k)) ∧
      (lineage T.versions id).Installs k ∧
      (lineage T.versions id).getLast? = some last ∧
      r.signature = last.signature ∧
      Dependencies.changed r.dependencies last.dependencies = false := by
  obtain ⟨owner, h⟩ := h.ledger
  obtain ⟨m, hm⟩ := h.known id
  have hmem : n ∈ lineage T.versions id := mem_lineage.2 ⟨x, hx, hn⟩
  have hline := h.lines v vs hv id
  generalize hr : (T.moment.store.registry v.registry).components.get? id = r at hline
  generalize hl : lineage T.versions id = l at hline hmem
  cases hline with
  | unknown => cases hmem
  | @known first r rest hc =>
    obtain ⟨k, hk, hi⟩ := hc.installed
    obtain ⟨last, hlast, hs, hd⟩ := hc.latest
    exact ⟨m, r, k, last, hm, rfl, by rwa [hc.cell], hi, hlast, hs, hd⟩

/-- A body that is registered twice with one signature: the first component stays installed. -/
theorem installed_in_twoVersions :
    twoVersions.Reached .all {} ∧ ∃ r k,
      (twoVersions.moment.store.registry 0).components.get? "Foo" = some r ∧
      twoVersions.moment.store.nodes[r.cell]? = some (.cell (some k)) ∧
      (lineage twoVersions.versions "Foo").Installs k := by
  have h : twoVersions.Reached .all {} := twoVersions_reached fun _ _ _ _ => trivial
  obtain ⟨m, r, k, last, -, hr, hk, hi, -⟩ :=
    installed_after_edits h rfl (List.mem_cons_self ..) (show OrderedMap.get? _ "Foo" = some _ from rfl)
  exact ⟨h, r, k, hr, hk, hi⟩

end Timeline

end HotSwap
