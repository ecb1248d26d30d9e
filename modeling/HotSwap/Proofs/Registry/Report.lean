import HotSwap.Proofs.Context.Patch
/-!
# What a reconciliation reports

The report, and the order of what is registered afterwards, can be read off the two registries as
they were before: each phase walks over the old ids up to the first that is gone, and adds what is
new only if none is.
-/

namespace HotSwap

open Machine

namespace OrderedMap

variable {κ υ ω ρ : Type} [DecidableEq κ]

def missing (m : OrderedMap κ υ) (ks : List κ) : Option κ := ks.find? fun k => !m.contains k

/-- The keys of `new` that `old` lacks, if `new` lacks none of `old`. -/
def additions (old new : OrderedMap κ υ) : List κ :=
  if new.missing old.keys = none then new.keys.filter fun k => !old.contains k else []

theorem missing_eq_none {m : OrderedMap κ υ} {ks : List κ} :
    m.missing ks = none ↔ ∀ k ∈ ks, m.contains k := by
  simp [missing]

theorem missing_cons_of_contains {m : OrderedMap κ υ} {k : κ} (h : m.contains k = true)
    (ks : List κ) : m.missing (k :: ks) = m.missing ks := by
  simp [missing, h]

theorem missing_cons_of_not_contains {m : OrderedMap κ υ} {k : κ} (h : m.contains k = false)
    (ks : List κ) : m.missing (k :: ks) = some k := by
  simp [missing, h]

theorem contains_insert_of_ne (m : OrderedMap κ υ) {k l : κ} (h : l ≠ k) (v : υ) :
    (m.insert k v).contains l = m.contains l := by
  rw [contains, get?_insert_of_ne m h, contains]

theorem keys_insert_of_not_contains {m : OrderedMap κ υ} {k : κ} (h : m.contains k = false)
    (v : υ) : (m.insert k v).keys = m.keys ++ [k] := by
  have hk : k ∉ m.keys := fun hk => by simp [(contains_iff m k).2 hk] at h
  rw [keys, entries_insert_of_notMem m v hk, List.map_append, keys]
  rfl

theorem adopt_eq (note : κ → ρ → ρ) (notes : List κ → ρ → ρ) (nil : ∀ r, notes [] r = r)
    (cons : ∀ k ks r, notes (k :: ks) r = notes ks (note k r)) {es : List (κ × υ)}
    (hd : (es.map Prod.fst).Nodup) (old : OrderedMap κ υ) (r : ρ) :
    (es.foldl (fun p e => if p.1.contains e.1 then p else (p.1.insert e.1 e.2, note e.1 p.2))
        (old, r)).1.keys = old.keys ++ (es.map Prod.fst).filter (fun k => !old.contains k) ∧
      (es.foldl (fun p e => if p.1.contains e.1 then p else (p.1.insert e.1 e.2, note e.1 p.2))
        (old, r)).2 = notes ((es.map Prod.fst).filter fun k => !old.contains k) r := by
  induction es generalizing old r with
  | nil => simp [nil]
  | cons e es ih =>
    obtain ⟨k, v⟩ := e
    obtain ⟨hk, hd⟩ := List.nodup_cons.1 hd
    simp only [List.foldl_cons, List.map_cons]
    cases hc : old.contains k with
    | true =>
      rw [List.filter_cons_of_neg (by simp [hc])]
      exact ih hd old r
    | false =>
      have hrest : (es.map Prod.fst).filter (fun l => !(old.insert k v).contains l) =
          (es.map Prod.fst).filter fun l => !old.contains l := by
        apply List.filter_congr
        intro l hl
        rw [contains_insert_of_ne old (by rintro rfl; exact hk hl) v]
      obtain ⟨hkeys, hnotes⟩ := ih hd (old.insert k v) (note k r)
      rw [hrest] at hkeys hnotes
      rw [keys_insert_of_not_contains hc, List.append_assoc] at hkeys
      rw [List.filter_cons_of_pos (by simp [hc]), cons]
      exact ⟨hkeys, hnotes⟩

end OrderedMap

def Machine.Components.swaps (old new : Components) (id : String) : Bool :=
  match old.get? id, new.get? id with
  | some o, some n => n.signature = none || o.signature ≠ n.signature ||
      Dependencies.changed o.dependencies n.dependencies
  | _, _ => false

def Registry.report (old new : Registry) : PatchReport where
  swapped := (Components.reached new.components old.components.keys).filter
    (Components.swaps old.components new.components)
  unchanged := (Components.reached new.components old.components.keys).filter
    fun id => !Components.swaps old.components new.components id
  added := old.components.additions new.components
  removed := (new.components.missing old.components.keys).toList
  contextsPatched := old.contexts.keys.takeWhile new.contexts.contains
  contextsAdded := old.contexts.additions new.contexts
  contextsRemoved := (new.contexts.missing old.contexts.keys).toList

/-- What stands in a registry once another one is reconciled into it, in its order. -/
structure Registry.Extended (old new all : Registry) : Prop where
  components : all.components.keys =
    old.components.keys ++ old.components.additions new.components
  contexts : all.contexts.keys = old.contexts.keys ++ old.contexts.additions new.contexts
  context : ∀ id, all.contexts.get? id = (old.contexts.get? id).or
    (if new.contexts.missing old.contexts.keys = none then new.contexts.get? id else none)

def PatchReport.noting (r : PatchReport) (swap : Bool) (id : String) : PatchReport :=
  if swap then { r with swapped := r.swapped ++ [id] }
  else { r with unchanged := r.unchanged ++ [id] }

namespace Machine

theorem needsSwap_eq (o n : Registration) : needsSwap o n =
    (n.signature = none || o.signature ≠ n.signature ||
      Dependencies.changed o.dependencies n.dependencies) := by
  unfold needsSwap
  cases n.signature with
  | none => simp
  | some x => simp

theorem Components.swaps_of_get? {old new : Components} {id : String} {o n : Registration}
    (ho : old.get? id = some o) (hn : new.get? id = some n) :
    old.swaps new id = needsSwap o n := by
  simp only [swaps, ho, hn, needsSwap_eq]

theorem Components.swaps_insert_of_ne (old new : Components) {id l : String} (h : l ≠ id)
    (r : Registration) : Components.swaps (old.insert id r) new l = old.swaps new l := by
  simp only [swaps, OrderedMap.get?_insert_of_ne old h]

variable {s t u : Store} {report report' : PatchReport} {reload : Bool}

theorem patchComponent_report {old new : Registration} {p : Registration × PatchReport}
    (h : patchComponent old new report s = some (p, t)) :
    p = (old.patched new, report.noting (needsSwap old new) old.id) := by
  unfold patchComponent at h
  split at h
  · rename_i hs
    obtain ⟨_, u, -, h⟩ := bind_eq_some.1 h
    obtain ⟨_, v, -, h⟩ := bind_eq_some.1 h
    cases h
    simp [Registration.patched, PatchReport.noting, hs]
  · rename_i hs
    obtain ⟨_, v, -, h⟩ := bind_eq_some.1 h
    cases h
    simp [Registration.patched, PatchReport.noting, hs]

theorem patchKnown_report {old new known : Components} (ids : List String) (hd : ids.Nodup)
    (hids : ids ⊆ old.keys) (named : ∀ id o, old.get? id = some o → o.id = id)
    (h : patchKnown new ids old report s = some ((reload, known, report'), t)) :
    reload = (new.missing ids).isSome ∧ report' = { report with
      swapped := report.swapped ++ (new.reached ids).filter (old.swaps new)
      unchanged := report.unchanged ++ (new.reached ids).filter fun id => !old.swaps new id
      removed := report.removed ++ (new.missing ids).toList } := by
  induction ids generalizing old report s with
  | nil =>
    cases h
    simp [OrderedMap.missing, Components.reached]
  | cons id ids ih =>
    obtain ⟨hid, hd⟩ := List.nodup_cons.1 hd
    obtain ⟨o, ho⟩ := OrderedMap.mem_keys.1 (hids (List.mem_cons_self ..))
    rw [patchKnown, ho] at h
    cases hn : new.get? id with
    | none =>
      have hc : new.contains id = false := by rw [OrderedMap.contains, hn]; rfl
      rw [hn] at h
      cases h
      simp [OrderedMap.missing_cons_of_not_contains hc, Components.reached, hc]
    | some n =>
      have hc := OrderedMap.contains_of_get? hn
      rw [hn] at h
      obtain ⟨⟨r, mid⟩, u, hu, h⟩ := bind_eq_some.1 h
      obtain ⟨rfl, rfl⟩ := Prod.mk.inj (patchComponent_report hu)
      have hsub : ids ⊆ (old.insert id (o.patched n)).keys := by
        rw [OrderedMap.keys_insert_of_mem _ _ (OrderedMap.mem_keys.2 ⟨o, ho⟩)]
        exact List.Subset.trans (List.subset_cons_self ..) hids
      have hnamed : ∀ l r, (old.insert id (o.patched n)).get? l = some r → r.id = l := by
        intro l r hr
        rw [OrderedMap.get?_insert] at hr
        split at hr
        · cases hr
          rw [Registration.patched_id, named id o ho]
          exact Eq.symm ‹_›
        · exact named l r hr
      -- The ids that follow are looked up as before.
      have hswaps : ∀ l ∈ new.reached ids,
          Components.swaps (old.insert id (o.patched n)) new l = old.swaps new l := by
        intro l hl
        exact Components.swaps_insert_of_ne old new
          (by rintro rfl; exact hid (List.takeWhile_subset _ hl)) _
      obtain ⟨hreload, hreport⟩ := ih hd hsub hnamed h
      have hreached : new.reached (id :: ids) = id :: new.reached ids := by
        simp [Components.reached, hc]
      rw [OrderedMap.missing_cons_of_contains hc]
      refine ⟨hreload, ?_⟩
      rw [hreport, List.filter_congr hswaps,
        List.filter_congr fun l hl => congrArg (!·) (hswaps l hl), hreached,
        List.filter_cons, List.filter_cons, Components.swaps_of_get? ho hn, named id o ho]
      cases needsSwap o n <;> simp [PatchReport.noting]

theorem adoptNew_eq (old new : Components) (report : PatchReport) :
    (adoptNew new.entries old report).1.keys =
        old.keys ++ new.keys.filter (fun id => !old.contains id) ∧
      (adoptNew new.entries old report).2 = { report with
        added := report.added ++ new.keys.filter fun id => !old.contains id } :=
  OrderedMap.adopt_eq (fun id (r : PatchReport) => { r with added := r.added ++ [id] })
    (fun ids r => { r with added := r.added ++ ids }) (by simp) (by simp) new.nodup_keys old report

theorem adoptNewContexts_eq (old new : Contexts) (report : PatchReport) :
    (adoptNewContexts new.entries old report).1.keys =
        old.keys ++ new.keys.filter (fun id => !old.contains id) ∧
      (adoptNewContexts new.entries old report).2 = { report with
        contextsAdded := report.contextsAdded ++ new.keys.filter fun id => !old.contains id } :=
  OrderedMap.adopt_eq
    (fun id (r : PatchReport) => { r with contextsAdded := r.contextsAdded ++ [id] })
    (fun ids r => { r with contextsAdded := r.contextsAdded ++ ids }) (by simp) (by simp)
    new.nodup_keys old report

theorem patchComponents_report {old new all : Components}
    (named : ∀ id o, old.get? id = some o → o.id = id)
    (keys : ∀ {mid known u} {gone : Bool},
      patchKnown new old.keys old report s = some ((gone, known, mid), u) → known.keys = old.keys)
    (h : patchComponents old new report s = some ((reload, all, report'), t)) :
    all.keys = old.keys ++ old.additions new ∧ report' = { report with
      swapped := report.swapped ++ (new.reached old.keys).filter (old.swaps new)
      unchanged := report.unchanged ++ (new.reached old.keys).filter fun id => !old.swaps new id
      added := report.added ++ old.additions new
      removed := report.removed ++ (new.missing old.keys).toList } := by
  obtain ⟨⟨gone, known, mid⟩, u, hu, h⟩ := bind_eq_some.1 h
  obtain ⟨rfl, rfl⟩ := patchKnown_report old.keys old.nodup_keys (List.Subset.refl _) named hu
  have hkeys := keys hu
  dsimp only at h
  cases hm : new.missing old.keys with
  | some id =>
    rw [hm] at h
    cases h
    simp [OrderedMap.additions, hm, hkeys]
  | none =>
    have hc : ∀ id, known.contains id = old.contains id := by
      intro id
      rw [Bool.eq_iff_iff, OrderedMap.contains_iff, OrderedMap.contains_iff, hkeys]
    rw [hm] at h
    simp only [Option.isSome_none, Bool.false_eq_true, if_false, pure_apply, Option.some.injEq,
      Prod.mk.injEq] at h
    obtain ⟨⟨-, e⟩, -⟩ := h
    obtain ⟨hk, hr⟩ := adoptNew_eq known new _
    rw [e, hkeys] at hk
    rw [e] at hr
    simp only [hc] at hk hr
    simp [OrderedMap.additions, hm, hk, hr]

theorem patchKnownContexts_report {new : Contexts} {es : List (String × ContextRegistration)}
    (h : patchKnownContexts new es report s = some ((reload, report'), t)) :
    reload = (new.missing (es.map Prod.fst)).isSome ∧ report' = { report with
      contextsPatched := report.contextsPatched ++ (es.map Prod.fst).takeWhile new.contains
      contextsRemoved := report.contextsRemoved ++ (new.missing (es.map Prod.fst)).toList } := by
  induction es generalizing report s with
  | nil =>
    cases h
    simp [OrderedMap.missing]
  | cons e es ih =>
    obtain ⟨id, o⟩ := e
    rw [patchKnownContexts] at h
    cases hn : new.get? id with
    | none =>
      have hc : new.contains id = false := by rw [OrderedMap.contains, hn]; rfl
      rw [hn] at h
      cases h
      simp [OrderedMap.missing_cons_of_not_contains hc, hc]
    | some n =>
      have hc := OrderedMap.contains_of_get? hn
      rw [hn] at h
      obtain ⟨_, u, -, h⟩ := bind_eq_some.1 h
      obtain ⟨hreload, hreport⟩ := ih h
      rw [List.map_cons, OrderedMap.missing_cons_of_contains hc]
      exact ⟨hreload, by simp [hreport, hc]⟩

theorem patchContexts_report {old new all : Contexts}
    (h : patchContexts old new report s = some ((reload, all, report'), t)) :
    all.keys = old.keys ++ old.additions new ∧ report' = { report with
      contextsPatched := report.contextsPatched ++ old.keys.takeWhile new.contains
      contextsAdded := report.contextsAdded ++ old.additions new
      contextsRemoved := report.contextsRemoved ++ (new.missing old.keys).toList } ∧
    ∀ id, all.get? id = (old.get? id).or
      (if new.missing old.keys = none then new.get? id else none) := by
  have hids : old.entries.map Prod.fst = old.keys := rfl
  obtain ⟨⟨gone, mid⟩, u, hu, h⟩ := bind_eq_some.1 h
  obtain ⟨rfl, hmid⟩ := patchKnownContexts_report hu
  rw [hids] at h hmid
  dsimp only at h
  cases hm : new.missing old.keys with
  | some id =>
    rw [hm] at h
    cases h
    simp [OrderedMap.additions, hm, hmid]
  | none =>
    rw [hm] at h
    simp only [Option.isSome_none, Bool.false_eq_true, if_false, pure_apply, Option.some.injEq,
      Prod.mk.injEq] at h
    obtain ⟨⟨-, e⟩, -⟩ := h
    obtain ⟨hk, hr⟩ := adoptNewContexts_eq old new mid
    have hget := OrderedMap.get?_adopt new.entries
      (fun id (r : PatchReport) => { r with contextsAdded := r.contextsAdded ++ [id] }) old mid
    change ∀ id, (adoptNewContexts new.entries old mid).1.get? id = _ at hget
    rw [e] at hk hr hget
    dsimp only at hk hr hget
    refine ⟨by simp [OrderedMap.additions, hm, hk], ?_, fun id => ?_⟩
    · rw [hr, hmid, hm]
      simp [OrderedMap.additions, hm]
    · rw [hget, if_pos rfl]
      rfl

/-- The report of a reconciliation, and the order of what it leaves, depend on nothing but the two
registries. -/
theorem reconcile_report {label : NodeId → String} {c w : RegistryId}
    (ho : Components.Labelled label s (s.registry c).components)
    (hn : Components.Labelled label s (s.registry w).components)
    (named : ∀ id o, (s.registry c).components.get? id = some o → o.id = id)
    (h : reconcile c w s = some (report, t)) :
    ∃ u known all contexts,
      Reconciled label (s.registry c).components (s.registry w).components s known all report u ∧
        t = { u with registries := u.registries.set c { components := all, contexts } } ∧
        Registry.Extended (s.registry c) (s.registry w) { components := all, contexts } ∧
        report = Registry.report (s.registry c) (s.registry w) := by
  obtain ⟨_, _, mid, contexts, all, u, v, hctx, hcomp, rfl⟩ := reconcile_phases h
  obtain ⟨hs, -⟩ := patchContexts_eq_some accommodating_steady hctx
  obtain ⟨hkeys, rfl, hget⟩ := patchContexts_report hctx
  have ho := ho.grows hs.toGrows
  have hn := hn.grows hs.toGrows
  obtain ⟨known, rec⟩ := patchComponents_eq_some ho hn rfl hcomp
  obtain ⟨hall, hreport⟩ := patchComponents_report named (fun hk =>
    (patchKnown_eq_some _ (OrderedMap.nodup_keys _) (List.Subset.refl _) ho hn hk).1.keys) hcomp
  refine ⟨v, known, all, contexts, ⟨⟨rec.patched.keys, rec.patched.get, ?_⟩, rec.kept, rec.gone⟩,
    rfl, ⟨hall, hkeys, hget⟩, hreport.trans ?_⟩
  · exact (hs.rewired.trans rec.patched.rewired).congr fun _ _ => rfl
  · simp [Registry.report]

end Machine

end HotSwap
