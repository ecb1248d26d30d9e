import Mathlib.Data.List.TakeWhile
import HotSwap.Proofs.Edit.Dependency
import HotSwap.Proofs.Registry.Ends
import HotSwap.Proofs.Registry.Outcome
/-!
# Reconciling when nothing is gone

What the canonical registry, the cells and the report come to when the latest registry still knows
every id. Each id is patched on its own: cells are made for one id, so that what is done for one id
never shows in another.
-/

namespace HotSwap

open Machine

def Registry.Apart (old new : Registry) : Prop :=
  ∀ ⦃id o id' n⦄, old.components.get? id = some o → new.components.get? id' = some n →
    o.cell ≠ n.cell

structure Registry.Knows (new old : Registry) : Prop where
  components : ∀ id ∈ old.components.keys, id ∈ new.components.keys
  contexts : ∀ id ∈ old.contexts.keys, id ∈ new.contexts.keys

instance (old new : Registry) : Decidable (old.Apart new) :=
  decidable_of_iff (∀ e ∈ old.components.entries, ∀ e' ∈ new.components.entries,
      e.2.cell ≠ e'.2.cell)
    ⟨fun h _ _ _ _ ho hn => h _ (OrderedMap.mem_entries.2 ho) _ (OrderedMap.mem_entries.2 hn),
      fun h _ he _ he' => h (OrderedMap.mem_entries.1 he) (OrderedMap.mem_entries.1 he')⟩

instance (old new : Registry) : Decidable (new.Knows old) :=
  decidable_of_iff ((∀ id ∈ old.components.keys, id ∈ new.components.keys) ∧
      ∀ id ∈ old.contexts.keys, id ∈ new.contexts.keys)
    ⟨fun h => ⟨h.1, h.2⟩, fun h => ⟨h.components, h.contexts⟩⟩

/-- What becomes of a registration when a new one of its id is patched in. -/
structure Registration.Merged (o n : Registration) (swap : Bool) (s t : Store)
    (all : Option Registration) : Prop where
  redirected : t.held n.cell = some o.proxy
  swapped : swap = true → t.held o.cell = some n.component ∧
    all = some { o with signature := n.signature, dependencies := n.dependencies }
  unchanged : swap = false → t.held o.cell = s.held o.cell ∧ all = some o

/-- What a reconciliation of `w` into `c` comes to if nothing is gone. -/
structure Registry.Merged (s t : Store) (c w : RegistryId) (report : PatchReport) : Prop where
  stays : report.mustReload = false
  keys : (t.registry c).components.keys = (s.registry c).components.keys ++ report.added
  contextKeys : (t.registry c).contexts.keys = (s.registry c).contexts.keys ++ report.contextsAdded
  patched : ∀ ⦃id o n⦄, (s.registry c).components.get? id = some o →
    (s.registry w).components.get? id = some n →
    o.Merged n (Components.swaps (s.registry c).components (s.registry w).components id) s t
      ((t.registry c).components.get? id)
  adopted : ∀ ⦃id n⦄, id ∉ (s.registry c).components.keys →
    (s.registry w).components.get? id = some n →
    (t.registry c).components.get? id = some n ∧ t.held n.cell = s.held n.cell
  context : ∀ ⦃id⦄, id ∈ (s.registry c).contexts.keys →
    (t.registry c).contexts.get? id = (s.registry c).contexts.get? id
  contextAdopted : ∀ ⦃id⦄, id ∉ (s.registry c).contexts.keys →
    (t.registry c).contexts.get? id = (s.registry w).contexts.get? id
  others : ∀ v, v ≠ c → t.registry v = s.registry v
  swapped : report.swapped = (s.registry c).components.keys.filter
    (Components.swaps (s.registry c).components (s.registry w).components)
  unchanged : report.unchanged = (s.registry c).components.keys.filter
    fun id => !Components.swaps (s.registry c).components (s.registry w).components id
  added : report.added = (s.registry w).components.keys.filter
    fun id => id ∉ (s.registry c).components.keys
  contextsPatched : report.contextsPatched = (s.registry c).contexts.keys
  contextsAdded : report.contextsAdded = (s.registry w).contexts.keys.filter
    fun id => id ∉ (s.registry c).contexts.keys

namespace OrderedMap

variable {κ υ : Type} [DecidableEq κ] {old new : OrderedMap κ υ}

theorem missing_of_subset (h : ∀ k ∈ old.keys, k ∈ new.keys) : new.missing old.keys = none :=
  missing_eq_none.2 fun k hk => (contains_iff new k).2 (h k hk)

theorem additions_of_subset (h : ∀ k ∈ old.keys, k ∈ new.keys) :
    old.additions new = new.keys.filter fun k => k ∉ old.keys := by
  rw [additions, if_pos (missing_of_subset h)]
  apply List.filter_congr
  intro k _
  cases hc : old.contains k with
  | true => simp [(contains_iff old k).1 hc]
  | false =>
    have hk : k ∉ old.keys := fun hk => by simp [(contains_iff old k).2 hk] at hc
    simp [hk]

end OrderedMap

theorem Registry.report_of_knows {old new : Registry} (h : new.Knows old) :
    Registry.report old new = {
      swapped := old.components.keys.filter (Components.swaps old.components new.components)
      unchanged := old.components.keys.filter
        fun id => !Components.swaps old.components new.components id
      added := new.components.keys.filter fun id => id ∉ old.components.keys
      contextsPatched := old.contexts.keys
      contextsAdded := new.contexts.keys.filter fun id => id ∉ old.contexts.keys } := by
  have hreached : Components.reached new.components old.components.keys = old.components.keys :=
    Components.reached_eq_self fun id hid => (OrderedMap.contains_iff ..).2 (h.components id hid)
  have htake : old.contexts.keys.takeWhile new.contexts.contains = old.contexts.keys :=
    List.takeWhile_eq_self_iff.2 fun id hid => (OrderedMap.contains_iff ..).2 (h.contexts id hid)
  simp only [report, hreached, htake, OrderedMap.missing_of_subset h.components,
    OrderedMap.missing_of_subset h.contexts, OrderedMap.additions_of_subset h.components,
    OrderedMap.additions_of_subset h.contexts, Option.toList_none]

theorem Registry.mustReload_report {old new : Registry} :
    (Registry.report old new).mustReload = true ↔ ¬ new.Knows old := by
  have missing_iff {υ : Type} {m : OrderedMap String υ} {ks : List String} :
      (m.missing ks).toList.isEmpty = true ↔ ∀ k ∈ ks, k ∈ m.keys := by
    rw [List.isEmpty_iff, Option.toList_eq_nil_iff, OrderedMap.missing_eq_none]
    simp only [OrderedMap.contains_iff]
  have knows_iff : new.Knows old ↔ (∀ id ∈ old.components.keys, id ∈ new.components.keys) ∧
      ∀ id ∈ old.contexts.keys, id ∈ new.contexts.keys :=
    ⟨fun h => ⟨h.components, h.contexts⟩, fun h => ⟨h.1, h.2⟩⟩
  rw [PatchReport.mustReload, ← Bool.not_and, Bool.not_eq_true', ← Bool.not_eq_true,
    Bool.and_eq_true, knows_iff]
  exact not_congr (and_congr missing_iff missing_iff)

namespace Store

variable {s t : Store} {c w : RegistryId} {report : PatchReport}

theorem Owned.merged_at {owner : Ownership} (h : s.Owned owner)
    (out : Registry.Outcome (fun n => (owner n).2) s t c w report)
    (apart : (s.registry c).Apart (s.registry w)) {id : String} {o n : Registration}
    (ho : (s.registry c).components.get? id = some o)
    (hn : (s.registry w).components.get? id = some n)
    (hid : id ∈ Components.reached (s.registry w).components (s.registry c).components.keys) :
    o.Merged n (Components.swaps (s.registry c).components (s.registry w).components id) s t
      ((t.registry c).components.get? id) := by
  have hso := (h c).components ho
  have hsn := (h w).components hn
  have hpatched : (t.registry c).components.get? id = some (o.patched n) := by
    rw [out.get, if_pos hid]
    simp [Components.patchedAt, ho, hn]
  have hheld {r : Registration} (hr : r.Owned owner s id) :
      t.held r.cell = o.rewire n r.cell (s.held r.cell) := by
    have hl := hr.labelled
    rw [out.held hr.celled]
    exact Components.rewireAll_known (by rwa [hl]) (by rwa [hl]) (by rwa [hl]) _
  rw [Components.swaps_of_get? ho hn]
  refine ⟨?_, fun hs => ⟨?_, ?_⟩, fun hs => ⟨?_, ?_⟩⟩
  · rw [hheld hsn, Registration.rewire_new]
  · rw [hheld hso, Registration.rewire_old (apart ho hn), if_pos hs]
  · rw [hpatched, Registration.patched, if_pos hs]
    rfl
  · rw [hheld hso, Registration.rewire_old (apart ho hn), hs]
    rfl
  · rw [hpatched, Registration.patched, hs]
    rfl

theorem Owned.held_of_notMem {owner : Ownership} (h : s.Owned owner)
    (out : Registry.Outcome (fun n => (owner n).2) s t c w report) {v : RegistryId} {id : String}
    {r : Registration} (hr : (s.registry v).components.get? id = some r)
    (hid : id ∉ Components.reached (s.registry w).components (s.registry c).components.keys) :
    t.held r.cell = s.held r.cell := by
  have hs := (h v).components hr
  rw [out.held hs.celled, Components.rewireAll_of_notMem (by rwa [hs.labelled])]

theorem Owned.merged {owner : Ownership} (h : s.Owned owner) (hc : c < s.registries.length)
    (apart : (s.registry c).Apart (s.registry w))
    (knows : (s.registry w).Knows (s.registry c))
    (hr : Machine.reconcile c w s = some (report, t)) : Registry.Merged s t c w report := by
  have out := h.outcome hc hr
  obtain rfl := out.report
  have hreport := Registry.report_of_knows knows
  have hreached := Components.reached_eq_self fun id hid =>
    (OrderedMap.contains_iff ..).2 (knows.components id hid)
  refine ⟨by simp [PatchReport.mustReload, hreport], out.extended.components,
    out.extended.contexts, fun id o n ho hn => ?_, fun id n hid hn => ?_, fun id hid => ?_,
    fun id hid => ?_, out.others, ?_, ?_, ?_, ?_, ?_⟩
  · exact h.merged_at out apart ho hn (hreached.symm ▸ OrderedMap.mem_keys.2 ⟨o, ho⟩)
  · refine ⟨?_, h.held_of_notMem out hn (by rwa [hreached])⟩
    rw [out.get, hreached, if_neg hid, OrderedMap.notMem_keys.1 hid,
      if_pos (OrderedMap.missing_of_subset knows.components), hn, Option.none_or]
  · obtain ⟨o, ho⟩ := OrderedMap.mem_keys.1 hid
    rw [out.extended.context, ho, Option.some_or]
  · rw [out.extended.context, OrderedMap.notMem_keys.1 hid, Option.none_or,
      if_pos (OrderedMap.missing_of_subset knows.contexts)]
  all_goals rw [hreport]

/-- If the latest registry knows every id of the canonical one then nothing has to reload, and the
outcome is that of patching each id on its own. Where no effect is there to run, the reconciliation
also ends. -/
theorem Registered.reconcile_merges (h : s.Registered) (hc : c < s.registries.length)
    (apart : (s.registry c).Apart (s.registry w))
    (knows : (s.registry w).Knows (s.registry c)) :
    (∀ report t, Machine.reconcile c w s = some (report, t) → Registry.Merged s t c w report) ∧
      (s.Inert nesting → ∃ report t, Machine.reconcile c w s = some (report, t)) := by
  obtain ⟨owner, hs⟩ := h.owned
  exact ⟨fun _ _ hr => hs.merged hc apart knows hr, fun hi => reconcile_ends hi c w⟩

end Store

namespace Timeline

/-- A canonical version, and a second one that changes nothing and adds an id. -/
def filled : Timeline :=
  start {} |>.evaluate "A" "Foo" { signature := some "1" }
    |>.act (.function "B" "B" false (constant "B").body)
    |>.create
    |>.register 1 "Foo" 2 { signature := some "1" }
    |>.register 1 "Bar" 2 {}

theorem filled_registered : filled.moment.store.Registered := by
  have first : (start {} |>.evaluate "A" "Foo" { signature := some "1" }).Reached .all {} :=
    steps_evaluate (fun _ _ => trivial) (step_first (List.mem_cons_self ..) rfl)
  refine Timeline.Reached.registered (A := .all) ?_
  exact (((first.tail (step_act _ rfl)).tail step_create).tail
    (step_register (List.mem_cons_self ..) _ _ trivial)).tail
    (step_register (List.mem_cons_self ..) _ _ trivial)

theorem filled_inert : filled.moment.store.Inert nesting where
  effects := by decide
  passing := by decide

theorem merges_in_filled : filled.moment.store.Registered ∧
    (filled.moment.store.registry 0).Apart (filled.moment.store.registry 1) ∧
    (filled.moment.store.registry 1).Knows (filled.moment.store.registry 0) ∧
    filled.moment.store.Inert nesting ∧ ∃ report t,
      reconcile 0 1 filled.moment.store = some (report, t) ∧
      Registry.Merged filled.moment.store t 0 1 report ∧ report.added = ["Bar"] ∧
      report.unchanged = ["Foo"] := by
  have apart : (filled.moment.store.registry 0).Apart (filled.moment.store.registry 1) := by decide
  have knows : (filled.moment.store.registry 1).Knows (filled.moment.store.registry 0) := by decide
  obtain ⟨merges, ends⟩ := filled_registered.reconcile_merges (c := 0) (w := 1) (by decide) apart knows
  obtain ⟨report, t, ht⟩ := ends filled_inert
  have hm := merges report t ht
  exact ⟨filled_registered, apart, knows, filled_inert, report, t, ht, hm, hm.added, hm.unchanged⟩

end Timeline

end HotSwap
