import HotSwap.Proofs.Edit.Lineage
import HotSwap.Proofs.Edit.Module
/-!
# Runs of edits

The first version of a module becomes canonical; each later one is reconciled into it. `Ledger` is
the invariant of such a run: for each id it ties the canonical registration, and what the cells of
all versions hold, to the lineage of the id.
-/

namespace HotSwap

open Machine

/-- A version of the module that was handed over, with its registry as it was then. -/
structure Version where
  registry : RegistryId
  built : Registry

/-- The registrations that the versions made under an id. -/
def lineage (vs : List Version) (id : String) : Lineage :=
  vs.filterMap fun v => v.built.components.get? id

/-- The versions before `m` do not know an id, and all from `m` on do. -/
def KnownFrom (vs : List Version) (id : String) (m : Nat) : Prop :=
  vs.map (fun v => v.built.components.get? id) =
    List.replicate m none ++ (lineage vs id).map some

/-- A program that is edited. The first version is the canonical one, the latest comes last. -/
structure Timeline where
  moment : Moment
  versions : List Version

namespace Timeline

/-- One step of a run in which no edit demands a reload. -/
inductive Step (A : Admission) : Timeline → Timeline → Prop
  | go {m m' : Moment} {vs : List Version} (h : Moment.Step A m m') : Step A ⟨m, vs⟩ ⟨m', vs⟩
  | first {s : Store} {ws : List RegistryId} {w : RegistryId} (hw : w ∈ ws) :
    Step A ⟨⟨s, ws⟩, []⟩ ⟨⟨s, ws.filter (· ≠ w)⟩, [⟨w, s.registry w⟩]⟩
  | patch {s t : Store} {ws : List RegistryId} {w : RegistryId} {v : Version} {vs : List Version}
    {report : PatchReport} (hw : w ∈ ws) (h : reconcile v.registry w s = some (report, t))
    (stay : report.mustReload = false) :
    Step A ⟨⟨s, ws⟩, v :: vs⟩ ⟨⟨t, ws.filter (· ≠ w)⟩, v :: vs ++ [⟨w, s.registry w⟩]⟩

/-- `T` is reached from a program that has not loaded the module. -/
def Reached (A : Admission) (s₀ : Store) (T : Timeline) : Prop :=
  Relation.ReflTransGen (Step A) ⟨⟨s₀, []⟩, []⟩ T

end Timeline

/-- How the canonical registration `r` of an id stands to the lineage of the id. -/
structure Lineage.Carried (s : Store) (first : Registration) (rest : Lineage) (r : Registration) :
    Prop where
  proxy : r.proxy = first.proxy
  cell : r.cell = first.cell
  apart : ∀ n ∈ rest, n.cell ≠ first.cell
  delegated : ∀ n ∈ rest, s.nodes[n.cell]? = some (.cell (some first.proxy))
  installed : ∃ k, s.nodes[first.cell]? = some (.cell (some k)) ∧ Lineage.Installs (first :: rest) k
  latest : ∃ last, (first :: rest).getLast? = some last ∧ r.signature = last.signature ∧
    Dependencies.changed r.dependencies last.dependencies = false

/-- An id is registered in the canonical registry if any version knows it. -/
inductive Lineage.Registered (s : Store) : Lineage → Option Registration → Prop
  | unknown : Registered s [] none
  | known {first r : Registration} {rest : Lineage} (h : Carried s first rest r) :
    Registered s (first :: rest) (some r)

namespace Timeline

structure Ledger (A : Admission) (owner : Ownership) (T : Timeline) : Prop where
  sound : T.moment.Sound A owner
  bound : ∀ v ∈ T.versions, v.registry < T.moment.store.registries.length
  stands : ∀ v ∈ T.versions, v.built.Stands A owner T.moment.store v.registry
  complete : ∀ v ∈ T.versions, v.registry ∉ T.moment.filling
  known : ∀ id, ∃ m, KnownFrom T.versions id m
  lines : ∀ v vs, T.versions = v :: vs → ∀ id, Lineage.Registered T.moment.store
    (lineage T.versions id) ((T.moment.store.registry v.registry).components.get? id)

end Timeline

theorem mem_lineage {vs : List Version} {id : String} {r : Registration} :
    r ∈ lineage vs id ↔ ∃ v ∈ vs, v.built.components.get? id = some r := by
  simp [lineage, List.mem_filterMap]

theorem lineage_snoc (vs : List Version) (v : Version) (id : String) :
    lineage (vs ++ [v]) id = lineage vs id ++ (v.built.components.get? id).toList := by
  simp only [lineage, List.filterMap_append, List.filterMap_cons, List.filterMap_nil]
  cases v.built.components.get? id <;> rfl

theorem KnownFrom.snoc {vs : List Version} {v : Version} {id : String} {m : Nat}
    (h : KnownFrom vs id m)
    (hv : lineage vs id ≠ [] → v.built.components.get? id ≠ none) :
    ∃ m', KnownFrom (vs ++ [v]) id m' := by
  unfold KnownFrom at *
  rw [List.map_append, h, lineage_snoc]
  cases hg : v.built.components.get? id with
  | some r => exact ⟨m, by simp [hg]⟩
  | none =>
    have hl : lineage vs id = [] := by
      by_contra hne
      exact hv hne hg
    exact ⟨m + 1, by simp [hg, hl, List.replicate_succ']⟩

namespace Lineage

variable {s t : Store} {l : Lineage} {r : Option Registration}

theorem Carried.steady {first r : Registration} {rest : Lineage} (h : Carried s first rest r)
    (hc : ∀ {n : NodeId} {k : Option ComponentId}, s.nodes[n]? = some (.cell k) →
      t.nodes[n]? = some (.cell k)) : Carried t first rest r :=
  { h with
    delegated := fun n hn => hc (h.delegated n hn)
    installed := by
      obtain ⟨k, hk, hi⟩ := h.installed
      exact ⟨k, hc hk, hi⟩ }

theorem Registered.steady (h : Registered s l r)
    (hc : ∀ {n : NodeId} {k : Option ComponentId}, s.nodes[n]? = some (.cell k) →
      t.nodes[n]? = some (.cell k)) : Registered t l r := by
  cases h with
  | unknown => exact .unknown
  | known h => exact .known (h.steady hc)

theorem Carried.start {n : Registration} (h : s.nodes[n.cell]? = some (.cell (some n.component))) :
    Carried s n [] n where
  proxy := rfl
  cell := rfl
  apart := by simp
  delegated := by simp
  installed := ⟨n.component, h, installs_singleton n⟩
  latest := ⟨n, rfl, rfl, Dependencies.changed_self _⟩

theorem Carried.needsSwap_iff {first r last n : Registration} {rest : Lineage}
    (h : Carried s first rest r) (hl : (first :: rest).getLast? = some last) :
    needsSwap r n = true ↔ ∀ signature, n.signature = some signature →
      last.signature = some signature →
        Dependencies.changed last.dependencies n.dependencies = true := by
  obtain ⟨last', hl', hs, hc⟩ := h.latest
  obtain rfl : last = last' := Option.some.inj (hl.symm.trans hl')
  unfold needsSwap
  rw [hs, Dependencies.changed_congr hc]
  cases n.signature with
  | none => simp
  | some signature =>
    simp only [ne_eq, Bool.or_eq_true, decide_eq_true_eq, Option.some.injEq, forall_eq']
    tauto

theorem Carried.snoc {first r n : Registration} {rest : Lineage} (h : Carried s first rest r)
    (hn : n.cell ≠ first.cell) (hc : s.Celled n) {f : Rewiring}
    (hf : ∀ c k, c = n.cell ∨ c ∈ (first :: rest).map Registration.cell → f c k = r.rewire n c k)
    (ht : ∀ {c : NodeId} {k : Option ComponentId}, s.nodes[c]? = some (.cell k) →
      t.nodes[c]? = some (.cell (f c k)))
    (hrest : ∀ m ∈ rest, m.cell ≠ n.cell) :
    Carried t first (rest ++ [n]) (r.patched n) where
  proxy := by rw [Registration.patched_proxy, h.proxy]
  cell := by rw [Registration.patched_cell, h.cell]
  apart m hm := by
    rcases List.mem_append.1 hm with hm | hm
    · exact h.apart m hm
    · rwa [List.mem_singleton.1 hm]
  delegated m hm := by
    rcases List.mem_append.1 hm with hm | hm
    · rw [ht (h.delegated m hm), hf _ _ (.inr (by simp; exact .inr ⟨m, hm, rfl⟩)),
        Registration.rewire_of_ne (by rw [h.cell]; exact h.apart m hm) (hrest m hm)]
    · obtain rfl := List.mem_singleton.1 hm
      obtain ⟨k, hk⟩ := hc
      rw [ht hk, hf _ _ (.inl rfl), Registration.rewire_new, h.proxy]
  installed := by
    obtain ⟨last, hl, -⟩ := h.latest
    obtain ⟨k, hk, hi⟩ := h.installed
    have hne : r.cell ≠ n.cell := by
      rw [h.cell]
      exact Ne.symm hn
    have hold := Registration.rewire_old hne (some k)
    rw [h.cell] at hold
    refine ⟨if needsSwap r n then n.component else k, ?_, ?_⟩
    · rw [ht hk, hf _ _ (.inr (by simp)), hold]
      split <;> rfl
    · split
      · exact installs_snoc_swapped hl ((h.needsSwap_iff hl).1 ‹_›)
      · have hns := mt (h.needsSwap_iff hl).2 ‹_›
        push Not at hns
        obtain ⟨signature, hsn, hsl, hc⟩ := hns
        exact installs_snoc_unchanged hi hl hsn hsl (by simpa using hc)
  latest := by
    obtain ⟨last, hl, hs, hd⟩ := h.latest
    refine ⟨n, by rw [← List.cons_append, List.getLast?_append]; rfl, ?_⟩
    unfold Registration.patched
    split
    · exact ⟨rfl, Dependencies.changed_self _⟩
    · have hns := mt (h.needsSwap_iff hl).2 ‹_›
      push Not at hns
      obtain ⟨signature, hsn, hsl, hc⟩ := hns
      exact ⟨by rw [hs, hsl, hsn], Dependencies.changed_trans hd (by simpa using hc)⟩

end Lineage

end HotSwap
