import HotSwap.Proofs.Component.Chain
import HotSwap.Proofs.Registry.Merge
/-!
# Snapshots of an edited module

What the snapshot of a canonical registry says of an id comes from two registrations of its lineage.
Signature and dependencies are those of the one whose body is installed; the name is that of the
component that the first one was made with, and no edit changes it.
-/

namespace HotSwap

open Machine

namespace Machine

variable {s t : Store} {q k : ComponentId} {r : Registration} {e : ComponentEntry} {m : Registry}
  {snap : Snapshot}

theorem target_succ {fuel : Nat} {x : Option (ComponentId × Component)}
    (h : target fuel k s = some (x, t)) : target (fuel + 1) k s = some (x, t) := by
  induction fuel generalizing k with
  | zero => cases h
  | succ fuel ih =>
    rw [target] at h ⊢
    simp only [bind_apply, component?_apply, Option.bind_some] at h ⊢
    cases hk : s.components[k]? with
    | none => rwa [hk] at h
    | some c =>
      rw [hk] at h
      cases c with
      | function f => exact h
      | proxy p =>
        simp only [bind_apply, cellContent_apply, Option.bind_some] at h ⊢
        cases hc : s.held p.cell with
        | none => rwa [hc] at h
        | some j =>
          rw [hc] at h
          exact ih h

theorem componentName_eq_some {name : String} (h : componentName k s = some (name, t)) : t = s := by
  obtain ⟨x, u, hx, hname⟩ := bind_eq_some.1 h
  obtain ⟨rfl, -⟩ := target_eq_some hx
  clear h hx
  split at hname <;> (cases hname; rfl)

theorem componentName_of_delegates {name : String} (hd : s.Delegates q k)
    (h : componentName q s = some (name, s)) : componentName k s = some (name, s) := by
  obtain ⟨p, hp, hc⟩ := hd
  have hheld : s.held p.cell = some k := by simp [Store.held, hc]
  obtain ⟨fuel, hfuel⟩ : ∃ fuel, nesting = fuel + 1 := ⟨nesting - 1, by decide⟩
  obtain ⟨x, u, hx, hname⟩ := bind_eq_some.1 h
  have hk : target nesting k s = some (x, u) := by
    rw [hfuel, target] at hx
    simp only [bind_apply, component?_apply, Option.bind_some, hp, cellContent_apply, hheld] at hx
    rw [hfuel]
    exact target_succ hx
  exact bind_eq_some.2 ⟨x, u, hk, hname⟩

theorem entryOf_eq_some : entryOf r s = some (e, t) ↔ t = s ∧ ∃ name,
    componentName r.component s = some (name, s) ∧
      e = ⟨r.id, name, r.signature, r.dependencies.map OrderedMap.keys, r.location⟩ := by
  constructor
  · intro h
    obtain ⟨name, u, hu, he⟩ := bind_eq_some.1 h
    obtain rfl := componentName_eq_some hu
    cases he
    exact ⟨rfl, name, hu, rfl⟩
  · rintro ⟨rfl, name, hn, rfl⟩
    exact bind_eq_some.2 ⟨name, t, hn, rfl⟩

theorem mapM_entryOf {rs : List Registration} {es : List ComponentEntry} :
    rs.mapM entryOf s = some (es, t) ↔
      t = s ∧ List.Forall₂ (fun r e => entryOf r s = some (e, s)) rs es := by
  induction rs generalizing es with
  | nil =>
    rw [List.mapM_nil]
    constructor
    · intro h
      cases h
      exact ⟨rfl, .nil⟩
    · rintro ⟨rfl, h⟩
      cases h
      rfl
  | cons r rs ih =>
    rw [List.mapM_cons]
    constructor
    · intro h
      obtain ⟨e, u, he, hrest⟩ := bind_eq_some.1 h
      obtain ⟨es, v, hes, hpure⟩ := bind_eq_some.1 hrest
      obtain rfl := (entryOf_eq_some.1 he).1
      cases hpure
      obtain ⟨rfl, hrs⟩ := ih.1 hes
      exact ⟨rfl, .cons he hrs⟩
    · rintro ⟨rfl, h⟩
      cases h with
      | cons he hrs => exact bind_eq_some.2 ⟨_, t, he, bind_eq_some.2 ⟨_, t, ih.2 ⟨rfl, hrs⟩, rfl⟩⟩

theorem ids_of_entries {rs : List Registration} {es : List ComponentEntry}
    (h : List.Forall₂ (fun r e => entryOf r s = some (e, s)) rs es) :
    es.map ComponentEntry.id = rs.map Registration.id ∧
      ∀ e ∈ es, ∃ r ∈ rs, entryOf r s = some (e, s) := by
  induction h with
  | nil => exact ⟨rfl, by simp⟩
  | @cons r e rs es he _ ih =>
    obtain ⟨-, _, -, rfl⟩ := entryOf_eq_some.1 he
    refine ⟨by simp [ih.1], List.forall_mem_cons.2 ⟨⟨r, List.mem_cons_self .., he⟩, fun e' he' => ?_⟩⟩
    obtain ⟨r', hr', hentry⟩ := ih.2 e' he'
    exact ⟨r', List.mem_cons_of_mem _ hr', hentry⟩

theorem snapshot_eq_some : snapshot m s = some (snap, t) ↔
    t = s ∧ snap.contexts = m.contexts.keys ∧
      List.Forall₂ (fun r e => entryOf r s = some (e, s)) m.components.values snap.components := by
  constructor
  · intro h
    obtain ⟨es, u, hes, hsnap⟩ := bind_eq_some.1 h
    cases hsnap
    obtain ⟨rfl, hes⟩ := mapM_entryOf.1 hes
    exact ⟨rfl, rfl, hes⟩
  · rintro ⟨rfl, hc, hes⟩
    refine bind_eq_some.2 ⟨_, t, mapM_entryOf.2 ⟨rfl, hes⟩, ?_⟩
    rw [← hc]
    rfl

theorem snapshot_ends : (∃ snap, snapshot m s = some (snap, s)) ↔
    ∀ r ∈ m.components.values, ∃ name, componentName r.component s = some (name, s) := by
  have ends_iff (rs : List Registration) :
      (∃ es, List.Forall₂ (fun r e => entryOf r s = some (e, s)) rs es) ↔
        ∀ r ∈ rs, ∃ name, componentName r.component s = some (name, s) := by
    induction rs with
    | nil => simp
    | cons r rs ih =>
      rw [List.forall_mem_cons, ← ih]
      constructor
      · rintro ⟨_, h⟩
        cases h with
        | cons he hes =>
          obtain ⟨-, name, hn, -⟩ := entryOf_eq_some.1 he
          exact ⟨⟨name, hn⟩, _, hes⟩
      · rintro ⟨⟨name, hn⟩, es, hes⟩
        exact ⟨_, .cons (entryOf_eq_some.2 ⟨rfl, name, hn, rfl⟩) hes⟩
  rw [← ends_iff]
  constructor
  · rintro ⟨snap, h⟩
    exact ⟨_, (snapshot_eq_some.1 h).2.2⟩
  · rintro ⟨es, hes⟩
    exact ⟨⟨es, m.contexts.keys⟩, snapshot_eq_some.2 ⟨rfl, rfl, hes⟩⟩

end Machine

/-- What some versions register, in the order in which it became known. -/
def Version.ids (keys : Registry → List String) (vs : List Version) : List String :=
  vs.foldl (fun ids v => ids ++ (keys v.built).filter (· ∉ ids)) []

theorem Version.ids_snoc (keys : Registry → List String) (vs : List Version) (v : Version) :
    ids keys (vs ++ [v]) = ids keys vs ++ (keys v.built).filter (· ∉ ids keys vs) := by
  simp [ids]

/-- The canonical registration `r` was made as `first`, says what was said of `m`, and its cell holds
the body of `m`. -/
structure Lineage.Describes (s : Store) (first m r : Registration) : Prop where
  component : r.component = first.component
  location : r.location = first.location
  cell : r.cell = first.cell
  signature : r.signature = m.signature
  dependencies : r.dependencies = m.dependencies
  installed : s.nodes[r.cell]? = some (.cell (some m.component))

namespace Lineage.Describes

variable {s t : Store} {first m n r : Registration}

theorem start (h : s.nodes[r.cell]? = some (.cell (some r.component))) : Describes s r r r :=
  ⟨rfl, rfl, rfl, rfl, rfl, h⟩

theorem steady (h : Describes s first m r)
    (hc : ∀ {n : NodeId} {k : Option ComponentId}, s.nodes[n]? = some (.cell k) →
      t.nodes[n]? = some (.cell k)) : Describes t first m r :=
  { h with installed := hc h.installed }

theorem patched (h : Describes s first m r) (hn : r.cell ≠ n.cell)
    (hc : ∀ {k : Option ComponentId}, s.nodes[r.cell]? = some (.cell k) →
      t.nodes[r.cell]? = some (.cell (r.rewire n r.cell k))) :
    Describes t first (if needsSwap r n then n else m) (r.patched n) := by
  have hinst := hc h.installed
  rw [Registration.rewire_old hn] at hinst
  unfold Registration.patched
  split
  · rw [if_pos ‹_›] at hinst
    exact ⟨h.component, h.location, h.cell, rfl, rfl, hinst⟩
  · rw [if_neg ‹_›] at hinst
    exact { h with installed := hinst }

end Lineage.Describes

namespace Timeline

structure Described (T : Timeline) : Prop where
  components : ∀ v vs, T.versions = v :: vs →
    (T.moment.store.registry v.registry).components.keys =
      Version.ids (·.components.keys) T.versions
  contexts : ∀ v vs, T.versions = v :: vs →
    (T.moment.store.registry v.registry).contexts.keys = Version.ids (·.contexts.keys) T.versions
  entries : ∀ v vs, T.versions = v :: vs → ∀ ⦃id r⦄,
    (T.moment.store.registry v.registry).components.get? id = some r → r.id = id ∧
      ∃ first m, (lineage T.versions id).head? = some first ∧ m ∈ lineage T.versions id ∧
        Lineage.Describes T.moment.store first m r

variable {A : Admission} {owner : Ownership} {s t : Store} {ws : List RegistryId} {w : RegistryId}
  {v : Version} {vs : List Version}

theorem Described.start (s : Store) : Described ⟨⟨s, []⟩, []⟩ :=
  ⟨by simp, by simp, by simp⟩

theorem Described.go {m m' : Moment} (h : Described ⟨m, vs⟩) (hl : Ledger A owner ⟨m, vs⟩)
    (hs : Moment.Step A m m') : Described ⟨m', vs⟩ := by
  obtain ⟨-, -, -, keeps⟩ := hl.sound.step hs
  have hreg (v : Version) (hv : v ∈ vs) : m'.store.registry v.registry = m.store.registry v.registry :=
    keeps.registry _ (hl.bound v hv) (hl.complete v hv)
  refine ⟨?_, ?_, ?_⟩ <;> rintro v vs rfl <;> rw [hreg v (List.mem_cons_self ..)]
  · exact h.components v vs rfl
  · exact h.contexts v vs rfl
  · intro id r hr
    obtain ⟨hid, first, n, hfirst, hn, hd⟩ := h.entries v vs rfl hr
    exact ⟨hid, first, n, hfirst, hn, hd.steady keeps.content⟩

theorem Described.first (hl : Ledger A owner ⟨⟨s, ws⟩, []⟩) (hw : w ∈ ws) :
    Described ⟨⟨s, ws.filter (· ≠ w)⟩, [⟨w, s.registry w⟩]⟩ := by
  refine ⟨?_, ?_, ?_⟩ <;> rintro v vs hv <;> obtain ⟨rfl, rfl⟩ := List.cons.inj hv
  · simp [Version.ids]
  · simp [Version.ids]
  · intro id r hr
    have hr : (s.registry w).components.get? id = some r := hr
    have hline : lineage [⟨w, s.registry w⟩] id = [r] := by
      simp only [lineage, List.filterMap_cons, hr, List.filterMap_nil]
    rw [hline]
    exact ⟨(hl.sound.stands w hw hr).named, r, r, rfl, List.mem_singleton_self _,
      .start (hl.sound.untouched w hw hr)⟩

section Handed

variable {all : Components} {id : String} {r : Registration}

theorem entry_adopted (hl : Ledger A owner ⟨⟨s, ws⟩, v :: vs⟩) (hw : w ∈ ws)
    (ha : Applied owner s v.registry w all t)
    (hold : (s.registry v.registry).components.get? id = none) (hr : all.get? id = some r) :
    r.id = id ∧ ∃ first m, (lineage (v :: vs ++ [⟨w, s.registry w⟩]) id).head? = some first ∧
      m ∈ lineage (v :: vs ++ [⟨w, s.registry w⟩]) id ∧ Lineage.Describes t first m r := by
  have hnew : (s.registry w).components.get? id = some r := by
    simpa [ha.get, Components.patchedAt, hold] using hr
  have hn := hl.sound.stands w hw hnew
  rw [lineage_snoc, (hl.line_adopted hw ha hold).1, hnew]
  refine ⟨hn.named, r, r, rfl, List.mem_singleton_self _, .start ?_⟩
  rw [ha.content (hl.sound.untouched w hw hnew), Components.rewireAll_of_notMem]
  rw [hn.owned]
  exact OrderedMap.notMem_keys.2 hold

/-- An id that was known before is described by the same first registration, and by the new version
if that one is installed. -/
theorem Described.entry_patched (h : Described ⟨⟨s, ws⟩, v :: vs⟩)
    (hl : Ledger A owner ⟨⟨s, ws⟩, v :: vs⟩) (hw : w ∈ ws)
    (ha : Applied owner s v.registry w all t) {o : Registration}
    (hold : (s.registry v.registry).components.get? id = some o) (hr : all.get? id = some r) :
    r.id = id ∧ ∃ first m, (lineage (v :: vs ++ [⟨w, s.registry w⟩]) id).head? = some first ∧
      m ∈ lineage (v :: vs ++ [⟨w, s.registry w⟩]) id ∧ Lineage.Describes t first m r := by
  have hid := OrderedMap.mem_keys.2 ⟨o, hold⟩
  have hknown := (OrderedMap.contains_iff _ _).1 (ha.known id hid)
  obtain ⟨n, hnew⟩ := OrderedMap.mem_keys.1 hknown
  obtain rfl : r = o.patched n := by
    simpa [ha.get, Components.patchedAt, hold, hnew, eq_comm] using hr
  obtain ⟨hnamed, first, m, hfirst, hm, hd⟩ := h.entries v vs rfl hold
  have hmem := List.mem_of_head? hfirst
  have hlabel : (owner o.cell).2 = id := by
    obtain ⟨x, -, hx⟩ := hl.owned hmem
    rw [hd.cell, hx]
  rw [lineage_snoc, hnew]
  refine ⟨by rwa [Registration.patched_id], first, if needsSwap o n then n else m, ?_, ?_,
    hd.patched (hd.cell ▸ hl.cell_ne hmem hw hnew) fun hk => ?_⟩
  · rw [List.head?_append, hfirst, Option.some_or]
  · split
    · exact List.mem_append_right _ (List.mem_singleton_self _)
    · exact List.mem_append_left _ hm
  · rw [ha.content hk, Components.rewireAll_known (by rwa [hlabel]) (by rwa [hlabel])
      (by rwa [hlabel])]

end Handed

theorem Described.patch {report : PatchReport} (h : Described ⟨⟨s, ws⟩, v :: vs⟩)
    (hl : Ledger A owner ⟨⟨s, ws⟩, v :: vs⟩) (hw : w ∈ ws)
    (hr : reconcile v.registry w s = some (report, t)) (stay : report.mustReload = false) :
    Described ⟨⟨t, ws.filter (· ≠ w)⟩, v :: vs ++ [⟨w, s.registry w⟩]⟩ := by
  obtain ⟨all, ha⟩ := hl.applied hw hr stay
  have hnamed : ∀ id o, (s.registry v.registry).components.get? id = some o → o.id = id :=
    fun id o ho => (h.entries v vs rfl ho).1
  obtain ⟨u, known, all', contexts, rec, ht, ext, hreport⟩ :=
    reconcile_report hl.labelled (hl.sound.stands w hw).labelled hnamed hr
  have hself : t.registry v.registry = { components := all', contexts } :=
    (registry_reconcile rec.patched.rewired.registries ht (hl.bound v (List.mem_cons_self ..)) _).trans
      (if_pos rfl)
  have knows : (s.registry w).Knows (s.registry v.registry) := by
    by_contra hn
    rw [hreport, Registry.mustReload_report.2 hn] at stay
    cases stay
  refine ⟨?_, ?_, ?_⟩ <;> rintro x xs hx <;> obtain ⟨rfl, rfl⟩ := List.cons.inj hx
  · rw [hself, ext.components, OrderedMap.additions_of_subset knows.components,
      h.components v vs rfl, Version.ids_snoc]
  · rw [hself, ext.contexts, OrderedMap.additions_of_subset knows.contexts, h.contexts v vs rfl,
      Version.ids_snoc]
  · intro id r hr
    rw [ha.canonical] at hr
    cases hold : (s.registry v.registry).components.get? id with
    | none => exact entry_adopted hl hw ha hold hr
    | some o => exact h.entry_patched hl hw ha hold hr

theorem Described.step {T U : Timeline} (h : Described T) (hl : Ledger A owner T)
    (hs : Step A T U) : Described U := by
  cases hs with
  | go hm => exact h.go hl hm
  | first hw => exact .first hl hw
  | patch hw hr stay => exact h.patch hl hw hr stay

theorem Reached.described {s₀ : Store} {T : Timeline} (h : Reached A s₀ T) : Described T := by
  induction h with
  | refl => exact .start s₀
  | tail hT hs ih =>
    obtain ⟨owner, hl⟩ := Reached.ledger hT
    exact ih.step hl hs

end Timeline

/-- The entry of an id that was first registered as `first` and last as `last`, and whose installed
body is that of `installed`; `r` is its canonical registration. -/
structure ComponentEntry.Tells (s : Store) (first installed last r : Registration)
    (e : ComponentEntry) : Prop where
  signature : e.signature = installed.signature
  dependencies : e.dependencies = installed.dependencies.map OrderedMap.keys
  location : e.location = first.location
  current : installed.signature = last.signature ∧
    Dependencies.changed installed.dependencies last.dependencies = false
  delegates : s.Delegates r.proxy installed.component
  name : componentName first.component s = some (e.name, s)
  proxy : ∀ ⦃name⦄, componentName r.proxy s = some (name, s) →
    componentName installed.component s = some (name, s) ∧
      (e.name = name ↔ componentName first.component s = componentName installed.component s)

structure Snapshot.Tells (s : Store) (m : Registry) (vs : List Version) (snap : Snapshot) : Prop where
  ids : snap.components.map ComponentEntry.id = Version.ids (·.components.keys) vs
  contexts : snap.contexts = Version.ids (·.contexts.keys) vs
  entry : ∀ e ∈ snap.components, ∃ first installed last r,
    (lineage vs e.id).head? = some first ∧ installed ∈ lineage vs e.id ∧
      (lineage vs e.id).getLast? = some last ∧ m.components.get? e.id = some r ∧
      e.Tells s first installed last r

namespace Timeline

variable {A : Admission} {owner : Ownership} {s₀ : Store} {T : Timeline} {v : Version}
  {vs : List Version}

theorem Described.tells (h : Described T) (hl : Ledger A owner T) (hv : T.versions = v :: vs)
    {id : String} {r : Registration} {e : ComponentEntry}
    (hr : (T.moment.store.registry v.registry).components.get? id = some r)
    (he : entryOf r T.moment.store = some (e, T.moment.store)) : ∃ first installed last,
      (lineage T.versions id).head? = some first ∧ installed ∈ lineage T.versions id ∧
        (lineage T.versions id).getLast? = some last ∧
        e.Tells T.moment.store first installed last r := by
  obtain ⟨⟨s, ws⟩, us⟩ := T
  subst hv
  obtain ⟨-, name, hname, rfl⟩ := entryOf_eq_some.1 he
  obtain ⟨-, first, m, hfirst, hm, hd⟩ := h.entries v vs rfl hr
  obtain ⟨first', rest, x, hline, -, hst, hc⟩ := hl.canonical hr
  obtain rfl : first' = first := by simpa [hline] using hfirst
  obtain ⟨last, hlast, hsig, hdep⟩ := hc.latest
  have hproxy : s.Delegates r.proxy m.component :=
    ⟨_, hc.proxy ▸ hst.proxy, hd.cell ▸ hd.installed⟩
  refine ⟨first', m, last, hfirst, hm, hline ▸ hlast, hd.signature,
    congrArg (Option.map OrderedMap.keys) hd.dependencies, hd.location,
    ⟨hd.signature ▸ hsig, hd.dependencies ▸ hdep⟩, hproxy, hd.component ▸ hname, fun name' hq => ?_⟩
  have hbehind := componentName_of_delegates hproxy hq
  refine ⟨hbehind, ?_⟩
  rw [← hd.component, hname, hbehind]
  simp

theorem Described.get?_of_value (h : Described T) (hv : T.versions = v :: vs) {r : Registration}
    (hr : r ∈ (T.moment.store.registry v.registry).components.values) :
    (T.moment.store.registry v.registry).components.get? r.id = some r := by
  obtain ⟨⟨id, _⟩, he, rfl⟩ := List.mem_map.1 hr
  have hget := OrderedMap.mem_entries.1 he
  rwa [(h.entries v vs hv hget).1]

theorem Described.value_of_first (h : Described T) (hl : Ledger A owner T)
    (hv : T.versions = v :: vs) {id : String} {first : Registration}
    (hfirst : (lineage T.versions id).head? = some first) :
    ∃ r ∈ (T.moment.store.registry v.registry).components.values, r.component = first.component := by
  have hline := hl.lines v vs hv id
  generalize hget : (T.moment.store.registry v.registry).components.get? id = r at hline
  generalize hlin : lineage T.versions id = l at hline hfirst
  cases hline with
  | unknown => cases hfirst
  | @known first' r rest hc =>
    obtain ⟨-, first'', m, hfirst'', -, hdesc⟩ := h.entries v vs hv hget
    obtain rfl : first'' = first := by simpa [hlin, hfirst, eq_comm] using hfirst''
    exact ⟨r, List.mem_map_of_mem (OrderedMap.mem_entries.2 hget), hdesc.component⟩

/-- A snapshot of the canonical registry lists what the versions registered, in order. Signature and
dependencies are those of the body that the proxy delegates to, and as good as the latest ones; the
name is that of the component first registered, which is the name of the proxy exactly if the body
installed has the same name. There is a snapshot as long as the components first registered have
names. -/
theorem snapshot_tells (h : T.Reached A s₀) (hv : T.versions = v :: vs) :
    (∀ snap t, snapshot (T.moment.store.registry v.registry) T.moment.store = some (snap, t) →
      t = T.moment.store ∧
        snap.Tells T.moment.store (T.moment.store.registry v.registry) T.versions) ∧
    ((∃ snap, snapshot (T.moment.store.registry v.registry) T.moment.store =
        some (snap, T.moment.store)) ↔
      ∀ id first, (lineage T.versions id).head? = some first →
        ∃ name, componentName first.component T.moment.store = some (name, T.moment.store)) := by
  obtain ⟨owner, hl⟩ := h.ledger
  have hd := h.described
  constructor
  · intro snap t hsnap
    obtain ⟨rfl, hcontexts, hentries⟩ := snapshot_eq_some.1 hsnap
    obtain ⟨hids, hmem⟩ := ids_of_entries hentries
    refine ⟨rfl, ?_, hcontexts.trans (hd.contexts v vs hv), fun e he => ?_⟩
    · rw [hids, ← hd.components v vs hv, OrderedMap.values, OrderedMap.keys, List.map_map]
      exact List.map_congr_left fun e he => (hd.entries v vs hv (OrderedMap.mem_entries.1 he)).1
    · obtain ⟨r, hr, hentry⟩ := hmem e he
      obtain ⟨-, name, -, rfl⟩ := entryOf_eq_some.1 hentry
      obtain ⟨first, installed, last, hfirst, hinst, hlast, tells⟩ :=
        hd.tells hl hv (hd.get?_of_value hv hr) hentry
      exact ⟨first, installed, last, r, hfirst, hinst, hlast, hd.get?_of_value hv hr, tells⟩
  · rw [snapshot_ends]
    constructor
    · intro ends id first hfirst
      obtain ⟨r, hr, hcomponent⟩ := hd.value_of_first hl hv hfirst
      rw [← hcomponent]
      exact ends r hr
    · intro ends r hr
      obtain ⟨-, first, m, hfirst, -, hdesc⟩ := hd.entries v vs hv (hd.get?_of_value hv hr)
      rw [hdesc.component]
      exact ends _ first hfirst

/-- The second version registers another component with another signature. -/
def renamed : Timeline :=
  start {} |>.evaluate "A" "Foo" { signature := some "1" }
    |>.evaluate "B" "Foo" { signature := some "2" }

theorem renamed_reached : renamed.Reached .all {} := by
  have first : (start {} |>.evaluate "A" "Foo" { signature := some "1" }).Reached .all {} :=
    steps_evaluate (fun _ _ => trivial) (step_first (List.mem_cons_self ..) rfl)
  exact first.trans (steps_evaluate (fun _ _ => trivial)
    (step_patch (List.mem_cons_self ..) rfl rfl))

/-- The signature is that of the new body, the name that of the old one. -/
theorem snapshot_in_renamed : renamed.Reached .all {} ∧
    ∃ snap e first installed last r,
      snapshot (renamed.moment.store.registry 0) renamed.moment.store =
        some (snap, renamed.moment.store) ∧ e ∈ snap.components ∧
      e.Tells renamed.moment.store first installed last r ∧ e.signature = some "2" ∧
      e.name = "A" ∧ componentName r.proxy renamed.moment.store =
        some ("B", renamed.moment.store) := by
  let e : ComponentEntry := ⟨"Foo", "A", some "2", some [], none⟩
  have hsnap : snapshot (renamed.moment.store.registry 0) renamed.moment.store =
      some (⟨[e], []⟩, renamed.moment.store) := rfl
  obtain ⟨-, tells⟩ := (snapshot_tells renamed_reached rfl).1 _ _ hsnap
  obtain ⟨first, installed, last, r, -, -, -, hr, he⟩ := tells.entry e (List.mem_cons_self ..)
  obtain rfl : _ = r := Option.some.inj hr
  exact ⟨renamed_reached, _, e, first, installed, last, _, hsnap, List.mem_cons_self .., he, rfl,
    rfl, rfl⟩

end Timeline

end HotSwap
