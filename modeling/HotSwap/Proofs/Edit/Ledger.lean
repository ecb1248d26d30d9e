import HotSwap.Proofs.Edit.Timeline
/-!
# The ledger of a run

Each step of a run keeps the ledger, so it holds after every edit.
-/

namespace HotSwap

open Machine

namespace Timeline

variable {A : Admission} {owner : Ownership} {s t : Store} {ws : List RegistryId} {w : RegistryId}
  {v : Version} {vs : List Version}

theorem Ledger.start (A : Admission) (owner : Ownership) (s : Store) :
    Ledger A owner ⟨⟨s, []⟩, []⟩ where
  sound := ⟨by simp, by simp, by simp⟩
  bound := by simp
  stands := by simp
  complete := by simp
  known id := ⟨0, rfl⟩
  lines := by simp

theorem Ledger.go {m m' : Moment} (h : Ledger A owner ⟨m, vs⟩) (hs : Moment.Step A m m') :
    ∃ owner', Ledger A owner' ⟨m', vs⟩ := by
  obtain ⟨owner', ho, sound, keeps⟩ := h.sound.step hs
  refine ⟨owner', sound, fun v hv => Nat.lt_of_lt_of_le (h.bound v hv) keeps.bound,
    fun v hv id r hr => ?_, fun v hv hm => ?_, h.known, ?_⟩
  · have hst := h.stands v hv hr
    exact (hst.congr (ho _ hst.cell_lt)).grows keeps.grows
  · rcases keeps.filling _ hm with hm | hge
    · exact h.complete v hv hm
    · exact absurd (h.bound v hv) (Nat.not_lt.2 hge)
  · rintro v vs rfl id
    have hv : v ∈ v :: vs := List.mem_cons_self ..
    rw [keeps.registry _ (h.bound v hv) (h.complete v hv)]
    exact (h.lines v vs rfl id).steady keeps.content

theorem Ledger.first (h : Ledger A owner ⟨⟨s, ws⟩, []⟩) (hw : w ∈ ws) :
    Ledger A owner ⟨⟨s, ws.filter (· ≠ w)⟩, [⟨w, s.registry w⟩]⟩ where
  sound := h.sound.filter _
  bound x hx := by
    rw [List.mem_singleton.1 hx]
    exact h.sound.bound w hw
  stands x hx := by
    rw [List.mem_singleton.1 hx]
    exact h.sound.stands w hw
  complete x hx := by
    rw [List.mem_singleton.1 hx]
    simp
  known id := by
    obtain ⟨m, hm⟩ := h.known id
    exact hm.snoc fun hne => absurd rfl hne
  lines x xs hx id := by
    obtain ⟨rfl, rfl⟩ := List.cons.inj hx
    simp only [lineage, List.filterMap_cons, List.filterMap_nil]
    cases hn : (s.registry w).components.get? id with
    | none => exact .unknown
    | some n => exact .known (.start (h.sound.untouched w hw hn))

/-- The cell of a canonical registration was made for the first registration of its lineage. -/
theorem Ledger.canonical (h : Ledger A owner ⟨⟨s, ws⟩, v :: vs⟩) {id : String} {r : Registration}
    (hr : (s.registry v.registry).components.get? id = some r) :
    ∃ first rest x, lineage (v :: vs) id = first :: rest ∧ x ∈ v :: vs ∧
      first.Stands A owner s x.registry id ∧ Lineage.Carried s first rest r := by
  have hline := h.lines v vs rfl id
  simp only [hr] at hline
  generalize hl : lineage (v :: vs) id = l at hline
  cases hline with
  | @known first _ rest hc =>
    obtain ⟨x, hx, hg⟩ := mem_lineage.1 (hl ▸ List.mem_cons_self ..)
    exact ⟨first, rest, x, rfl, hx, h.stands x hx hg, hc⟩

theorem Ledger.labelled (h : Ledger A owner ⟨⟨s, ws⟩, v :: vs⟩) :
    Components.Labelled (fun n => (owner n).2) s (s.registry v.registry).components := by
  intro id r hr
  obtain ⟨first, rest, x, -, -, hst, hc⟩ := h.canonical hr
  rw [Store.Celled, hc.cell]
  exact ⟨hst.celled, congrArg Prod.snd hst.owned⟩

theorem Ledger.owned (h : Ledger A owner ⟨⟨s, ws⟩, vs⟩) {id : String} {r : Registration}
    (hr : r ∈ lineage vs id) : ∃ x ∈ vs, owner r.cell = (x.registry, id) := by
  obtain ⟨x, hx, hg⟩ := mem_lineage.1 hr
  exact ⟨x, hx, (h.stands x hx hg).owned⟩

theorem Ledger.cell_ne (h : Ledger A owner ⟨⟨s, ws⟩, vs⟩) {x : RegistryId} {id id' : String}
    {r n : Registration} (hr : r ∈ lineage vs id) (hx : x ∈ ws)
    (hn : (s.registry x).components.get? id' = some n) : r.cell ≠ n.cell := by
  intro e
  obtain ⟨y, hy, ho⟩ := h.owned hr
  rw [e, (h.sound.stands x hx hn).owned] at ho
  cases ho
  exact h.complete y hy hx

/-- What the store becomes when a registry is reconciled and nothing is gone. -/
structure Applied (owner : Ownership) (s : Store) (c w : RegistryId) (all : Components)
    (t : Store) : Prop where
  grows : s.Grows t
  content : ∀ {n : NodeId} {k : Option ComponentId}, s.nodes[n]? = some (.cell k) →
    t.nodes[n]? = some (.cell (Components.rewireAll (fun n => (owner n).2)
      (s.registry c).components (s.registry w).components (s.registry c).components.keys n k))
  bound : t.registries.length = s.registries.length
  canonical : (t.registry c).components = all
  registry : ∀ x, x ≠ c → t.registry x = s.registry x
  known : ∀ id ∈ (s.registry c).components.keys, (s.registry w).components.contains id
  get : ∀ id, all.get? id =
    (Components.patchedAt (s.registry c).components (s.registry w).components id).or
      ((s.registry w).components.get? id)

theorem Ledger.applied {report : PatchReport} (h : Ledger A owner ⟨⟨s, ws⟩, v :: vs⟩) (hw : w ∈ ws)
    (hr : reconcile v.registry w s = some (report, t)) (stay : report.mustReload = false) :
    ∃ all, Applied owner s v.registry w all t := by
  obtain ⟨u, known, all, contexts, rec, ht⟩ :=
    reconcile_eq_some h.labelled (h.sound.stands w hw).labelled hr
  obtain ⟨hall, hget⟩ := rec.kept (by simp_all [PatchReport.mustReload])
  obtain ⟨-, hknown, hu⟩ := rec.patched
  rw [Components.reached_eq_self hall] at hknown hu
  have hreg (x) : t.registry x =
      if x = v.registry then { components := all, contexts } else s.registry x := by
    rw [ht, ← Store.registry_set _ (h.bound v (List.mem_cons_self ..))]
    simp [Store.registry, hu.registries]
  refine ⟨all, ?_, ?_, ?_, ?_, fun x hx => ?_, hall, fun id => ?_⟩
  · rw [ht]
    exact { hu.toGrows with }
  · rw [ht]
    exact hu.content
  · rw [ht]
    simp [hu.registries]
  · rw [hreg, if_pos rfl]
  · rw [hreg, if_neg hx]
  · rw [hget, hknown]
    split
    · rfl
    · rename_i hid
      simp [Components.patchedAt, OrderedMap.notMem_keys.1 hid]

variable {all : Components}

theorem Ledger.sound_applied (h : Ledger A owner ⟨⟨s, ws⟩, v :: vs⟩) (hw : w ∈ ws)
    (ha : Applied owner s v.registry w all t) : Moment.Sound A owner ⟨t, ws.filter (· ≠ w)⟩ := by
  refine h.sound.carry List.filter_sublist.subset ha.grows (Nat.le_of_eq ha.bound.symm)
    (fun x hx => ha.registry x ?_) fun x hx id r hr hc => ?_
  · rintro rfl
    exact h.complete v (List.mem_cons_self ..) (List.mem_filter.1 hx).1
  · obtain ⟨hxs, hne⟩ := List.mem_filter.1 hx
    rw [ha.content hc, Components.rewireAll_of_ne]
    · intro o ho e
      obtain ⟨first, rest, -, hl, -, -, hc⟩ := h.canonical ho
      exact h.cell_ne (hl ▸ List.mem_cons_self ..) hxs hr (hc.cell.symm.trans e.symm)
    · intro n hn e
      have hnw := (h.sound.stands w hw hn).owned
      rw [← e, (h.sound.stands x hxs hr).owned] at hnw
      exact of_decide_eq_true hne (congrArg Prod.fst hnw)

theorem Ledger.line_adopted (h : Ledger A owner ⟨⟨s, ws⟩, v :: vs⟩) (hw : w ∈ ws)
    (ha : Applied owner s v.registry w all t) {id : String}
    (hold : (s.registry v.registry).components.get? id = none) :
    lineage (v :: vs) id = [] ∧ Lineage.Registered t
      ((s.registry w).components.get? id).toList (all.get? id) := by
  have hline := h.lines v vs rfl id
  dsimp only at hline
  rw [hold] at hline
  generalize lineage (v :: vs) id = l at hline
  cases hline
  refine ⟨rfl, ?_⟩
  rw [ha.get, Components.patchedAt, hold]
  dsimp only
  rw [Option.none_or]
  cases hnew : (s.registry w).components.get? id with
  | none => exact .unknown
  | some n =>
    refine .known (.start ?_)
    rw [ha.content (h.sound.untouched w hw hnew), Components.rewireAll_of_notMem]
    rw [(h.sound.stands w hw hnew).owned]
    exact OrderedMap.notMem_keys.2 hold

theorem Ledger.line_patched (h : Ledger A owner ⟨⟨s, ws⟩, v :: vs⟩) (hw : w ∈ ws)
    (ha : Applied owner s v.registry w all t) {id : String} {r : Registration}
    (hold : (s.registry v.registry).components.get? id = some r) :
    ∃ n, (s.registry w).components.get? id = some n ∧ Lineage.Registered t
      (lineage (v :: vs) id ++ [n]) (all.get? id) := by
  have hid := OrderedMap.mem_keys.2 ⟨r, hold⟩
  obtain ⟨n, hnew⟩ := OrderedMap.mem_keys.1 ((OrderedMap.contains_iff _ _).1 (ha.known id hid))
  obtain ⟨first, rest, x, hl, -, -, hc⟩ := h.canonical hold
  have hn := h.sound.stands w hw hnew
  have hne {m} (hm : m ∈ first :: rest) : m.cell ≠ n.cell := h.cell_ne (hl ▸ hm) hw hnew
  refine ⟨n, hnew, ?_⟩
  rw [ha.get, Components.patchedAt, hold, hnew, hl]
  refine .known (hc.snoc (hne (List.mem_cons_self ..)).symm hn.celled ?_ ha.content
    fun m hm => hne (List.mem_cons_of_mem _ hm))
  intro c k hck
  have hlabel : (owner c).2 = id := by
    rcases hck with rfl | hck
    · rw [hn.owned]
    · obtain ⟨m, hm, rfl⟩ := List.mem_map.1 hck
      obtain ⟨y, -, ho⟩ := h.owned (hl ▸ hm)
      rw [ho]
  exact Components.rewireAll_known (by rwa [hlabel]) (by rwa [hlabel]) (by rwa [hlabel]) k

theorem Ledger.patch {report : PatchReport} (h : Ledger A owner ⟨⟨s, ws⟩, v :: vs⟩) (hw : w ∈ ws)
    (hr : reconcile v.registry w s = some (report, t)) (stay : report.mustReload = false) :
    Ledger A owner ⟨⟨t, ws.filter (· ≠ w)⟩, v :: vs ++ [⟨w, s.registry w⟩]⟩ := by
  obtain ⟨all, ha⟩ := h.applied hw hr stay
  have hsnoc {p : Version → Prop} (hold : ∀ x ∈ v :: vs, p x) (hnew : p ⟨w, s.registry w⟩) :
      ∀ x ∈ v :: vs ++ [⟨w, s.registry w⟩], p x := by
    intro x hx
    rcases List.mem_append.1 hx with hx | hx
    · exact hold x hx
    · rwa [List.mem_singleton.1 hx]
  refine ⟨h.sound_applied hw ha, hsnoc ?_ ?_, hsnoc ?_ ?_, hsnoc ?_ ?_, fun id => ?_,
    fun x xs hxs id => ?_⟩
  · intro x hx
    rw [ha.bound]
    exact h.bound x hx
  · rw [ha.bound]
    exact h.sound.bound w hw
  · exact fun x hx => (h.stands x hx).grows ha.grows
  · exact (h.sound.stands w hw).grows ha.grows
  · exact fun x hx hm => h.complete x hx (List.mem_filter.1 hm).1
  · simp
  · obtain ⟨m, hm⟩ := h.known id
    refine hm.snoc fun hne => ?_
    cases hold : (s.registry v.registry).components.get? id with
    | none => exact absurd (h.line_adopted hw ha hold).1 hne
    | some r =>
      obtain ⟨n, hn, -⟩ := h.line_patched hw ha hold
      simp [hn]
  · obtain ⟨rfl, rfl⟩ := List.cons.inj hxs
    rw [lineage_snoc, ha.canonical]
    cases hold : (s.registry v.registry).components.get? id with
    | none =>
      obtain ⟨hl, hline⟩ := h.line_adopted hw ha hold
      rwa [hl, List.nil_append]
    | some r =>
      obtain ⟨n, hn, hline⟩ := h.line_patched hw ha hold
      rwa [hn]

theorem Ledger.swapped (h : Ledger A owner ⟨⟨s, ws⟩, v :: vs⟩) (hw : w ∈ ws)
    (ha : Applied owner s v.registry w all t) {id : String} {o n : Registration}
    (ho : (s.registry v.registry).components.get? id = some o)
    (hn : (s.registry w).components.get? id = some n) (hs : needsSwap o n = true) :
    t.nodes[o.cell]? = some (.cell (some n.component)) := by
  obtain ⟨first, rest, x, hl, -, hst, hc⟩ := h.canonical ho
  have hlabel : (owner o.cell).2 = id := by rw [hc.cell, hst.owned]
  have hne : o.cell ≠ n.cell := hc.cell ▸ h.cell_ne (hl ▸ List.mem_cons_self ..) hw hn
  obtain ⟨k, hk⟩ := hst.celled
  rw [ha.content (hc.cell ▸ hk), Components.rewireAll_known
    (by rw [hlabel]; exact OrderedMap.mem_keys.2 ⟨o, ho⟩) (by rwa [hlabel]) (by rwa [hlabel]),
    Registration.rewire_old hne, if_pos hs]

theorem Ledger.step {T U : Timeline} (h : Ledger A owner T) (hs : Step A T U) :
    ∃ owner', Ledger A owner' U := by
  cases hs with
  | go hm => exact h.go hm
  | first hw => exact ⟨owner, h.first hw⟩
  | patch hw hr stay => exact ⟨owner, h.patch hw hr stay⟩

theorem Ledger.grows {T U : Timeline} (h : Ledger A owner T) (hs : Step A T U) :
    T.moment.store.Grows U.moment.store := by
  cases hs with
  | go hm =>
    obtain ⟨_, -, -, keeps⟩ := h.sound.step hm
    exact keeps.grows
  | first hw => exact .refl _
  | patch hw hr stay =>
    obtain ⟨_, ha⟩ := h.applied hw hr stay
    exact ha.grows

theorem Ledger.run {T U : Timeline} (h : Ledger A owner T)
    (hs : Relation.ReflTransGen (Step A) T U) :
    T.moment.store.Grows U.moment.store ∧ ∃ owner', Ledger A owner' U := by
  induction hs with
  | refl => exact ⟨.refl _, owner, h⟩
  | tail _ hs ih =>
    obtain ⟨grows, owner', ih⟩ := ih
    exact ⟨grows.trans (ih.grows hs), ih.step hs⟩

theorem Reached.ledger {s₀ : Store} {T : Timeline} (h : Reached A s₀ T) :
    ∃ owner, Ledger A owner T := ((Ledger.start A (fun _ => (0, "")) s₀).run h).2

end Timeline

/-- The store after a computation; without an answer, the store before it. -/
def Store.after (s : Store) (m : Machine α) : Store := ((m s).map Prod.snd).getD s

theorem Store.eq_after {s : Store} {m : Machine α} (h : (m s).isSome) :
    ∃ a, m s = some (a, s.after m) := by
  obtain ⟨⟨a, t⟩, ht⟩ := Option.isSome_iff_exists.1 h
  exact ⟨a, by simp [Store.after, ht]⟩

namespace Timeline

def start (s : Store) : Timeline := ⟨⟨s, []⟩, []⟩

def act (T : Timeline) (a : Action) : Timeline :=
  ⟨⟨T.moment.store.after a.run, T.moment.filling⟩, T.versions⟩

def create (T : Timeline) : Timeline :=
  ⟨⟨T.moment.store.after (addRegistry {}),
    T.moment.store.registries.length :: T.moment.filling⟩, T.versions⟩

def register (T : Timeline) (w : RegistryId) (id : String) (k : ComponentId)
    (o : RegistrationOptions) : Timeline :=
  ⟨⟨T.moment.store.after (Machine.register w id k o), T.moment.filling⟩, T.versions⟩

/-- The first version becomes canonical, a later one is reconciled into it. -/
def handOver (T : Timeline) (w : RegistryId) : Timeline :=
  ⟨⟨match T.versions with
    | [] => T.moment.store
    | v :: _ => T.moment.store.after (reconcile v.registry w),
    T.moment.filling.filter (· ≠ w)⟩, T.versions ++ [⟨w, T.moment.store.registry w⟩]⟩

variable {A : Admission} {T : Timeline} {w : RegistryId}

theorem step_act (a : Action) (ha : (a.run T.moment.store).isSome) : Step A T (T.act a) := by
  obtain ⟨_, ht⟩ := Store.eq_after ha
  exact .go (.act a ht)

theorem step_create : Step A T T.create := .go (.create rfl)

theorem step_register (hw : w ∈ T.moment.filling) (id : String) {k : ComponentId}
    (o : RegistrationOptions) (hA : A.admits T.moment.store k) : Step A T (T.register w id k o) :=
  .go (.register id o hw hA rfl)

theorem step_first (hw : w ∈ T.moment.filling) (hv : T.versions = []) :
    Step A T (T.handOver w) := by
  obtain ⟨⟨s, ws⟩, vs⟩ := T
  subst hv
  exact .first hw

theorem step_patch (hw : w ∈ T.moment.filling) {v : Version} {vs : List Version}
    (hv : T.versions = v :: vs)
    (hr : (reconcile v.registry w T.moment.store).any fun p => !p.1.mustReload) :
    Step A T (T.handOver w) := by
  obtain ⟨⟨s, ws⟩, vs'⟩ := T
  subst hv
  obtain ⟨⟨report, t⟩, ht, stay⟩ := (Option.any_eq_true ..).1 hr
  have e : s.after (reconcile v.registry w) = t := by simp [Store.after, ht]
  simp only [handOver, e]
  exact .patch hw ht (by simpa using stay)

def constant (text : String) : FunctionComponent where
  name := text
  title := text
  dev := false
  properties := .empty
  body := .text (.literal (.string text))

def evaluate (T : Timeline) (text id : String) (o : RegistrationOptions) : Timeline :=
  let w := T.moment.store.registries.length
  T.act (.function text text false (constant text).body)
    |>.create
    |>.register w id T.moment.store.components.length o
    |>.handOver w

/-- Two versions that register different components under one id and one signature. -/
def twoVersions : Timeline :=
  start {} |>.evaluate "A" "Foo" { signature := some "1" }
    |>.evaluate "B" "Foo" { signature := some "1" }

theorem steps_evaluate {text id : String} {o : RegistrationOptions}
    (hA : ∀ s, s.components[T.moment.store.components.length]? = some (.function (constant text)) →
      A.admits s T.moment.store.components.length)
    (hand : Step A (T.act (.function text text false (constant text).body)
        |>.create
        |>.register T.moment.store.registries.length id T.moment.store.components.length o)
      (T.evaluate text id o)) : Relation.ReflTransGen (Step A) T (T.evaluate text id o) := by
  have hk := hA (T.act (.function text text false (constant text).body)).create.moment.store
    List.getElem?_concat_length
  exact .head (step_act _ rfl) (.head step_create
    (.head (step_register (List.mem_cons_self ..) id o hk) (.single hand)))

theorem twoVersions_reached
    (hA : ∀ s k text, s.components[k]? = some (.function (constant text)) → A.admits s k) :
    twoVersions.Reached A {} := by
  have first : (start {} |>.evaluate "A" "Foo" { signature := some "1" }).Reached A {} :=
    steps_evaluate (fun s => hA s _ _) (step_first (List.mem_cons_self ..) rfl)
  exact first.trans (steps_evaluate (fun s => hA s _ _) (step_patch (List.mem_cons_self ..) rfl rfl))

end Timeline

end HotSwap
