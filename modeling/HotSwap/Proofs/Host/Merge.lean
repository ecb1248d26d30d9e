import HotSwap.Proofs.Host.Slots
/-!
# Patching the latest registry

A host patches whatever is latest into what is canonical, also if that is gone in part, and also if
it did so before. Then the canonical registry may share cells with the latest, which are those that
it adopted.
-/

namespace HotSwap

open Machine

/-- What the store becomes when the latest registry is patched into the canonical one, whether or not
something is gone. -/
structure Merged (owner : Ownership) (s : Store) (c l : RegistryId) (all : Components) (t : Store) :
    Prop where
  grows : s.Grows t
  content : ∀ {n : NodeId} {k : Option ComponentId}, s.nodes[n]? = some (.cell k) →
    t.nodes[n]? = some (.cell (Components.rewireAll (fun n => (owner n).2)
      (s.registry c).components (s.registry l).components
      (Components.reached (s.registry l).components (s.registry c).components.keys) n k))
  bound : t.registries.length = s.registries.length
  canonical : (t.registry c).components = all
  registry : ∀ x, x ≠ c → t.registry x = s.registry x
  data : t.data = s.data
  old : ∀ ⦃id o⦄, (s.registry c).components.get? id = some o → all.get? id =
    if id ∈ Components.reached (s.registry l).components (s.registry c).components.keys then
      Components.patchedAt (s.registry c).components (s.registry l).components id
    else some o
  new : ∀ ⦃id⦄, (s.registry c).components.get? id = none → all.get? id = none ∨
    all.get? id = (s.registry l).components.get? id
  again : ∀ id ∈ Components.reached (s.registry l).components all.keys,
    id ∈ (s.registry c).components.keys →
      id ∈ Components.reached (s.registry l).components (s.registry c).components.keys
  whole : ∀ ⦃id⦄, (s.registry c).components.get? id = none → all.get? id ≠ none →
    ∀ x ∈ (s.registry c).components.keys, (s.registry l).components.contains x

theorem Components.mem_reached {m : Components} {ids : List String} {id : String}
    (h : id ∈ Components.reached m ids) : id ∈ ids ∧ ∃ r, m.get? id = some r :=
  ⟨List.takeWhile_subset _ h, OrderedMap.mem_keys.1
    ((OrderedMap.contains_iff _ _).1 (List.all_eq_true.1 List.all_takeWhile id h))⟩

variable {owner : Ownership} {s t : Store} {ws : List RegistryId} {c l : RegistryId}
  {all : Components}

theorem Moment.HandedOver.merged (h : Moment.HandedOver owner ⟨s, ws⟩ c l) (hne : c ≠ l)
    {report : PatchReport} (hr : reconcile c l s = some (report, t)) :
    ∃ all, Merged owner s c l all t ∧ t.hosts = s.hosts := by
  obtain ⟨u, known, all, contexts, rec, rfl⟩ :=
    reconcile_eq_some h.labelled (h.stands hne).labelled hr
  obtain ⟨hkeys, hknown, hu⟩ := rec.patched
  have hreg (x) : (((u.registries.set c { components := all, contexts })[x]?).getD {}) =
      if x = c then { components := all, contexts } else s.registry x := by
    rw [hu.registries, Store.registry_set _ h.canonical_bound]
  have hsame {id} (hc : (s.registry c).components.get? id = none) : known.get? id = none := by
    rw [hknown, hc, if_neg]
    exact fun hm => OrderedMap.notMem_keys.2 hc (Components.mem_reached hm).1
  refine ⟨all, ⟨{ hu.toGrows with }, hu.content, by simp [hu.registries], ?_, fun x hx => ?_,
    hu.data, fun id o ho => ?_, fun id hc => ?_, fun id hid hc => ?_,
    fun id hc hall => ?_⟩, hu.hosts⟩
  · exact congrArg Registry.components ((hreg c).trans (if_pos rfl))
  · exact (hreg x).trans (if_neg hx)
  · have hold : all.get? id = known.get? id := by
      by_cases hrem : report.removed = []
      · rw [(rec.kept hrem).2, hknown]
        split
        · cases hn : (s.registry l).components.get? id with
          | none => simp [Components.patchedAt, ho, hn]
          | some n => simp [Components.patchedAt, ho, hn]
        · rw [ho, Option.some_or]
      · rw [(rec.gone hrem).2]
    rw [hold, hknown, ho]
  · by_cases hrem : report.removed = []
    · rw [(rec.kept hrem).2, hsame hc, Option.none_or]
      exact .inr rfl
    · rw [(rec.gone hrem).2, hsame hc]
      exact .inl rfl
  · by_cases hrem : report.removed = []
    · rwa [Components.reached_eq_self (rec.kept hrem).1]
    · rwa [(rec.gone hrem).2, hkeys] at hid
  · by_cases hrem : report.removed = []
    · exact (rec.kept hrem).1
    · rw [(rec.gone hrem).2, hsame hc] at hall
      exact absurd rfl hall

namespace Merged

theorem attends {h : HostId} {d : DataId} {u : Store} (hm : Merged owner s c l all t)
    (a : t.Attends h d u) : Merged owner s c l all u where
  grows := hm.grows.trans a.grows
  content hn := a.nodes ▸ hm.content hn
  bound := (congrArg List.length a.registries).trans hm.bound
  canonical := by simpa only [Store.registry, a.registries] using hm.canonical
  registry x hx := by simpa only [Store.registry, a.registries] using hm.registry x hx
  data := a.data.trans hm.data
  old := hm.old
  new := hm.new
  again := hm.again
  whole := hm.whole

theorem content_patched (hm : Merged owner s c l all t) {id : String} {o n : Registration}
    (hid : id ∈ Components.reached (s.registry l).components (s.registry c).components.keys)
    (ho : (s.registry c).components.get? id = some o)
    (hn : (s.registry l).components.get? id = some n) {x : NodeId} (hx : (owner x).2 = id)
    {k : Option ComponentId} (hk : s.nodes[x]? = some (.cell k)) :
    t.nodes[x]? = some (.cell (o.rewire n x k)) := by
  subst hx
  rw [hm.content hk, Components.rewireAll_known hid ho hn]

theorem content_unreached (hm : Merged owner s c l all t) {id : String}
    (hid : id ∉ Components.reached (s.registry l).components (s.registry c).components.keys)
    {x : NodeId} (hx : (owner x).2 = id) {k : Option ComponentId}
    (hk : s.nodes[x]? = some (.cell k)) : t.nodes[x]? = some (.cell k) := by
  subst hx
  rw [hm.content hk, Components.rewireAll_of_notMem hid]

theorem of_old (hm : Merged owner s c l all t) {id : String} {o r : Registration}
    (ho : (s.registry c).components.get? id = some o) (hr : all.get? id = some r) :
    (id ∉ Components.reached (s.registry l).components (s.registry c).components.keys ∧ r = o) ∨
    (id ∈ Components.reached (s.registry l).components (s.registry c).components.keys ∧
      ∃ n, (s.registry l).components.get? id = some n ∧ r = o.patched n) := by
  rw [hm.old ho] at hr
  split at hr
  · rename_i hid
    obtain ⟨n, hn⟩ := (Components.mem_reached hid).2
    rw [Components.patchedAt, ho, hn] at hr
    exact .inr ⟨hid, n, hn, (Option.some.inj hr).symm⟩
  · exact .inl ⟨‹_›, (Option.some.inj hr).symm⟩

theorem of_new (hm : Merged owner s c l all t) {id : String} {r : Registration}
    (hc : (s.registry c).components.get? id = none) (hr : all.get? id = some r) :
    (s.registry l).components.get? id = some r := by
  rcases hm.new hc with e | e
  · rw [e] at hr
    cases hr
  · rw [← e, hr]

variable (h : Moment.HandedOver owner ⟨s, ws⟩ c l) (hne : c ≠ l) (hm : Merged owner s c l all t)

include h hne hm

theorem content_new {id : String} {r : Registration}
    (hc : (s.registry c).components.get? id = none)
    (hr : (s.registry l).components.get? id = some r) :
    t.nodes[r.cell]? = some (.cell (some r.component)) := by
  refine hm.content_unreached (fun hid => ?_) (congrArg Prod.snd (h.stands hne hr).owned)
    (h.fresh hne hc hr)
  exact OrderedMap.notMem_keys.2 hc (Components.mem_reached hid).1

theorem handedOver : Moment.HandedOver owner ⟨t, ws⟩ c l where
  canonical_bound := Nat.lt_of_lt_of_eq h.canonical_bound hm.bound.symm
  canonical_complete := h.canonical_complete
  latest_bound := Nat.lt_of_lt_of_eq h.latest_bound hm.bound.symm
  latest_complete := h.latest_complete
  canonical id r hr := by
    rw [hm.canonical] at hr
    have hfun {k : ComponentId} : (∃ f, s.components[k]? = some (.function f)) →
        ∃ f, t.components[k]? = some (.function f) := by
      rintro ⟨f, hf⟩
      obtain ⟨g, hg, -⟩ := hm.grows.function hf
      exact ⟨g, hg⟩
    cases hc : (s.registry c).components.get? id with
    | none =>
      have hl := hm.of_new hc hr
      exact .of_stands ((h.stands hne hl).grows hm.grows)
        (Nat.lt_of_lt_of_eq h.latest_bound hm.bound.symm) h.latest_complete
        (content_new h hne hm hc hl)
    | some o =>
      have ho := h.canonical hc
      obtain ⟨w, hb, hw, howner⟩ := ho.owned
      obtain ⟨p, hp, hcell⟩ := ho.proxy
      obtain ⟨k, hk, hkind⟩ := ho.content
      rcases hm.of_old hc hr with ⟨hid, rfl⟩ | ⟨hid, n, hn, rfl⟩
      · exact ⟨⟨w, Nat.lt_of_lt_of_eq hb hm.bound.symm, hw, howner⟩, ⟨p, hm.grows.proxy hp, hcell⟩,
          k, hm.content_unreached hid (congrArg Prod.snd howner) hk, hkind.imp_right hfun⟩
      · have hcontent := hm.content_patched hid hc hn (congrArg Prod.snd howner) hk
        refine ⟨?_, ?_, ?_⟩
        · rw [Registration.patched_cell]
          exact ⟨w, Nat.lt_of_lt_of_eq hb hm.bound.symm, hw, howner⟩
        · rw [Registration.patched_cell, Registration.patched_proxy]
          exact ⟨p, hm.grows.proxy hp, hcell⟩
        · rw [Registration.patched_cell, Registration.patched_proxy]
          by_cases he : o.cell = n.cell
          · rw [he, Registration.rewire_new, ← he] at hcontent
            exact ⟨_, hcontent, .inl rfl⟩
          · rw [Registration.rewire_old he] at hcontent
            split at hcontent
            · obtain ⟨f, hf, -⟩ := (h.stands hne hn).component
              exact ⟨_, hcontent, .inr (hfun ⟨f, hf⟩)⟩
            · exact ⟨_, hcontent, hkind.imp_right hfun⟩
  stands _ id r hr := by
    rw [hm.registry l (Ne.symm hne)] at hr
    exact (h.stands hne hr).grows hm.grows
  fresh _ id r hc hr := by
    rw [hm.canonical] at hc
    rw [hm.registry l (Ne.symm hne)] at hr
    cases hold : (s.registry c).components.get? id with
    | none => exact content_new h hne hm hold hr
    | some o =>
      rw [hm.old hold] at hc
      split at hc
      · simp [Components.patchedAt, hold, hr] at hc
      · cases hc
  alone he := absurd he hne

theorem sound (hs : Moment.Sound .anyFunction owner ⟨s, ws⟩) :
    Moment.Sound .anyFunction owner ⟨t, ws⟩ := by
  refine hs.carry (List.Subset.refl ws) hm.grows (Nat.le_of_eq hm.bound.symm)
    (fun w hw => hm.registry w ?_) fun w hw id r hr hc => ?_
  · rintro rfl
    exact h.canonical_complete hw
  · rw [hm.content hc, Components.rewireAll_of_ne]
    · exact fun o ho => h.owner_ne hs hw ho hr
    · intro n hn e
      have ho := (h.stands hne hn).owned
      rw [← e, (hs.stands w hw hr).owned] at ho
      obtain rfl : w = l := congrArg Prod.fst ho
      exact h.latest_complete hw

end Merged

/-- A registration of the canonical registry that shares its cell with the one of the latest registry,
and that a patch gets to. -/
structure Store.Clash (s : Store) (c l : RegistryId) (id : String) (o n : Registration) : Prop where
  canonical : (s.registry c).components.get? id = some o
  latest : (s.registry l).components.get? id = some n
  reached : id ∈ Components.reached (s.registry l).components (s.registry c).components.keys
  shared : o.cell = n.cell

theorem Store.Clash.congr {s t : Store} {c l : RegistryId} {id : String} {o n : Registration}
    (h : s.Clash c l id o n) (hc : t.registry c = s.registry c) (hl : t.registry l = s.registry l) :
    t.Clash c l id o n where
  canonical := hc ▸ h.canonical
  latest := hl ▸ h.latest
  reached := hc ▸ hl ▸ h.reached
  shared := h.shared

def Store.EndsAll (s : Store) (c : RegistryId) : Prop :=
  ∀ ⦃id r⦄, (s.registry c).components.get? id = some r → s.Ends r.proxy

/-- What another patch would install is there. -/
def Store.UpToDate (s : Store) (c l : RegistryId) : Prop :=
  ∀ ⦃id o n⦄, (s.registry c).components.get? id = some o →
    (s.registry l).components.get? id = some n →
    id ∈ Components.reached (s.registry l).components (s.registry c).components.keys →
    o.cell ≠ n.cell → needsSwap o n = true → s.nodes[o.cell]? = some (.cell (some n.component))

namespace Merged

variable {owner : Ownership} {s t : Store} {ws : List RegistryId} {c l : RegistryId}
  {all : Components} {id : String} {o n : Registration}

theorem all_of_reached (hm : Merged owner s c l all t)
    (hid : id ∈ Components.reached (s.registry l).components (s.registry c).components.keys)
    (ho : (s.registry c).components.get? id = some o)
    (hn : (s.registry l).components.get? id = some n) : all.get? id = some (o.patched n) := by
  rw [hm.old ho, if_pos hid, Components.patchedAt, ho, hn]

variable (h : Moment.HandedOver owner ⟨s, ws⟩ c l) (hne : c ≠ l) (hm : Merged owner s c l all t)

include h hm

theorem content_clash (hc : s.Clash c l id o n) :
    t.nodes[o.cell]? = some (.cell (some o.proxy)) := by
  have hcanonical := h.canonical hc.canonical
  obtain ⟨w, -, -, howner⟩ := hcanonical.owned
  obtain ⟨k, hk, -⟩ := hcanonical.content
  rw [hm.content_patched hc.reached hc.canonical hc.latest (congrArg Prod.snd howner) hk, hc.shared,
    Registration.rewire_new]

theorem content_apart (ho : (s.registry c).components.get? id = some o)
    (hn : (s.registry l).components.get? id = some n)
    (hid : id ∈ Components.reached (s.registry l).components (s.registry c).components.keys)
    (he : o.cell ≠ n.cell) : t.nodes[o.cell]? =
      if needsSwap o n then some (.cell (some n.component)) else s.nodes[o.cell]? := by
  have hcanonical := h.canonical ho
  obtain ⟨w, -, -, howner⟩ := hcanonical.owned
  obtain ⟨k, hk, -⟩ := hcanonical.content
  rw [hm.content_patched hid ho hn (congrArg Prod.snd howner) hk, Registration.rewire_old he, hk]
  split <;> rfl

theorem content_kept (ho : (s.registry c).components.get? id = some o)
    (hid : id ∉ Components.reached (s.registry l).components (s.registry c).components.keys) :
    t.nodes[o.cell]? = s.nodes[o.cell]? := by
  have hcanonical := h.canonical ho
  obtain ⟨w, -, -, howner⟩ := hcanonical.owned
  obtain ⟨k, hk, -⟩ := hcanonical.content
  rw [hm.content_unreached hid (congrArg Prod.snd howner) hk, hk]

include hne

/-- A patch closes a cycle exactly if registrations clash. -/
theorem endsAll_iff (he : s.EndsAll c) :
    t.EndsAll c ↔ ∀ id o n, ¬ s.Clash c l id o n := by
  have hover := hm.handedOver h hne
  refine ⟨fun hends id o n hc => ?_, fun hno id r hr => ?_⟩
  · have hall := hm.all_of_reached hc.reached hc.canonical hc.latest
    rw [← hm.canonical] at hall
    refine (hover.canonical hall).ends_iff.1 (hends hall) ?_
    rw [Registration.patched_cell, Registration.patched_proxy]
    exact hm.content_clash h hc
  · have hcanonical := hover.canonical hr
    rw [hm.canonical] at hr
    cases ho : (s.registry c).components.get? id with
    | none =>
      have hl := hm.of_new ho hr
      obtain ⟨f, hf, -⟩ := (h.stands hne hl).component
      obtain ⟨g, hg, -⟩ := hm.grows.function hf
      exact Store.Delegates.ends ⟨_, hm.grows.proxy (h.stands hne hl).proxy,
        content_new h hne hm ho hl⟩ hg
    | some o =>
      have hold := (h.canonical ho).ends_iff.1 (he ho)
      rcases hm.of_old ho hr with ⟨hid, rfl⟩ | ⟨hid, n, hn, rfl⟩
      · rwa [hcanonical.ends_iff, hm.content_kept h ho hid]
      · have hapart : o.cell ≠ n.cell := fun e => hno id o n ⟨ho, hn, hid, e⟩
        rw [hcanonical.ends_iff, Registration.patched_cell, Registration.patched_proxy,
          hm.content_apart h ho hn hid hapart]
        split
        · obtain ⟨f, hf, -⟩ := (h.stands hne hn).component
          obtain ⟨p, hp, -⟩ := (h.canonical ho).proxy
          intro e
          simp only [Option.some.injEq, Node.cell.injEq] at e
          simp [e, hp] at hf
        · exact hold

theorem upToDate : t.UpToDate c l := by
  intro id r n hr hn hid hapart hswap
  rw [hm.canonical] at hr hid
  rw [hm.registry l (Ne.symm hne)] at hn hid
  cases ho : (s.registry c).components.get? id with
  | none =>
    obtain rfl : r = n := Option.some.inj ((hm.of_new ho hr).symm.trans hn)
    exact absurd rfl hapart
  | some o =>
    have hreached := hm.again id hid (OrderedMap.mem_keys.2 ⟨o, ho⟩)
    have hall := hm.all_of_reached hreached ho hn
    obtain rfl : r = o.patched n := Option.some.inj (hr.symm.trans hall)
    rw [Registration.patched_cell] at hapart ⊢
    rw [hm.content_apart h ho hn hreached hapart, if_pos]
    by_cases hns : needsSwap o n = true
    · exact hns
    -- nothing was swapped then, so it is still `o` that is compared
    · rwa [Registration.patched, if_neg hns] at hswap

omit h in
/-- What is adopted clashes the next time, and nothing else does that did not clash before. -/
theorem clash_iff (hno : ∀ id o n, ¬ s.Clash c l id o n) : (∃ id o n, t.Clash c l id o n) ↔
    ∃ id, (s.registry c).components.get? id = none ∧
      (t.registry c).components.get? id ≠ none := by
  refine ⟨?_, ?_⟩
  · rintro ⟨id, r, n, hr, hn, hid, he⟩
    refine ⟨id, ?_, by simp [hr]⟩
    rw [hm.canonical] at hr hid
    rw [hm.registry l (Ne.symm hne)] at hn hid
    cases ho : (s.registry c).components.get? id with
    | none => rfl
    | some o =>
      have hreached := hm.again id hid (OrderedMap.mem_keys.2 ⟨o, ho⟩)
      have hall := hm.all_of_reached hreached ho hn
      obtain rfl : r = o.patched n := Option.some.inj (hr.symm.trans hall)
      exact absurd ⟨ho, hn, hreached, (Registration.patched_cell o n).symm.trans he⟩ (hno id o n)
  · rintro ⟨id, hc, hr⟩
    rw [hm.canonical] at hr
    have hwhole := hm.whole hc hr
    obtain ⟨r, hr⟩ := Option.ne_none_iff_exists'.1 hr
    have hl := hm.of_new hc hr
    refine ⟨id, r, r, ?_, ?_, ?_, rfl⟩
    · rw [hm.canonical, hr]
    · rw [hm.registry l (Ne.symm hne), hl]
    · rw [hm.canonical, hm.registry l (Ne.symm hne), Components.reached_eq_self]
      · exact OrderedMap.mem_keys.2 ⟨r, hr⟩
      · intro x hx
        by_cases hold : x ∈ (s.registry c).components.keys
        · exact hwhole x hold
        · obtain ⟨q, hq⟩ := OrderedMap.mem_keys.1 hx
          exact OrderedMap.contains_of_get? (hm.of_new (OrderedMap.notMem_keys.1 hold) hq)

omit hne in
theorem content_eq (hup : s.UpToDate c l) (hno : ∀ id o n, ¬ s.Clash c l id o n)
    (ho : (s.registry c).components.get? id = some o) : t.nodes[o.cell]? = s.nodes[o.cell]? := by
  by_cases hid : id ∈ Components.reached (s.registry l).components (s.registry c).components.keys
  · obtain ⟨n, hn⟩ := (Components.mem_reached hid).2
    have hapart : o.cell ≠ n.cell := fun e => hno id o n ⟨ho, hn, hid, e⟩
    rw [hm.content_apart h ho hn hid hapart]
    split
    · exact (hup ho hn hid hapart ‹_›).symm
    · rfl
  · exact hm.content_kept h ho hid

end Merged

theorem Store.UpToDate.carry {owner : Ownership} {m m' : Moment} {c l : RegistryId}
    (hup : m.store.UpToDate c l) (h : m.HandedOver owner c l) (hm : m.Carries m') :
    m'.store.UpToDate c l := by
  unfold Store.UpToDate
  rw [hm.registry c h.canonical_bound h.canonical_complete,
    hm.registry l h.latest_bound h.latest_complete]
  exact fun id o n ho hn hid hapart hswap => hm.content (hup ho hn hid hapart hswap)

theorem Store.EndsAll.carry {owner : Ownership} {m m' : Moment} {c l : RegistryId}
    (he : m.store.EndsAll c) (h : m.HandedOver owner c l) (hm : m.Carries m') :
    m'.store.EndsAll c := by
  unfold Store.EndsAll
  rw [hm.registry c h.canonical_bound h.canonical_complete]
  exact fun id r hr => (he hr).carry hm.grows hm.content

end HotSwap
