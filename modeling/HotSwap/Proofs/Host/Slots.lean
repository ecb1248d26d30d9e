import HotSwap.Proofs.Host.Hosted
/-!
# What the slots of a host hold

Cells of the canonical registry hold functions, or the proxies that read them. Whatever the latest
registry adds to the canonical one is still as it was made.
-/

namespace HotSwap

open Machine

/-- What is known of every canonical registration, by whichever evaluation it was made. -/
structure Registration.Canonical (owner : Ownership) (m : Moment) (id : String) (r : Registration) :
    Prop where
  owned : ∃ w < m.store.registries.length, w ∉ m.filling ∧ owner r.cell = (w, id)
  proxy : ∃ p, m.store.components[r.proxy]? = some (.proxy p) ∧ p.cell = r.cell
  content : ∃ k, m.store.nodes[r.cell]? = some (.cell (some k)) ∧
    (k = r.proxy ∨ ∃ f, m.store.components[k]? = some (.function f))

/-- Two registries that were handed over, the canonical one and the latest. -/
structure Moment.HandedOver (owner : Ownership) (m : Moment) (c l : RegistryId) : Prop where
  canonical_bound : c < m.store.registries.length
  canonical_complete : c ∉ m.filling
  latest_bound : l < m.store.registries.length
  latest_complete : l ∉ m.filling
  canonical : ∀ ⦃id r⦄, (m.store.registry c).components.get? id = some r → r.Canonical owner m id
  stands : c ≠ l → (m.store.registry l).Stands .anyFunction owner m.store l
  fresh : c ≠ l → ∀ ⦃id r⦄, (m.store.registry c).components.get? id = none →
    (m.store.registry l).components.get? id = some r →
      m.store.nodes[r.cell]? = some (.cell (some r.component))
  alone : c = l → ∀ ⦃id r⦄, (m.store.registry c).components.get? id = some r →
    m.store.Ends r.proxy

/-- Nothing has been handed over yet, or something has. -/
inductive Moment.Slots (owner : Ownership) (m : Moment) :
    Option RegistryId → Option RegistryId → Prop
  | empty : Slots owner m none none
  | handed {c l : RegistryId} (h : m.HandedOver owner c l) : Slots owner m (some c) (some l)

namespace Registration.Canonical

variable {owner owner' : Ownership} {m m' : Moment} {id : String} {r : Registration}

theorem cell_lt (h : r.Canonical owner m id) : r.cell < m.store.nodes.length := by
  obtain ⟨k, hk, -⟩ := h.content
  exact (List.getElem?_eq_some_iff.1 hk).1

theorem carry (h : r.Canonical owner m id) (hm : m.Carries m')
    (ho : ∀ n < m.store.nodes.length, owner' n = owner n) : r.Canonical owner' m' id where
  owned := by
    obtain ⟨w, hb, hw, e⟩ := h.owned
    exact ⟨w, Nat.lt_of_lt_of_le hb hm.bound, hm.notMem hb hw, (ho _ h.cell_lt).trans e⟩
  proxy := by
    obtain ⟨p, hp, e⟩ := h.proxy
    exact ⟨p, hm.grows.proxy hp, e⟩
  content := by
    obtain ⟨k, hk, hkind⟩ := h.content
    refine ⟨k, hm.content hk, hkind.imp_right ?_⟩
    rintro ⟨f, hf⟩
    obtain ⟨g, hg, -⟩ := hm.grows.function hf
    exact ⟨g, hg⟩

theorem of_stands {w : RegistryId} (h : r.Stands .anyFunction owner m.store w id)
    (hb : w < m.store.registries.length) (hw : w ∉ m.filling)
    (hc : m.store.nodes[r.cell]? = some (.cell (some r.component))) : r.Canonical owner m id where
  owned := ⟨w, hb, hw, h.owned⟩
  proxy := ⟨_, h.proxy, rfl⟩
  content := by
    obtain ⟨f, hf, -⟩ := h.component
    exact ⟨_, hc, .inr ⟨f, hf⟩⟩

/-- Following a canonical proxy comes to an end unless its cell holds the proxy itself. -/
theorem ends_iff (h : r.Canonical owner m id) :
    m.store.Ends r.proxy ↔ m.store.nodes[r.cell]? ≠ some (.cell (some r.proxy)) := by
  obtain ⟨p, hp, e⟩ := h.proxy
  rw [← e]
  refine ⟨fun he hc => Store.Delegates.not_ends ⟨p, hp, hc⟩ he, fun hne => ?_⟩
  obtain ⟨k, hk, rfl | ⟨f, hf⟩⟩ := h.content
  · exact absurd (e ▸ hk) hne
  · exact Store.Delegates.ends ⟨p, hp, e ▸ hk⟩ hf

end Registration.Canonical

namespace Moment.HandedOver

variable {owner owner' : Ownership} {m m' : Moment} {s : Store} {ws : List RegistryId}
  {c l w : RegistryId}

theorem carry (h : m.HandedOver owner c l) (hm : m.Carries m')
    (ho : ∀ n < m.store.nodes.length, owner' n = owner n) : m'.HandedOver owner' c l where
  canonical_bound := Nat.lt_of_lt_of_le h.canonical_bound hm.bound
  canonical_complete := hm.notMem h.canonical_bound h.canonical_complete
  latest_bound := Nat.lt_of_lt_of_le h.latest_bound hm.bound
  latest_complete := hm.notMem h.latest_bound h.latest_complete
  canonical id r hr := by
    rw [hm.registry c h.canonical_bound h.canonical_complete] at hr
    exact (h.canonical hr).carry hm ho
  stands hne id r hr := by
    rw [hm.registry l h.latest_bound h.latest_complete] at hr
    have hs := h.stands hne hr
    exact (hs.congr (ho _ hs.cell_lt)).grows hm.grows
  fresh hne id r hc hr := by
    rw [hm.registry c h.canonical_bound h.canonical_complete] at hc
    rw [hm.registry l h.latest_bound h.latest_complete] at hr
    exact hm.content (h.fresh hne hc hr)
  alone he id r hr := by
    rw [hm.registry c h.canonical_bound h.canonical_complete] at hr
    exact (h.alone he hr).carry hm.grows hm.content

theorem first (hm : Moment.Sound .anyFunction owner ⟨s, ws⟩) (hw : w ∈ ws) :
    Moment.HandedOver owner ⟨s, ws.filter (· ≠ w)⟩ w w where
  canonical_bound := hm.bound w hw
  canonical_complete := by simp
  latest_bound := hm.bound w hw
  latest_complete := by simp
  canonical id r hr :=
    .of_stands (hm.stands w hw hr) (hm.bound w hw) (by simp) (hm.untouched w hw hr)
  stands hne := absurd rfl hne
  fresh hne := absurd rfl hne
  alone _ id r hr := by
    obtain ⟨f, hf, -⟩ := (hm.stands w hw hr).component
    exact Store.Delegates.ends ⟨_, (hm.stands w hw hr).proxy, hm.untouched w hw hr⟩ hf

theorem next (h : Moment.HandedOver owner ⟨s, ws⟩ c l) (hm : Moment.Sound .anyFunction owner ⟨s, ws⟩)
    (hw : w ∈ ws) : Moment.HandedOver owner ⟨s, ws.filter (· ≠ w)⟩ c w where
  canonical_bound := h.canonical_bound
  canonical_complete hc := h.canonical_complete (List.mem_filter.1 hc).1
  latest_bound := hm.bound w hw
  latest_complete := by simp
  canonical id r hr := (h.canonical hr).carry
    ((Store.Attends.refl 0 0 s).carries List.filter_sublist.subset) fun _ _ => rfl
  stands _ := hm.stands w hw
  fresh _ _ _ _ hr := hm.untouched w hw hr
  alone he := absurd hw (he ▸ h.canonical_complete)

theorem owner_ne (h : m.HandedOver owner c l) (hm : m.Sound .anyFunction owner) (hw : w ∈ m.filling)
    {id id' : String} {r n : Registration}
    (hr : (m.store.registry c).components.get? id = some r)
    (hn : (m.store.registry w).components.get? id' = some n) : n.cell ≠ r.cell := by
  intro e
  obtain ⟨v, -, hv, ho⟩ := (h.canonical hr).owned
  rw [← e, (hm.stands w hw hn).owned] at ho
  cases ho
  exact hv hw

theorem labelled (h : m.HandedOver owner c l) :
    Components.Labelled (fun n => (owner n).2) m.store (m.store.registry c).components := by
  intro id r hr
  obtain ⟨w, -, -, ho⟩ := (h.canonical hr).owned
  obtain ⟨k, hk, -⟩ := (h.canonical hr).content
  exact ⟨⟨_, hk⟩, congrArg Prod.snd ho⟩

end Moment.HandedOver

theorem Moment.Slots.carry {owner owner' : Ownership} {m m' : Moment} {c l : Option RegistryId}
    (h : m.Slots owner c l) (hm : m.Carries m')
    (ho : ∀ n < m.store.nodes.length, owner' n = owner n) : m'.Slots owner' c l := by
  cases h with
  | empty => exact .empty
  | handed h => exact .handed (h.carry hm ho)

theorem Moment.Slots.latest_none {owner : Ownership} {m : Moment} {l : Option RegistryId}
    (h : m.Slots owner none l) : l = none := by
  cases h
  rfl

theorem Moment.Slots.canonical_none {owner : Ownership} {m : Moment} {c : Option RegistryId}
    (h : m.Slots owner c none) : c = none := by
  cases h
  rfl

theorem Moment.Slots.exists_latest {owner : Ownership} {m : Moment} {c : RegistryId}
    {l : Option RegistryId} (h : m.Slots owner (some c) l) :
    ∃ l', l = some l' ∧ m.HandedOver owner c l' := by
  cases h with
  | handed h => exact ⟨_, rfl, h⟩

theorem Moment.Slots.handOver {owner : Ownership} {s : Store} {ws : List RegistryId}
    {slots : HotData} {w : RegistryId}
    (h : Moment.Slots owner ⟨s, ws⟩ (slots.get? currentSlot) (slots.get? previousSlot))
    (hm : Moment.Sound .anyFunction owner ⟨s, ws⟩) (hw : w ∈ ws) :
    Moment.Slots owner ⟨s, ws.filter (· ≠ w)⟩ ((slots.handOver w).get? currentSlot)
      ((slots.handOver w).get? previousSlot) := by
  rw [HotData.handOver_current, HotData.handOver_previous]
  generalize slots.get? currentSlot = c at h
  generalize slots.get? previousSlot = l at h
  cases h with
  | empty => exact .handed (.first hm hw)
  | handed h => exact .handed (h.next hm hw)

namespace Serving

def canonical (d : DataId) (S : Serving) : Option RegistryId :=
  (S.moment.store.slots d).get? currentSlot

def latest (d : DataId) (S : Serving) : Option RegistryId :=
  (S.moment.store.slots d).get? previousSlot

/-- The invariant of a program under the host `h` with the slots `d`. -/
structure Hosted (owner : Ownership) (h : HostId) (d : DataId) (S : Serving) : Prop where
  sound : S.moment.Sound .anyFunction owner
  hosts : S.moment.store.Hosts h d
  taken : ∀ cb ∈ S.taken, cb.Serves d
  data : d < S.moment.store.data.length
  slots : S.moment.Slots owner (S.canonical d) (S.latest d)

structure Follows (d : DataId) (S S' : Serving) : Prop extends
    Moment.Carries S.moment S'.moment where
  canonical : ∀ c, S.canonical d = some c → S'.canonical d = some c
  first : S.canonical d = none → S'.canonical d = S'.latest d

variable {owner : Ownership} {h : HostId} {d : DataId} {s t : Store} {ws : List RegistryId}
  {cs : List AcceptCallback} {S S' : Serving}

theorem Hosted.attends {cs' : List AcceptCallback} (hS : Hosted owner h d ⟨⟨s, ws⟩, cs⟩)
    (a : s.Attends h d t) (hcs : ∀ cb ∈ cs', cb.Serves d) : Hosted owner h d ⟨⟨t, ws⟩, cs'⟩ where
  sound := a.sound hS.sound
  hosts := a.hosts hS.hosts
  taken := hcs
  data := by simpa only [a.data] using hS.data
  slots := by
    simp only [canonical, latest, Store.slots, a.data]
    exact hS.slots.carry (a.carries (List.Subset.refl ws)) fun _ _ => rfl

theorem Hosted.follows (hS : Hosted owner h d S) (hm : S.moment.Carries S'.moment)
    (hd : S'.moment.store.slots d = S.moment.store.slots d) : S.Follows d S' where
  toCarries := hm
  canonical c hc := by rwa [Serving.canonical, hd]
  first hc := by
    have hl : S.latest d = none := (hc ▸ hS.slots).latest_none
    rw [Serving.canonical, latest, hd]
    exact hc.trans hl.symm

theorem Hosted.start {s₀ : Store} {name : String} (hs : newEsmHost name s₀ = some (h, s)) :
    Hosted owner h s₀.data.length ⟨⟨s, []⟩, []⟩ := by
  cases hs
  refine ⟨⟨by simp, by simp, by simp⟩, ⟨_, List.getElem?_concat_length, rfl, by simp⟩, by simp,
    by simp, ?_⟩
  simp only [canonical, latest, Store.slots, List.getElem?_concat_length, Option.getD_some]
  exact .empty

theorem Hosted.follows_attends {ws' : List RegistryId} {cs' : List AcceptCallback}
    (hS : Hosted owner h d ⟨⟨s, ws⟩, cs⟩) (a : s.Attends h d t) (hsub : ws' ⊆ ws) :
    Follows d ⟨⟨s, ws⟩, cs⟩ ⟨⟨t, ws'⟩, cs'⟩ :=
  hS.follows (a.carries hsub) (by simp only [Store.slots, a.data])

theorem Hosted.refresh {cfg : Config} {g : GateId} {w : RegistryId}
    (hS : Hosted owner h d ⟨⟨s, ws⟩, cs⟩) (hw : w ∈ ws)
    (hr : refreshEsm cfg g h w s = some ((), t)) :
    Hosted owner h d ⟨⟨t, ws.filter (· ≠ w)⟩, cs⟩ ∧
      Follows d ⟨⟨s, ws⟩, cs⟩ ⟨⟨t, ws.filter (· ≠ w)⟩, cs⟩ := by
  have hsub : ws.filter (· ≠ w) ⊆ ws := List.filter_sublist.subset
  have hg := s.handOver_grows d w
  rcases refreshEsm_eq_some hS.hosts hS.data hr with a | a
  · refine ⟨Hosted.attends ⟨hS.sound.filter _, hS.hosts, hS.taken, hS.data, ?_⟩ a hS.taken,
      hS.follows_attends a hsub⟩
    exact hS.slots.carry ((Store.Attends.refl h d s).carries hsub) fun _ _ => rfl
  · have hc (ws) : Moment.Carries ⟨s, ws⟩ ⟨s.handOver d w, ws⟩ :=
      ⟨hg, id, Nat.le_refl _, fun _ => .inl, fun _ _ _ => rfl⟩
    have hslots : t.slots d = (s.slots d).handOver w := by
      rw [← Store.slots_handOver hS.data w]
      simp only [Store.slots, a.data]
    have hosted : Hosted owner h d ⟨⟨s.handOver d w, ws.filter (· ≠ w)⟩, cs⟩ := by
      refine ⟨?_, hS.hosts, hS.taken, by simpa [Store.handOver] using hS.data, ?_⟩
      · exact (hS.sound.filter _).carry (List.Subset.refl _) hg (Nat.le_refl _) (fun _ _ => rfl)
          fun _ _ _ _ _ => id
      · simp only [canonical, latest, Store.slots_handOver hS.data]
        exact (hS.slots.handOver hS.sound hw).carry (hc _) fun _ _ => rfl
    refine ⟨hosted.attends a hS.taken, (hc ws).trans (a.carries hsub), fun c hc => ?_, fun hc => ?_⟩
    · simp only [canonical, hslots, HotData.handOver_current] at hc ⊢
      rw [hc, Option.getD_some]
    · simp only [canonical, latest, hslots, HotData.handOver_current, HotData.handOver_previous]
        at hc ⊢
      rw [hc, Option.getD_none]

theorem takeAccepts_attends {callbacks : List AcceptCallback} (hs : s.Hosts h d)
    (ht : takeAccepts h s = some (callbacks, t)) :
    s.Attends h d t ∧ ∀ cb ∈ callbacks, cb.Serves d := by
  cases ht
  obtain ⟨x, hx, hd, hcb⟩ := hs
  simp only [hx, Option.getD_some]
  refine ⟨.of_host fun y hy hyd _ => ?_, hcb⟩
  obtain rfl : x = y := Option.some.inj (hx.symm.trans hy)
  exact ⟨hyd, by simp⟩

theorem runAccept_attends {cb cb' : AcceptCallback} {module : Option String}
    (hp : module = none ∨ ∀ d', cb ≠ .patch d') (ht : runAccept h module cb s = some (cb', t)) :
    s.Attends h d t ∧ (cb.Serves d → cb'.Serves d) := by
  cases cb with
  | patch d' =>
    obtain rfl : module = none := hp.resolve_right fun hne => hne d' rfl
    obtain ⟨_, _, hreload, ht⟩ := bind_eq_some.1 ht
    cases hreload
    obtain ⟨_, u, hu, ht⟩ := bind_eq_some.1 ht
    cases ht
    exact ⟨(request_attends h d _ s hu).2, id⟩
  | invalidate =>
    obtain ⟨_, u, hu, ht⟩ := bind_eq_some.1 ht
    cases ht
    exact ⟨(request_attends h d _ s hu).2, id⟩
  | report name next =>
    obtain ⟨_, u, hu, ht⟩ := bind_eq_some.1 ht
    cases hu
    cases next with
    | none =>
      cases ht
      exact ⟨.of_trace _, fun _ _ => nofun⟩
    | some n =>
      obtain ⟨_, v, hv, ht⟩ := bind_eq_some.1 ht
      cases ht
      have serves : (AcceptCallback.report n none).Serves d := nofun
      exact ⟨(Store.Attends.of_trace _).trans (acceptWith_attends serves _ hv).2,
        fun _ _ => nofun⟩

theorem Hosted.step (hS : Hosted owner h d S) (hs : Step h S S') :
    ∃ owner', Hosted owner' h d S' ∧ S.Follows d S' := by
  have hsub (ws : List RegistryId) := List.Subset.refl ws
  cases hs with
  | go hm =>
    obtain ⟨owner', ho, sound, keeps⟩ := hS.sound.step hm
    refine ⟨owner', ⟨sound, ?_, hS.taken, ?_, ?_⟩, hS.follows keeps.toCarries ?_⟩
    · simpa only [Store.Hosts, keeps.hosts] using hS.hosts
    · simpa only [keeps.data] using hS.data
    · simp only [canonical, latest, Store.slots, keeps.data]
      exact hS.slots.carry keeps.toCarries ho
    · simp only [Store.slots, keeps.data]
  | refresh cfg g hw hr => exact ⟨owner, hS.refresh hw hr⟩
  | take ht =>
    obtain ⟨a, hcb⟩ := takeAccepts_attends hS.hosts ht
    refine ⟨owner, hS.attends a fun cb hm => ?_, hS.follows_attends a (hsub _)⟩
    exact (List.mem_append.1 hm).elim (hcb cb) (hS.taken cb)
  | @give s t ws cs kept hk ht =>
    have a : s.Attends h d t := by
      cases ht
      refine .of_host fun x hx hd hcb => ?_
      simp only [hx, Option.getD_some]
      exact ⟨hd, fun cb hm => (List.mem_append.1 hm).elim (fun hm => hS.taken cb (hk hm)) (hcb cb)⟩
    exact ⟨owner, hS.attends a hS.taken, hS.follows_attends a (hsub _)⟩
  | @pin s ws cs hs =>
    have a : s.Attends h d { s with pinned := hs } := .of_pinned hs
    exact ⟨owner, hS.attends a hS.taken, hS.follows_attends a (hsub _)⟩
  | @watch s t ws cs name next ht =>
    have serves : (AcceptCallback.report name next).Serves d := by rintro _ ⟨⟩
    have a := (acceptWith_attends serves s ht).2
    exact ⟨owner, hS.attends a hS.taken, hS.follows_attends a (hsub _)⟩
  | accept hcb hp ht =>
    obtain ⟨a, hserves⟩ := runAccept_attends (d := d) hp ht
    refine ⟨owner, hS.attends a ?_, hS.follows_attends a (hsub _)⟩
    exact List.forall_mem_cons.2 ⟨hserves (hS.taken _ hcb), hS.taken⟩

end Serving

end HotSwap
