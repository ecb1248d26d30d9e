import Mathlib.Data.List.Chain
import HotSwap.Proofs.Edit.Ledger
import HotSwap.Proofs.Host.Merge
/-!
# Where following proxies comes to an end

A callback that patches the latest registry once more meets registrations that the canonical registry
adopted from it the time before. The two then share a cell, and the patch makes the cell hold the
very proxy that reads it. Nothing else on a host can do that.
-/

namespace HotSwap

open Machine

namespace Machine

theorem patchSlots_eq_some {d : DataId} {reload : Bool} {s t : Store}
    (h : patchSlots d s = some (reload, t)) :
    t = s ∧ (∀ c l, (s.slots d).get? currentSlot = some c →
      (s.slots d).get? previousSlot = some l → c = l) ∨
    ∃ c l report, (s.slots d).get? currentSlot = some c ∧ (s.slots d).get? previousSlot = some l ∧
      c ≠ l ∧ reconcile c l s = some (report, t) := by
  have hslots : hotData d s = some (s.slots d, s) := rfl
  simp only [patchSlots, bind_apply, hslots, Option.bind_some] at h
  generalize (s.slots d).get? currentSlot = c at h ⊢
  generalize (s.slots d).get? previousSlot = l at h ⊢
  cases c with
  | none =>
    cases h
    exact .inl ⟨rfl, by rintro _ _ ⟨⟩⟩
  | some c =>
    cases l with
    | none =>
      cases h
      exact .inl ⟨rfl, by rintro _ _ _ ⟨⟩⟩
    | some l =>
      dsimp only at h
      split at h
      · cases h
        exact .inl ⟨rfl, by simp_all⟩
      · obtain ⟨report, u, hu, h⟩ := bind_eq_some.1 h
        cases h
        exact .inr ⟨c, l, report, rfl, rfl, ‹_›, hu⟩

theorem runAccept_patch_eq_some {h : HostId} {d : DataId} {module : String} {cb : AcceptCallback}
    {s t : Store} (ht : runAccept h (some module) (.patch d) s = some (cb, t)) :
    ∃ reload u, patchSlots d s = some (reload, u) ∧ u.Attends h d t ∧ cb = .patch d := by
  obtain ⟨reload, u, hu, ht⟩ := bind_eq_some.1 ht
  refine ⟨reload, u, hu, ?_⟩
  dsimp only at ht
  split at ht
  · obtain ⟨_, v, hv, ht⟩ := bind_eq_some.1 ht
    cases ht
    exact ⟨(request_attends h d _ u hv).2, rfl⟩
  · cases ht
    exact ⟨.refl h d _, rfl⟩

end Machine

namespace Serving

variable {owner : Ownership} {h : HostId} {d : DataId} {S S' : Serving}

def EndsAll (d : DataId) (S : Serving) : Prop :=
  ∀ c, S.canonical d = some c → S.moment.store.EndsAll c

/-- The next patch meets a cell that it shares with the canonical registry. -/
def Clashes (d : DataId) (S : Serving) : Prop :=
  ∃ c l id o n, S.canonical d = some c ∧ S.latest d = some l ∧ c ≠ l ∧
    S.moment.store.Clash c l id o n

def Adopts (d : DataId) (S S' : Serving) : Prop :=
  ∃ c id, S.canonical d = some c ∧ (S.moment.store.registry c).components.get? id = none ∧
    (S'.moment.store.registry c).components.get? id ≠ none

def SameDelegates (d : DataId) (S S' : Serving) : Prop :=
  ∀ c, S.canonical d = some c → ∀ ⦃id r⦄, (S.moment.store.registry c).components.get? id = some r →
    ∀ k, S'.moment.store.Delegates r.proxy k ↔ S.moment.store.Delegates r.proxy k

/-- What becomes of a program when a callback patches. -/
inductive Patching (owner : Ownership) (d : DataId) (S S' : Serving) : Prop
  | idle (alone : ∀ c l, S.canonical d = some c → S.latest d = some l → c = l)
    (follows : S.Follows d S')
  | merged {c l : RegistryId} {all : Components} (canonical : S.canonical d = some c)
    (latest : S.latest d = some l) (apart : c ≠ l) (handed : S.moment.HandedOver owner c l)
    (merged : Merged owner S.moment.store c l all S'.moment.store)

theorem Hosted.handedOver (hS : Hosted owner h d S) {c l : RegistryId}
    (hc : S.canonical d = some c) (hl : S.latest d = some l) : S.moment.HandedOver owner c l := by
  have hslots := hS.slots
  rw [hc, hl] at hslots
  cases hslots with
  | handed h => exact h

theorem Hosted.exists_latest (hS : Hosted owner h d S) {c : RegistryId}
    (hc : S.canonical d = some c) : ∃ l, S.latest d = some l ∧ S.moment.HandedOver owner c l :=
  (hc ▸ hS.slots).exists_latest

theorem Hosted.patch (hS : Hosted owner h d S) (hp : Patch h d S S') :
    Hosted owner h d S' ∧ S'.moment.store.slots d = S.moment.store.slots d ∧
      Patching owner d S S' := by
  cases hp with
  | @accept s t ws cs cb _ hcb ht =>
    obtain ⟨reload, u, hu, a, rfl⟩ := runAccept_patch_eq_some ht
    have hserves : ∀ cb ∈ .patch d :: cs, cb.Serves d :=
      List.forall_mem_cons.2 ⟨hS.taken _ hcb, hS.taken⟩
    rcases patchSlots_eq_some hu with ⟨rfl, halone⟩ | ⟨c, l, report, hc, hl, hne, hr⟩
    · exact ⟨hS.attends a hserves, by simp only [Store.slots, a.data],
        .idle halone (hS.follows_attends a (List.Subset.refl _))⟩
    · have hover := hS.handedOver hc hl
      obtain ⟨all, hm, hhosts⟩ := hover.merged hne hr
      have hosted : Hosted owner h d ⟨⟨u, ws⟩, .patch d :: cs⟩ := by
        refine ⟨hm.sound hover hne hS.sound, ?_, hserves, ?_, ?_⟩
        · simpa only [Store.Hosts, hhosts] using hS.hosts
        · simpa only [hm.data] using hS.data
        · simp only [canonical, latest, Store.slots, hm.data]
          rw [show ((s.data[d]?).getD .empty).get? currentSlot = some c from hc,
            show ((s.data[d]?).getD .empty).get? previousSlot = some l from hl]
          exact .handed (hm.handedOver hover hne)
      exact ⟨hosted.attends a hserves, by simp only [Store.slots, a.data, hm.data],
        .merged hc hl hne hover (hm.attends a)⟩

theorem Hosted.next (hS : Hosted owner h d S) (hs : Next h S S') :
    (∃ owner', Hosted owner' h d S') ∧ (Step h S S' ∨ Patch h d S S') := by
  rcases hs with hs | ⟨d', hp⟩
  · obtain ⟨owner', hS', -⟩ := hS.step hs
    exact ⟨⟨owner', hS'⟩, .inl hs⟩
  · obtain rfl : d' = d := by
      cases hp with
      | accept _ hcb ht => exact hS.taken _ hcb d' rfl
    exact ⟨⟨owner, (hS.patch hp).1⟩, .inr hp⟩

theorem Hosted.endsAll_follows {owner' : Ownership} (hS : Hosted owner h d S)
    (hS' : Hosted owner' h d S') (hf : S.Follows d S') (he : S.EndsAll d) : S'.EndsAll d := by
  intro c hc
  cases hold : S.canonical d with
  | none => exact (hS'.handedOver hc ((hf.first hold).symm.trans hc)).alone rfl
  | some c' =>
    obtain rfl : c' = c := Option.some.inj ((hf.canonical c' hold).symm.trans hc)
    obtain ⟨l, -, hover⟩ := hS.exists_latest hold
    exact (he c' hold).carry hover hf.toCarries

/-- A patch closes a cycle exactly if registrations clash. -/
theorem Hosted.endsAll_patch (hS : Hosted owner h d S) (he : S.EndsAll d) (hp : Patch h d S S') :
    S'.EndsAll d ↔ ¬ S.Clashes d := by
  obtain ⟨hS', hslots, hcase⟩ := hS.patch hp
  cases hcase with
  | idle alone follows =>
    refine iff_of_true (hS.endsAll_follows hS' follows he) ?_
    rintro ⟨c, l, _, _, _, hc, hl, hne, -⟩
    exact hne (alone c l hc hl)
  | @merged c l all hc hl hne hover hm =>
    have hiff := hm.endsAll_iff hover hne (he c hc)
    have hc' : S'.canonical d = some c := by rw [canonical, hslots, ← canonical, hc]
    refine ⟨?_, fun hno x hx => ?_⟩
    · rintro hends ⟨c', l', id, o, n, hx, hy, -, hclash⟩
      obtain rfl : c = c' := Option.some.inj (hc.symm.trans hx)
      obtain rfl : l = l' := Option.some.inj (hl.symm.trans hy)
      exact hiff.1 (hends c hc') id o n hclash
    · obtain rfl : c = x := Option.some.inj (hc'.symm.trans hx)
      exact hiff.2 fun id o n hclash => hno ⟨c, l, id, o, n, hc, hl, hne, hclash⟩

theorem Hosted.endsAll_iff (hS : Hosted owner h d S) (he : S.EndsAll d) (hs : Next h S S') :
    S'.EndsAll d ↔ ¬ (Patch h d S S' ∧ S.Clashes d) := by
  by_cases hp : Patch h d S S'
  · simp [hp, hS.endsAll_patch he hp]
  · obtain ⟨-, hstep⟩ := hS.next hs
    obtain ⟨owner', hS', follows⟩ := hS.step (hstep.resolve_right hp)
    exact iff_of_true (hS.endsAll_follows hS' follows he) fun h => hp h.1

theorem Hosted.endsAll_run {run : List Serving} (hS : Hosted owner h d S) (he : S.EndsAll d)
    (hrun : List.IsChain (Next h) (S :: run)) :
    (∀ S' ∈ run, S'.EndsAll d) ↔
      List.IsChain (fun S S' => ¬ (Patch h d S S' ∧ S.Clashes d)) (S :: run) := by
  induction run generalizing S owner with
  | nil => simp
  | cons S' run ih =>
    obtain ⟨hs, hrun⟩ := List.isChain_cons_cons.1 hrun
    obtain ⟨⟨owner', hS'⟩, -⟩ := hS.next hs
    rw [List.forall_mem_cons, List.isChain_cons_cons, ← hS.endsAll_iff he hs]
    exact and_congr_right fun he' => ih hS' he' hrun

theorem Hosted.of_run {run : List Serving} (hS : Hosted owner h d S)
    (hrun : List.IsChain (Next h) (S :: run)) : ∀ S' ∈ S :: run, ∃ owner', Hosted owner' h d S' := by
  induction run generalizing S owner with
  | nil => exact fun S' hm => ⟨owner, by rwa [List.mem_singleton.1 hm]⟩
  | cons S' run ih =>
    obtain ⟨hs, hrun⟩ := List.isChain_cons_cons.1 hrun
    obtain ⟨⟨owner', hS'⟩, -⟩ := hS.next hs
    exact List.forall_mem_cons.2 ⟨⟨owner, hS⟩, ih hS' hrun⟩

theorem Hosted.steps (hS : Hosted owner h d S) (hs : Relation.ReflTransGen (Step h) S S') :
    (∃ owner', Hosted owner' h d S') ∧ S.moment.Carries S'.moment ∧
      ∀ c, S.canonical d = some c → S'.canonical d = some c := by
  induction hs with
  | refl => exact ⟨⟨owner, hS⟩, .refl _, fun _ => id⟩
  | tail _ hs ih =>
    obtain ⟨⟨owner', hS'⟩, hm, hc⟩ := ih
    obtain ⟨owner'', hS'', hf⟩ := hS'.step hs
    exact ⟨⟨owner'', hS''⟩, hm.trans hf.toCarries, fun c h => hf.canonical c (hc c h)⟩

theorem Hosted.delegates_iff (hS : Hosted owner h d S) {c : RegistryId}
    (hc : S.canonical d = some c) {id : String} {r : Registration}
    (hr : (S.moment.store.registry c).components.get? id = some r) {s : Store}
    (hg : S.moment.store.Grows s) {k : ComponentId} :
    s.Delegates r.proxy k ↔ s.nodes[r.cell]? = some (.cell (some k)) := by
  obtain ⟨l, -, hover⟩ := hS.exists_latest hc
  obtain ⟨p, hp, e⟩ := (hover.canonical hr).proxy
  have hp' := hg.proxy hp
  refine ⟨?_, fun hk => ⟨p, hp', e ▸ hk⟩⟩
  rintro ⟨q, hq, hk⟩
  obtain rfl : p = q := by simpa [hp'] using hq
  rwa [← e]

theorem Hosted.sameDelegates_carries (hS : Hosted owner h d S)
    (hm : S.moment.Carries S'.moment) : S.SameDelegates d S' := by
  intro c hc id r hr k
  rw [hS.delegates_iff hc hr (.refl _), hS.delegates_iff hc hr hm.grows]
  obtain ⟨l, -, hover⟩ := hS.exists_latest hc
  obtain ⟨j, hj, -⟩ := (hover.canonical hr).content
  rw [hm.content hj, hj]

theorem Hosted.sameDelegates_iff (hS : Hosted owner h d S) (he : S.EndsAll d)
    (hup : ∀ c l, S.canonical d = some c → S.latest d = some l → c ≠ l →
      S.moment.store.UpToDate c l) (hp : Patch h d S S') :
    S.SameDelegates d S' ↔ ¬ S.Clashes d := by
  obtain ⟨hS', hslots, hcase⟩ := hS.patch hp
  cases hcase with
  | idle alone follows =>
    refine iff_of_true (hS.sameDelegates_carries follows.toCarries) ?_
    rintro ⟨c, l, _, _, _, hc, hl, hne, -⟩
    exact hne (alone c l hc hl)
  | @merged c l all hc hl hne hover hm =>
    refine ⟨?_, fun hno x hx id r hr k => ?_⟩
    · rintro hsame ⟨c', l', id, o, n, hx, hy, -, hclash⟩
      obtain rfl : c = c' := Option.some.inj (hc.symm.trans hx)
      obtain rfl : l = l' := Option.some.inj (hl.symm.trans hy)
      have hloop := (hS.delegates_iff hc hclash.canonical hm.grows).2
        (hm.content_clash hover hclash)
      exact Store.Delegates.not_ends ((hsame c hc hclash.canonical _).1 hloop)
        (he c hc hclash.canonical)
    · obtain rfl : c = x := Option.some.inj (hc.symm.trans hx)
      rw [hS.delegates_iff hc hr (.refl _), hS.delegates_iff hc hr hm.grows,
        hm.content_eq hover (hup c l hc hl hne)
          (fun id o n hclash => hno ⟨c, l, id, o, n, hc, hl, hne, hclash⟩) hr]

theorem Hosted.canonical_eq (hS : Hosted owner h d S)
    (hs : Relation.ReflTransGen (Step h) S S') (hlatest : S'.latest d = S.latest d) :
    S'.canonical d = S.canonical d := by
  obtain ⟨⟨owner', hS'⟩, -, hcanonical⟩ := hS.steps hs
  cases hc : S.canonical d with
  | some c => exact hcanonical c hc
  | none =>
    have hl : S'.latest d = none := hlatest.trans (hc ▸ hS.slots).latest_none
    exact (hl ▸ hS'.slots).canonical_none

theorem Hosted.upToDate (hS : Hosted owner h d S) (hp : Patch h d S S') {T : Serving}
    (hs : Relation.ReflTransGen (Step h) S' T) (hlatest : T.latest d = S'.latest d)
    {c l : RegistryId} (hc : T.canonical d = some c) (hl : T.latest d = some l) (hne : c ≠ l) :
    T.moment.store.UpToDate c l := by
  obtain ⟨hS', hslots, hcase⟩ := hS.patch hp
  obtain ⟨-, hm, -⟩ := hS'.steps hs
  rw [hS'.canonical_eq hs hlatest] at hc
  rw [hlatest] at hl
  refine Store.UpToDate.carry ?_ (hS'.handedOver hc hl) hm
  rw [canonical, hslots] at hc
  rw [latest, hslots] at hl
  cases hcase with
  | idle alone follows => exact absurd (alone c l hc hl) hne
  | @merged c' l' all hc' hl' hne hover hm =>
    obtain rfl : c' = c := Option.some.inj (hc'.symm.trans hc)
    obtain rfl : l' = l := Option.some.inj (hl'.symm.trans hl)
    exact hm.upToDate hover hne

theorem Hosted.endsAll_steps (hS : Hosted owner h d S) (he : S.EndsAll d)
    (hs : Relation.ReflTransGen (Step h) S S') : S'.EndsAll d := by
  induction hs with
  | refl => exact he
  | tail hs hstep ih =>
    obtain ⟨⟨_, hT⟩, -⟩ := hS.steps hs
    obtain ⟨_, hT', hf⟩ := hT.step hstep
    exact hT.endsAll_follows hT' hf ih

/-- Another patch clashes exactly if the first one adopted something. -/
theorem Hosted.clashes_iff (hS : Hosted owner h d S) (hno : ¬ S.Clashes d) (hp : Patch h d S S')
    {T : Serving} (hs : Relation.ReflTransGen (Step h) S' T) (hlatest : T.latest d = S'.latest d) :
    T.Clashes d ↔ S.Adopts d S' := by
  obtain ⟨hS', hslots, hcase⟩ := hS.patch hp
  obtain ⟨-, hm, -⟩ := hS'.steps hs
  have hc : T.canonical d = S.canonical d := by
    rw [hS'.canonical_eq hs hlatest, canonical, canonical, hslots]
  have hl : T.latest d = S.latest d := by rw [hlatest, latest, latest, hslots]
  cases hcase with
  | idle alone follows =>
    refine iff_of_false ?_ ?_
    · rintro ⟨c, l, _, _, _, hx, hy, hne, -⟩
      exact hne (alone c l (hc ▸ hx) (hl ▸ hy))
    · rintro ⟨c, id, hx, hnone, hsome⟩
      obtain ⟨l, -, hover⟩ := hS.exists_latest hx
      rw [follows.registry c hover.canonical_bound hover.canonical_complete] at hsome
      exact hsome hnone
  | @merged c l all hx hy hne hover hmerged =>
    have hover' : S'.moment.HandedOver owner c l := by
      refine hS'.handedOver ?_ ?_
      · rw [canonical, hslots, ← canonical, hx]
      · rw [latest, hslots, ← latest, hy]
    have hregistry (w) (hw : w = c ∨ w = l) :
        T.moment.store.registry w = S'.moment.store.registry w := by
      rcases hw with rfl | rfl
      · exact hm.registry _ hover'.canonical_bound hover'.canonical_complete
      · exact hm.registry _ hover'.latest_bound hover'.latest_complete
    have hiff := hmerged.clash_iff hne fun id o n h => hno ⟨c, l, id, o, n, hx, hy, hne, h⟩
    refine ⟨?_, ?_⟩
    · rintro ⟨c', l', id, o, n, hx', hy', -, hclash⟩
      obtain rfl : c = c' := Option.some.inj (hx.symm.trans (hc ▸ hx'))
      obtain rfl : l = l' := Option.some.inj (hy.symm.trans (hl ▸ hy'))
      obtain ⟨i, hnone, hsome⟩ := hiff.1 ⟨id, o, n,
        hclash.congr (hregistry c (.inl rfl)).symm (hregistry l (.inr rfl)).symm⟩
      exact ⟨c, i, hx, hnone, hsome⟩
    · rintro ⟨c', id, hx', hnone, hsome⟩
      obtain rfl : c = c' := Option.some.inj (hx.symm.trans hx')
      obtain ⟨i, o, n, hclash⟩ := hiff.2 ⟨id, hnone, hsome⟩
      exact ⟨c, l, i, o, n, hc.trans hx, hl.trans hy, hne,
        hclash.congr (hregistry c (.inl rfl)) (hregistry l (.inr rfl))⟩

theorem Hosted.sameDelegates_congr (hS : Hosted owner h d S) {T : Serving}
    (hs : Relation.ReflTransGen (Step h) S T) (hlatest : T.latest d = S.latest d) (T' : Serving) :
    S.SameDelegates d T' ↔ T.SameDelegates d T' := by
  obtain ⟨-, hm, -⟩ := hS.steps hs
  unfold SameDelegates
  rw [hS.canonical_eq hs hlatest]
  refine forall₂_congr fun c hc => ?_
  obtain ⟨l, -, hover⟩ := hS.exists_latest hc
  rw [hm.registry c hover.canonical_bound hover.canonical_complete]
  refine forall₂_congr fun id r => forall₂_congr fun hr k => ?_
  rw [hS.sameDelegates_carries hm c hc hr k]

theorem canonical_start {s₀ s : Store} {name : String} (hs : newEsmHost name s₀ = some (h, s)) :
    canonical s₀.data.length ⟨⟨s, []⟩, []⟩ = none := by
  cases hs
  simp only [canonical, Store.slots, List.getElem?_concat_length, Option.getD_some]
  rfl

/-- On a run of a host all canonical proxies come to functions exactly if no patch meets a cell that
the latest registry shares with the canonical one. While no other module is handed over, the patch
that follows a patch does so, and moves a proxy, exactly if the first one adopted an id. -/
theorem proxies_end_iff {s₀ s : Store} {name : String} {h : HostId}
    (hs : newEsmHost name s₀ = some (h, s)) {run : List Serving}
    (hrun : List.IsChain (Next h) (⟨⟨s, []⟩, []⟩ :: run)) :
    let d := s₀.data.length
    ((∀ S ∈ run, S.EndsAll d) ↔
      List.IsChain (fun S S' => ¬ (Patch h d S S' ∧ S.Clashes d)) (⟨⟨s, []⟩, []⟩ :: run)) ∧
    ∀ S ∈ ⟨⟨s, []⟩, []⟩ :: run, ∀ S' T T', S.EndsAll d → Patch h d S S' → S'.EndsAll d →
      Relation.ReflTransGen (Step h) S' T → T.latest d = S'.latest d → Patch h d T T' →
        (T.Clashes d ↔ S.Adopts d S') ∧ (S'.SameDelegates d T' ↔ ¬ S.Adopts d S') := by
  intro d
  have hstart : Hosted (fun _ => (0, "")) h d ⟨⟨s, []⟩, []⟩ := .start hs
  refine ⟨hstart.endsAll_run (fun c hc => ?_) hrun,
    fun S hS S' T T' he hp he' hsteps hlatest hp' => ?_⟩
  · rw [canonical_start hs] at hc
    cases hc
  · obtain ⟨owner, hS⟩ := hstart.of_run hrun S hS
    obtain ⟨hS', -⟩ := hS.patch hp
    obtain ⟨⟨owner', hT⟩, -⟩ := hS'.steps hsteps
    have hclash := hS.clashes_iff ((hS.endsAll_patch he hp).1 he') hp hsteps hlatest
    refine ⟨hclash, ?_⟩
    rw [hS'.sameDelegates_congr hsteps hlatest, ← hclash]
    exact hT.sameDelegates_iff (hS'.endsAll_steps he' hsteps)
      (fun c l => hS.upToDate hp hsteps hlatest) hp'

def after (m : Machine α) (S : Serving) : Serving :=
  ⟨⟨S.moment.store.after m, S.moment.filling⟩, S.taken⟩

def create (S : Serving) : Serving :=
  ⟨⟨S.moment.store.after (addRegistry {}),
    S.moment.store.registries.length :: S.moment.filling⟩, S.taken⟩

def refresh (h : HostId) (w : RegistryId) (S : Serving) : Serving :=
  ⟨⟨S.moment.store.after (refreshEsm {} processGate h w), S.moment.filling.filter (· ≠ w)⟩, S.taken⟩

def take (h : HostId) (S : Serving) : Serving :=
  ⟨⟨S.moment.store.after (takeAccepts h), S.moment.filling⟩,
    ((takeAccepts h S.moment.store).map Prod.fst).getD [] ++ S.taken⟩

def patch (h : HostId) (d : DataId) (S : Serving) : Serving :=
  ⟨⟨S.moment.store.after (runAccept h (some "m") (.patch d)), S.moment.filling⟩,
    .patch d :: S.taken⟩

def start : Serving := ⟨⟨Store.after {} (newEsmHost "m"), []⟩, []⟩

def through : List (Serving → Serving) → Serving → List Serving
  | [], _ => []
  | move :: moves, S => move S :: through moves (move S)

def twice : List Serving := through [
  after (Action.function "A" "A" false (Timeline.constant "A").body).run,
  create, after (Machine.register 0 "Foo" 0 {}), refresh 0 0,
  create, after (Machine.register 1 "Foo" 0 {}), after (Machine.register 1 "Bar" 0 {}), refresh 0 1,
  take 0, patch 0 0, patch 0 0] start

theorem twice_run : List.IsChain (Next 0) (start :: twice) :=
  .cons_cons (.inl (.go (.act (.function "A" "A" false (Timeline.constant "A").body) rfl))) <|
  .cons_cons (.inl (.go (.create rfl))) <|
  .cons_cons (.inl (.go (.register "Foo" {} (List.mem_cons_self ..) ⟨_, rfl, trivial⟩ rfl))) <|
  .cons_cons (.inl (.refresh {} processGate (List.mem_cons_self ..) rfl)) <|
  .cons_cons (.inl (.go (.create rfl))) <|
  .cons_cons (.inl (.go (.register "Foo" {} (List.mem_cons_self ..) ⟨_, rfl, trivial⟩ rfl))) <|
  .cons_cons (.inl (.go (.register "Bar" {} (List.mem_cons_self ..) ⟨_, rfl, trivial⟩ rfl))) <|
  .cons_cons (.inl (.refresh {} processGate (List.mem_cons_self ..) rfl)) <|
  .cons_cons (.inl (.take rfl)) <|
  .cons_cons (.inr ⟨0, .accept "m" (List.mem_cons_self ..) rfl⟩) <|
  .cons_cons (.inr ⟨0, .accept "m" (List.mem_cons_self ..) rfl⟩) (.singleton _)

/-- The second callback closes a cycle. -/
theorem proxies_end_not_in_twice :
    newEsmHost "m" {} = some (0, start.moment.store) ∧ List.IsChain (Next 0) (start :: twice) ∧
      ¬ ∀ S ∈ twice, S.EndsAll 0 := by
  have hs : newEsmHost "m" {} = some (0, start.moment.store) := rfl
  refine ⟨hs, twice_run, fun he => ?_⟩
  have hno := (proxies_end_iff hs twice_run).1.1 he
  simp only [twice, through, List.isChain_cons_cons] at hno
  obtain ⟨-, -, -, -, -, -, -, -, -, -, hno, -⟩ := hno
  exact hno ⟨.accept "m" (List.mem_cons_self ..) rfl,
    0, 1, "Bar", _, _, rfl, rfl, by decide, rfl, rfl, by decide, rfl⟩

end Serving

end HotSwap
