import HotSwap.Proofs.Host.Serving
/-!
# What a host holds

While nothing is patched a host keeps its callbacks, which all patch the slots that the host has, and
the two registries in the slots keep what they were made with. A patch rewires their cells and makes
the canonical registry adopt, cells included, what only the latest one knows.
-/

namespace HotSwap

open Machine

/-- If the callback patches at all then the slots `d`. -/
def AcceptCallback.Serves (d : DataId) (cb : AcceptCallback) : Prop := ∀ d', cb = .patch d' → d' = d

def Store.Hosts (s : Store) (h : HostId) (d : DataId) : Prop :=
  ∃ x, s.hosts[h]? = some x ∧ x.data = some d ∧ ∀ cb ∈ x.acceptCallbacks, cb.Serves d

namespace Store

/-- Something that only the host `h` takes note of. -/
structure Attends (h : HostId) (d : DataId) (s t : Store) : Prop where
  grows : s.Grows t
  nodes : t.nodes = s.nodes
  registries : t.registries = s.registries
  data : t.data = s.data
  hosts : s.Hosts h d → t.Hosts h d

variable {h : HostId} {d : DataId} {s t u : Store}

theorem Attends.refl (h : HostId) (d : DataId) (s : Store) : s.Attends h d s :=
  ⟨.refl s, rfl, rfl, rfl, id⟩

theorem Attends.trans ⦃s t u : Store⦄ (a : s.Attends h d t) (b : t.Attends h d u) :
    s.Attends h d u where
  grows := a.grows.trans b.grows
  nodes := b.nodes.trans a.nodes
  registries := b.registries.trans a.registries
  data := b.data.trans a.data
  hosts := b.hosts ∘ a.hosts

theorem Attends.carries (a : s.Attends h d t) {ws ws' : List RegistryId} (hsub : ws' ⊆ ws) :
    Moment.Carries ⟨s, ws⟩ ⟨t, ws'⟩ where
  grows := a.grows
  content hn := a.nodes ▸ hn
  bound := Nat.le_of_eq (congrArg List.length a.registries).symm
  filling _ hw := .inl (hsub hw)
  registry w _ _ := by simp only [registry, a.registries]

theorem Attends.sound {A : Admission} {owner : Ownership} {ws : List RegistryId}
    (a : s.Attends h d t) (hm : Moment.Sound A owner ⟨s, ws⟩) : Moment.Sound A owner ⟨t, ws⟩ :=
  hm.carry (List.Subset.refl ws) a.grows (a.carries (List.Subset.refl ws)).bound
    (fun w _ => by simp only [registry, a.registries]) fun _ _ _ _ _ hc => a.nodes ▸ hc

theorem Attends.of_gates (gates : List Bool) : s.Attends h d { s with gates } :=
  ⟨{ Grows.refl s with }, rfl, rfl, rfl, id⟩

theorem Attends.of_pinned (pinned : List Handle) : s.Attends h d { s with pinned } :=
  ⟨{ Grows.refl s with }, rfl, rfl, rfl, id⟩

theorem Attends.of_trace (trace : List Event) : s.Attends h d { s with trace } :=
  ⟨{ Grows.refl s with }, rfl, rfl, rfl, id⟩

theorem Attends.of_host {y : Host} (hy : ∀ x, s.hosts[h]? = some x → x.data = some d →
    (∀ cb ∈ x.acceptCallbacks, cb.Serves d) →
      y.data = some d ∧ ∀ cb ∈ y.acceptCallbacks, cb.Serves d) :
    s.Attends h d { s with hosts := s.hosts.set h y } := by
  refine ⟨{ Grows.refl s with }, rfl, rfl, rfl, ?_⟩
  rintro ⟨x, hx, hd, hcb⟩
  obtain ⟨hyd, hycb⟩ := hy x hx hd hcb
  exact ⟨y, List.getElem?_set_self (List.getElem?_eq_some_iff.1 hx).1, hyd, hycb⟩

end Store

namespace Machine

variable {h : HostId} {d : DataId} {s t : Store}

theorem host_apply (h : HostId) (s : Store) :
    host h s = some ((s.hosts[h]?).getD ⟨"", none, [], [], []⟩, s) := rfl

theorem request_attends (h : HostId) (d : DataId) (e : HotEvent) :
    Within (Store.Attends h d) (request h e) (request h e) := by
  refine fun s => .of_eq rfl rfl (.of_host fun x hx hd hcb => ?_)
  rw [hx]
  exact ⟨hd, hcb⟩

theorem acceptWith_attends {cb : AcceptCallback} (hcb : cb.Serves d) :
    Within (Store.Attends h d) (acceptWith h cb) (acceptWith h cb) := by
  refine .bind Store.Attends.trans (request_attends h d _) fun _ s =>
    .of_eq rfl rfl (.of_host fun x hx hd hcbs => ?_)
  rw [hx]
  refine ⟨hd, fun cb' hcb' => ?_⟩
  rcases List.mem_append.1 hcb' with hcb' | hcb'
  · exact hcbs cb' hcb'
  · rwa [List.mem_singleton.1 hcb']

theorem decline_attends (f : Flavor) (shape : Shape) (inlined : Bool) (t : DeclineTable) :
    Within (Store.Attends h d) (decline f shape h inlined t) (decline f shape h inlined t) := by
  unfold decline
  split
  · exact request_attends h d _
  · exact request_attends h d _
  · exact request_attends h d _
  · exact acceptWith_attends nofun
  · exact request_attends h d _

theorem shouldDecline_attends (g : GateId) (devMode : Bool) :
    Within (Store.Attends h d) (shouldDecline g devMode) (shouldDecline g devMode) := by
  unfold shouldDecline
  cases devMode
  · exact fun s => .of_eq rfl rfl (.of_gates _)
  · exact Within.of_pure (Store.Attends.refl h d) false

end Machine

def HotData.handOver (slots : HotData) (w : RegistryId) : HotData :=
  (if slots.contains currentSlot then slots else slots.insert currentSlot w).insert previousSlot w

theorem HotData.handOver_previous (slots : HotData) (w : RegistryId) :
    (slots.handOver w).get? previousSlot = some w := OrderedMap.get?_insert_self ..

theorem HotData.handOver_current (slots : HotData) (w : RegistryId) :
    (slots.handOver w).get? currentSlot = some ((slots.get? currentSlot).getD w) := by
  rw [handOver, OrderedMap.get?_insert_of_ne _ (by decide)]
  cases hc : slots.get? currentSlot with
  | none => simp [OrderedMap.contains, hc, OrderedMap.get?_insert_self]
  | some c => simp [OrderedMap.contains, hc]

def Store.handOver (s : Store) (d : DataId) (w : RegistryId) : Store :=
  { s with data := s.data.set d ((s.slots d).handOver w) }

theorem Store.handOver_grows (s : Store) (d : DataId) (w : RegistryId) : s.Grows (s.handOver d w) :=
  { Grows.refl s with }

theorem Store.slots_handOver {s : Store} {d : DataId} (hd : d < s.data.length) (w : RegistryId) :
    (s.handOver d w).slots d = (s.slots d).handOver w := by
  simp only [slots, handOver, List.getElem?_set_self hd, Option.getD_some]

namespace Machine

variable {h : HostId} {d : DataId} {s t : Store}

theorem handOver_bind (hd : d < s.data.length) (w : RegistryId) (f : Machine α) :
    (do
      let _ ← fillSlot d currentSlot w
      setHotData d ((← hotData d).insert previousSlot w)
      f) s = f (s.handOver d w) := by
  have slots : ∀ u, hotData d u = some (u.slots d, u) := fun _ => rfl
  have set : ∀ m u, setHotData d m u = some ((), { u with data := u.data.set d m }) :=
    fun _ _ => rfl
  simp only [fillSlot, bind_apply, slots, set, Option.bind_some]
  cases hc : (s.slots d).get? currentSlot with
  | some c => simp [Store.handOver, HotData.handOver, OrderedMap.contains, hc]
  | none =>
    have filled (m : HotData) : Store.slots { s with data := s.data.set d m } d = m := by
      simp [Store.slots, List.getElem?_set_self hd]
    simp [Store.handOver, HotData.handOver, OrderedMap.contains, hc, set, filled]

theorem refreshEsm_eq_some {cfg : Config} {g : GateId} {w : RegistryId} (hs : s.Hosts h d)
    (hd : d < s.data.length) (hr : refreshEsm cfg g h w s = some ((), t)) :
    s.Attends h d t ∨ (s.handOver d w).Attends h d t := by
  obtain ⟨declined, u, hu, ht⟩ := bind_eq_some.1 hr
  have a := (shouldDecline_attends (h := h) (d := d) g cfg.devMode s hu).2
  cases declined with
  | true => exact .inl (a.trans (decline_attends _ _ _ _ u ht).2)
  | false =>
    obtain rfl : u = s := by
      unfold shouldDecline at hu
      split at hu <;> cases hu
      rfl
    obtain ⟨x, hx, hxd, -⟩ := hs
    obtain ⟨y, v, hv, ht⟩ := bind_eq_some.1 ht
    rw [host_apply, hx] at hv
    cases hv
    simp only [Option.getD_some, hxd, handOver_bind hd] at ht
    exact .inr (acceptWith_attends (by rintro _ ⟨⟩; rfl) _ ht).2

end Machine

end HotSwap
