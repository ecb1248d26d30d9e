import HotSwap.Proofs.Host.Requests
import HotSwap.Proofs.Transport.Reconciles
/-!
# The hosts agree

Version after version both hosts leave what reconciling each version into the first leaves, and ask
for more than their acceptance exactly when that reconciliation demands a reload.
-/

namespace HotSwap

open Machine

namespace Store

variable {N : NodeId} {R r c : RegistryId} {s s' t u : Store} {h : HostId} {x y : Host} {d : DataId}
  {m : HotData}

theorem Paired.start (fresh : ∀ n, s.nodes.length ≤ n → Edges.readers s.edges n = []) :
    Paired s.nodes.length s.registries.length s s := by
  have start : s.Unread s.nodes.length s.registries.length := by
    refine ⟨fresh, Nat.le_refl _, fun r hr id q hq => ?_⟩
    rw [Store.registry, List.getElem?_eq_none hr] at hq
    cases hq
  exact ⟨⟨rfl, rfl, rfl, rfl, rfl, rfl⟩, start, start⟩

theorem Paired.symm (p : Paired N R s s') : Paired N R s' s := ⟨p.same.symm, p.right, p.left⟩

theorem Paired.aside_left (p : Paired N R s s') (a : s.Aside t) : Paired N R t s' :=
  (p.symm.aside a).symm

theorem aside_notes (s : Store) (hosts : List Host) (data : List HotData)
    (live roots pinned : List Handle) : s.Aside { s with hosts, data, live, roots, pinned } :=
  ⟨⟨rfl, rfl, rfl, rfl, rfl, rfl⟩, fun _ => id⟩

/-- The first version has been evaluated, into the registry `c`. -/
structure Begun (N : NodeId) (R c : RegistryId) (t u : Store) : Prop extends Paired N R t u where
  canonical : R ≤ c
  bound : c < t.registries.length

theorem Begun.next (b : Begun N R c t u) : R ≤ t.registries.length :=
  Nat.le_of_lt (Nat.lt_of_le_of_lt b.canonical b.bound)

/-- The record of a host, and its slots. -/
structure Keeps (s : Store) (h : HostId) (x : Host) (d : DataId) (m : HotData) : Prop where
  host : s.hosts[h]? = some x
  data : x.data = some d
  bound : d < s.data.length
  slots : s.slots d = m

theorem Keeps.congr (k : s.Keeps h x d m) (data : t.data = s.data) (hosts : t.hosts = s.hosts) :
    t.Keeps h x d m where
  host := hosts ▸ k.host
  data := k.data
  bound := data ▸ k.bound
  slots := by simpa only [Store.slots, data] using k.slots

theorem Keeps.withHost (k : s.Keeps h x d m) (y : Host) (hy : y.data = x.data) :
    (s.withHost h y).Keeps h y d m where
  host := withHost_self k.host
  data := hy.trans k.data
  bound := k.bound
  slots := k.slots

theorem Keeps.handOver (k : s.Keeps h x d m) (r : RegistryId) :
    (s.handOver d r).Keeps h x d (m.handOver r) where
  host := k.host
  data := k.data
  bound := by simpa [Store.handOver] using k.bound
  slots := by rw [slots_handOver k.bound, k.slots]

def events (s : Store) (h : HostId) : Option (List HotEvent) := (s.hosts[h]?).map Host.events

end Store

namespace Machine

open Store

variable {N : NodeId} {R : RegistryId} {s t u : Store} {cfg : Config} {h : HostId}
  {x : Host} {d : DataId} {m : HotData} {c r : RegistryId}

theorem load_eq_some {src : Source} {refresh : RegistryId → Machine α} {a : α}
    (he : evaluateModule src s = some (r, t)) (hr : refresh r t = some (a, u)) :
    ∃ v, load src refresh s = some (a, v) ∧ u.Aside v ∧ u.Unnoticed v :=
  ⟨_, bind_eq_some.2 ⟨r, t, he, bind_eq_some.2 ⟨a, u, hr, rfl⟩⟩,
    (aside_notes u _ _ _ (u.roots.erase (.registry r)) _).trans (aside_collect _),
    ⟨rfl, rfl, rfl⟩⟩

theorem load_refreshEsm (dev : cfg.devMode = true) (g : GateId) (p : Paired N R t u)
    (hR : R ≤ t.registries.length) (k : u.Keeps h x d m) (src : Source) :
    ∃ t' u', evaluateModule src t = some (t.registries.length, t') ∧
      load src (refreshEsm cfg g h) u = some ((), u') ∧ Paired N R t' u' ∧ u.Adds u' ∧
      t'.registries.length = t.registries.length + 1 ∧
      u'.Keeps h (x.accepting (.patch d)) d (m.handOver t.registries.length) := by
  obtain ⟨t', u₁, ht', hu₁, p', hlen, data, hosts⟩ := evaluateModule_paired p hR src
  have k₁ := k.congr data hosts
  obtain ⟨u', hu', a', n'⟩ := load_eq_some hu₁
    (refreshEsm_apply dev g k₁.host k₁.data k₁.bound _)
  have noted : u₁.Aside u' := Aside.trans (aside_notes ..) a'
  exact ⟨t', u', ht', hu', p'.aside noted, (evaluateModule_adds hu₁).trans noted.adds, hlen,
    ((k₁.handOver _).withHost (x.accepting _) rfl).congr n'.data n'.hosts⟩

theorem applyUpdate_step (dev : cfg.devMode = true) (g : GateId) (b : Begun N R c t u)
    (k : u.Keeps h x d m) (hm : m.get? currentSlot = some c) (hx : x.acceptCallbacks = [.patch d])
    (src : Source) :
    ∃ report t' u' m', load src (reconcile c) t = some (report, t') ∧
      applyUpdate h (load src (refreshEsm cfg g h)) u = some ((), u') ∧ Begun N R c t' u' ∧
      t'.registries.length = t.registries.length + 1 ∧
      Reconciles c u [t.registries.length] [report] u' ∧
      u'.Keeps h (x.recorded (.accepted :: report.requests)) d m' ∧
      m'.get? currentSlot = some c := by
  -- The old callback is taken and held, and the new version brings its own.
  have taken := takeAccepts_apply k.host
  let u₀ : Store := { u.withHost h { x with acceptCallbacks := [] } with
    pinned := .host h :: x.acceptCallbacks.flatMap AcceptCallback.handles ++ u.pinned }
  have a₀ : u.Aside u₀ := aside_notes ..
  obtain ⟨t₁, u₁, ht₁, hu₁, p₁, q₁, hlen, k₁⟩ := load_refreshEsm dev g (b.toPaired.aside a₀) b.next
    ((k.withHost { x with acceptCallbacks := [] } rfl).congr rfl rfl) src
  -- The old callback patches the new registry into the canonical one.
  obtain ⟨report, t₂, u₂, ht₂, hu₂, -, p₂, n₂, n₂'⟩ := reconcile_lockstep b.canonical b.next p₁
  have retired := retire_apply k₁.host
    (by rw [k₁.slots, HotData.handOver_current, hm, Option.getD_some])
    (by rw [k₁.slots, HotData.handOver_previous]) (Nat.ne_of_lt b.bound) hu₂ n₂'.hosts
  obtain ⟨t₃, ht₃, a₃, n₃⟩ := load_eq_some ht₁ ht₂
  let u₃ : Store := { u₂.withHost h (x.recorded (.accepted :: report.requests)) with
    pinned := u.pinned }
  have b₃ : u₂.Aside u₃ := aside_notes ..
  have k₂ := (k₁.congr n₂'.data n₂'.hosts).withHost (x.recorded (.accepted :: report.requests)) rfl
  have longer : t₃.registries.length = t.registries.length + 1 := by
    rw [n₃.registries, n₂.registries, hlen]
  refine ⟨report, t₃, u₃, _, ht₃, ?_, ⟨(p₂.aside b₃).aside_left a₃, b.canonical, ?_⟩, longer,
    .next (a₀.adds.trans q₁) hu₂ (.done b₃.adds), k₂.congr rfl rfl, ?_⟩
  · refine bind_eq_some.2 ⟨_, _, taken, keeping_eq_some.2 ⟨_, ?_, rfl⟩⟩
    refine bind_eq_some.2 ⟨(), u₁, hu₁, bind_eq_some.2 ⟨(), _, hx ▸ retired, ?_⟩⟩
    simp [Host.recorded, Host.accepting, hx]
  · exact longer ▸ Nat.lt_succ_of_lt b.bound
  · rw [HotData.handOver_current, hm, Option.getD_some]

theorem applyUpdate_run (dev : cfg.devMode = true) (g : GateId) (b : Begun N R c t u)
    (k : u.Keeps h x d m) (hm : m.get? currentSlot = some c) (hx : x.acceptCallbacks = [.patch d])
    (later : List Source) :
    ∃ reports t' u' m', (later.mapM fun src => load src (reconcile c)) t = some (reports, t') ∧
      (later.forM fun src => applyUpdate h (load src (refreshEsm cfg g h))) u = some ((), u') ∧
      t'.SameModules u' ∧
      Reconciles c u (List.range' t.registries.length later.length) reports u' ∧
      u'.Keeps h (x.recorded (reports.flatMap fun r => .accepted :: r.requests)) d m' ∧
      m'.get? currentSlot = some c := by
  induction later generalizing t u x m with
  | nil =>
    exact ⟨[], t, u, m, rfl, rfl, b.same, .done (.refl u), by simpa [Host.recorded] using k, hm⟩
  | cons src later ih =>
    obtain ⟨report, t₁, u₁, m₁, ht₁, hu₁, b₁, hlen, rec₁, k₁, hm₁⟩ :=
      applyUpdate_step dev g b k hm hx src
    obtain ⟨reports, t₂, u₂, m₂, ht₂, hu₂, same, rec₂, k₂, hm₂⟩ := ih b₁ k₁ hm₁ hx
    refine ⟨report :: reports, t₂, u₂, m₂, ?_, bind_eq_some.2 ⟨(), u₁, hu₁, hu₂⟩, same,
      rec₁.append (hlen ▸ rec₂), ?_, hm₂⟩
    · rw [List.mapM_cons]
      exact bind_eq_some.2 ⟨_, _, ht₁, bind_eq_some.2 ⟨_, _, ht₂, rfl⟩⟩
    · simpa [Host.recorded] using k₂

theorem load_refreshStandard (dev : cfg.devMode = true) (g : GateId) (p : Paired N R t u)
    (hR : R ≤ t.registries.length) (hx : u.hosts[h]? = some x) (hd : x.data = none)
    (src : Source) :
    ∃ t' u', evaluateModule src t = some (t.registries.length, t') ∧
      load src (refreshStandard cfg g h) u = some ((), u') ∧ Paired N R t' u' ∧ u.Adds u' ∧
      t'.registries.length = t.registries.length + 1 ∧
      u'.hosts[h]? =
        some ((x.disposing (.persist t.registries.length)).recorded [.accepted]) := by
  obtain ⟨t', u₁, ht', hu₁, p', hlen, -, hosts⟩ := evaluateModule_paired p hR src
  have hx₁ : u₁.hosts[h]? = some x := hosts ▸ hx
  obtain ⟨u', hu', a', n'⟩ := load_eq_some hu₁ (refreshStandard_first dev g hx₁ hd _)
  have noted : u₁.Aside u' := Aside.trans (aside_notes ..) a'
  refine ⟨t', u', ht', hu', p'.aside noted, (evaluateModule_adds hu₁).trans noted.adds, hlen, ?_⟩
  rw [n'.hosts, withHost_self hx₁]

theorem nextInstance_step (dev : cfg.devMode = true) (g : GateId) (b : Begun N R c t u)
    (hx : u.hosts[h]? = some x) (hp : x.disposeCallbacks = [.persist c]) (src : Source) :
    ∃ report t' u' y, load src (reconcile c) t = some (report, t') ∧
      nextInstance cfg g h src u = some (u.hosts.length, u') ∧ Begun N R c t' u' ∧
      t'.registries.length = t.registries.length + 1 ∧
      Reconciles c u [t.registries.length] [report] u' ∧
      u'.hosts = u.hosts.set h { x.recorded [.disposed] with disposeCallbacks := [] } ++ [y] ∧
      u'.data = u.data ++ [OrderedMap.empty.insert currentSlot c] ∧ y.data = some u.data.length ∧
      y.events = report.declines cfg ++ [.accepted] ∧ y.disposeCallbacks = [.persist c] := by
  obtain ⟨live, disposed⟩ := dispose_apply hx hp
  let next : Host := { id := x.id, data := some u.data.length }
  let u₀ : Store := { u with
    hosts := u.hosts.set h { x.recorded [.disposed] with disposeCallbacks := [] } ++ [next]
    data := u.data ++ [OrderedMap.empty.insert currentSlot c]
    live, roots := .host u.hosts.length :: u.roots }
  have a₀ : u.Aside u₀ := aside_notes ..
  obtain ⟨t₁, u₁, ht₁, hu₁, p₁, hlen, data, hosts⟩ :=
    evaluateModule_paired (b.toPaired.aside a₀) b.next src
  obtain ⟨report, t₂, u₂, ht₂, hu₂, -, p₂, n₂, n₂'⟩ := reconcile_lockstep b.canonical b.next p₁
  have hnext : u₁.hosts[u.hosts.length]? = some next := by simp [hosts, u₀]
  have left : (u₁.slots u.data.length).get? currentSlot = some c := by
    simp [slots, data, u₀, OrderedMap.get?_insert_self]
  obtain ⟨u₃, hu₃, a₃, n₃⟩ := load_eq_some hu₁
    (refreshStandard_next dev g hnext rfl left hu₂ n₂'.hosts)
  obtain ⟨t₃, ht₃, b₃, m₃⟩ := load_eq_some ht₁ ht₂
  have noted : u₂.Aside u₃ := Aside.trans (aside_notes ..) a₃
  have longer : t₃.registries.length = t.registries.length + 1 := by
    rw [m₃.registries, n₂.registries, hlen]
  refine ⟨report, t₃, u₃,
    (next.disposing (.persist c)).recorded (report.declines cfg ++ [.accepted]), ht₃, ?_,
    ⟨(p₂.aside noted).aside_left b₃, b.canonical, ?_⟩, longer,
    .next (a₀.adds.trans (evaluateModule_adds hu₁)) hu₂ (.done noted.adds), ?_, ?_,
    rfl, rfl, rfl⟩
  · exact bind_eq_some.2 ⟨_, _, disposed,
      bind_eq_some.2 ⟨(), _, rfl, bind_eq_some.2 ⟨(), _, hu₃, rfl⟩⟩⟩
  · exact longer ▸ Nat.lt_succ_of_lt b.bound
  · rw [n₃.hosts]
    simp [withHost, n₂'.hosts, hosts, u₀]
  · rw [n₃.data]
    exact n₂'.data.trans data

/-- The events of the instances from one on that has recorded `before`. -/
def instanceEvents (cfg : Config) : List HotEvent → List PatchReport → List (List HotEvent)
  | before, [] => [before]
  | before, report :: reports =>
    (before ++ [.disposed]) :: instanceEvents cfg (report.declines cfg ++ [.accepted]) reports

theorem runInstances_run (dev : cfg.devMode = true) (g : GateId) (b : Begun N R c t u)
    (hx : u.hosts[h]? = some x) (hp : x.disposeCallbacks = [.persist c]) (later : List Source) :
    ∃ reports t' hs u', (later.mapM fun src => load src (reconcile c)) t = some (reports, t') ∧
      runInstances cfg g h later u = some (h :: hs, u') ∧ t'.SameModules u' ∧
      Reconciles c u (List.range' t.registries.length later.length) reports u' ∧
      (∃ y, u'.hosts[h]? = some y ∧ y.data = x.data) ∧
      (∀ i < u.hosts.length, i ≠ h → u'.hosts[i]? = u.hosts[i]?) ∧
      (∀ d < u.data.length, u'.slots d = u.slots d) ∧
      (h :: hs).map u'.events = (instanceEvents cfg x.events reports).map some ∧
      ∀ i ∈ hs, canonical? i u' = some (some c, u') := by
  induction later generalizing t u h x with
  | nil =>
    exact ⟨[], t, [], u, rfl, rfl, b.same, .done (.refl u), ⟨x, hx, rfl⟩, fun _ _ _ => rfl,
      fun _ _ => rfl, by simp [Store.events, hx, instanceEvents], nofun⟩
  | cons src later ih =>
    obtain ⟨report, t₁, u₁, next, ht₁, hu₁, b₁, hlen, rec₁, hosts, data, hdata, events, persists⟩ :=
      nextInstance_step dev g b hx hp src
    have hlt : h < u.hosts.length := (List.getElem?_eq_some_iff.1 hx).1
    have longer : ∀ i < u.hosts.length, i < u₁.hosts.length := fun i hi => by
      simpa [hosts] using Nat.lt_succ_of_lt hi
    have hnext : u₁.hosts[u.hosts.length]? = some next := by simp [hosts]
    obtain ⟨reports, t₂, hs, u₂, ht₂, hu₂, same, rec₂, ⟨y, hy, hyd⟩, hothers, hslots, hevents,
      hcan⟩ := ih b₁ hnext persists
    have hold : u₂.hosts[h]? = some { x.recorded [.disposed] with disposeCallbacks := [] } := by
      rw [hothers h (longer h hlt) (Nat.ne_of_lt hlt), hosts,
        List.getElem?_append_left (by simpa using hlt), List.getElem?_set_self hlt]
    refine ⟨report :: reports, t₂, u.hosts.length :: hs, u₂, ?_, ?_, same,
      rec₁.append (hlen ▸ rec₂), ⟨_, hold, rfl⟩, ?_, ?_, ?_, ?_⟩
    · rw [List.mapM_cons]
      exact bind_eq_some.2 ⟨_, _, ht₁, bind_eq_some.2 ⟨_, _, ht₂, rfl⟩⟩
    · exact bind_eq_some.2 ⟨_, _, hu₁, bind_eq_some.2 ⟨_, _, hu₂, rfl⟩⟩
    · intro i hi hne
      rw [hothers i (longer i hi) (Nat.ne_of_lt hi), hosts,
        List.getElem?_append_left (by simpa using hi), List.getElem?_set_ne hne.symm]
    · intro d hd
      rw [hslots d (by simp [data]; omega), slots, slots, data, List.getElem?_append_left hd]
    · rw [List.map_cons, hevents, events, Store.events, hold]
      rfl
    · intro i hi
      rcases List.mem_cons.1 hi with rfl | hi
      · rw [canonical?_apply hy (hyd.trans hdata), hslots _ (by simp [data]), slots, data]
        simp [OrderedMap.get?_insert_self]
      · exact hcan i hi

theorem runEsm_agrees (dev : cfg.devMode = true)
    (fresh : ∀ n, s.nodes.length ≤ n → Edges.readers s.edges n = []) (g : GateId) (name : String)
    (first : Source) (later : List Source) :
    ∃ reports t h u, foldVersions first later s = some ((s.registries.length, reports), t) ∧
      runEsm cfg g name first later s = some (h, u) ∧ t.SameModules u ∧
      Reconciles s.registries.length s (List.range' (s.registries.length + 1) later.length) reports
        u ∧
      canonical? h u = some (some s.registries.length, u) ∧
      u.events h = some (.accepted :: reports.flatMap fun r => .accepted :: r.requests) := by
  let x : Host := { id := name, data := some s.data.length }
  let u₀ : Store := { s with
    data := s.data ++ [.empty], hosts := s.hosts ++ [x]
    live := .host s.hosts.length :: .data s.data.length :: s.live
    roots := .host s.hosts.length :: s.roots }
  have a₀ : s.Aside u₀ := aside_notes ..
  have k₀ : u₀.Keeps s.hosts.length x s.data.length .empty := by
    constructor <;> simp [u₀, x, slots]
  obtain ⟨t₁, u₁, ht₁, hu₁, p₁, q₁, hlen, k₁⟩ :=
    load_refreshEsm dev g ((Paired.start fresh).aside a₀) (Nat.le_refl _) k₀ first
  have b₁ : Begun _ _ s.registries.length t₁ u₁ :=
    ⟨p₁, Nat.le_refl _, hlen ▸ Nat.lt_succ_self _⟩
  obtain ⟨reports, t₂, u₂, m, ht₂, hu₂, same, reconciled, k₂, hm⟩ :=
    applyUpdate_run dev g b₁ k₁ (HotData.handOver_current ..) rfl later
  refine ⟨reports, t₂, s.hosts.length, u₂, ?_, ?_, same, ?_, ?_, ?_⟩
  · exact bind_eq_some.2 ⟨_, _, ht₁, bind_eq_some.2 ⟨_, _, ht₂, rfl⟩⟩
  · exact bind_eq_some.2 ⟨s.hosts.length, _, rfl, bind_eq_some.2 ⟨(), u₀, rfl,
      bind_eq_some.2 ⟨(), u₁, hu₁, bind_eq_some.2 ⟨(), u₂, hu₂, rfl⟩⟩⟩⟩
  · exact .of_adds (a₀.adds.trans q₁) (hlen ▸ reconciled)
  · rw [canonical?_apply k₂.host k₂.data, k₂.slots, hm]
  · rw [Store.events, k₂.host]
    rfl

theorem runStandard_agrees (dev : cfg.devMode = true)
    (fresh : ∀ n, s.nodes.length ≤ n → Edges.readers s.edges n = []) (g : GateId) (name : String)
    (first : Source) (later : List Source) :
    ∃ reports t hs u, foldVersions first later s = some ((s.registries.length, reports), t) ∧
      runStandard cfg g name first later s = some (hs, u) ∧ t.SameModules u ∧
      Reconciles s.registries.length s (List.range' (s.registries.length + 1) later.length) reports
        u ∧
      hs.map u.events = (instanceEvents cfg [.accepted] reports).map some ∧
      ∀ i ∈ hs.tail, canonical? i u = some (some s.registries.length, u) := by
  let x : Host := { id := name, data := none }
  let u₀ : Store := { s with
    hosts := s.hosts ++ [x], live := .host s.hosts.length :: s.live
    roots := .host s.hosts.length :: s.roots }
  have a₀ : s.Aside u₀ := aside_notes ..
  have hx₀ : u₀.hosts[s.hosts.length]? = some x := by simp [u₀]
  obtain ⟨t₁, u₁, ht₁, hu₁, p₁, q₁, hlen, hx₁⟩ :=
    load_refreshStandard dev g ((Paired.start fresh).aside a₀) (Nat.le_refl _) hx₀ rfl first
  have b₁ : Begun _ _ s.registries.length t₁ u₁ :=
    ⟨p₁, Nat.le_refl _, hlen ▸ Nat.lt_succ_self _⟩
  obtain ⟨reports, t₂, hs, u₂, ht₂, hu₂, same, reconciled, -, -, -, hevents, hcan⟩ :=
    runInstances_run dev g b₁ hx₁ rfl later
  refine ⟨reports, t₂, s.hosts.length :: hs, u₂, ?_, ?_, same, ?_, hevents, hcan⟩
  · exact bind_eq_some.2 ⟨_, _, ht₁, bind_eq_some.2 ⟨_, _, ht₂, rfl⟩⟩
  · exact bind_eq_some.2 ⟨s.hosts.length, _, rfl, bind_eq_some.2 ⟨(), u₀, rfl,
      bind_eq_some.2 ⟨(), u₁, hu₁, hu₂⟩⟩⟩
  · exact .of_adds (a₀.adds.trans q₁) (hlen ▸ reconciled)

/-- Whatever the versions, both hosts leave what reconciling each later version into the first one
leaves; each is reconciled once, in its turn, and the first one's registry stays the canonical one.
The accept-with-module host records an acceptance for each version, and right after it one
invalidation if the reconciliation demands a reload. Each instance of the dispose-then-accept host
records its acceptance, and right before it what its flavor asks for inline if the reconciliation
demands a reload. -/
theorem hosts_agree (fresh : ∀ n, s.nodes.length ≤ n → Edges.readers s.edges n = [])
    {cfg cfg' : Config} (dev : cfg.devMode = true) (dev' : cfg'.devMode = true) (g g' : GateId)
    (name name' : String) (first : Source) (later : List Source) :
    ∃ c reports t h u instances w,
      foldVersions first later s = some ((c, reports), t) ∧
      runEsm cfg g name first later s = some (h, u) ∧ t.SameModules u ∧
      s.Reconciles c (List.range' (c + 1) later.length) reports u ∧
      canonical? h u = some (some c, u) ∧
      u.events h = some (.accepted :: reports.flatMap fun r => .accepted :: r.requests) ∧
      runStandard cfg' g' name' first later s = some (instances, w) ∧ t.SameModules w ∧
      s.Reconciles c (List.range' (c + 1) later.length) reports w ∧
      (∀ i ∈ instances.tail, canonical? i w = some (some c, w)) ∧
      instances.map w.events = (instanceEvents cfg' [.accepted] reports).map some := by
  obtain ⟨reports, t, h, u, ht, hu, same, reconciled, canonical, events⟩ :=
    runEsm_agrees dev fresh g name first later
  obtain ⟨reports', t', instances, w, ht', hw, same', reconciled', events', canonical'⟩ :=
    runStandard_agrees dev' fresh g' name' first later
  obtain ⟨rfl, rfl⟩ : reports = reports' ∧ t = t' := by simpa [ht] using ht'
  exact ⟨_, reports, t, h, u, instances, w, ht, hu, same, reconciled, canonical, events, hw, same',
    reconciled', canonical', events'⟩

def functions : ComponentId → List String → Source
  | _, [] => []
  | k, name :: names =>
    .function name name true .empty :: .register name k {} :: functions (k + 2) names

def comings : List Source :=
  [functions 4 ["App", "Menu"], functions 8 ["App"], functions 10 ["App", "Menu"]]

theorem reloads_comings :
    (foldVersions (functions 0 ["App", "Menu"]) comings {}).map
      (fun p => p.1.2.map PatchReport.mustReload) = some [false, true, false] := by
  decide +kernel

theorem agreeing_on_comings :
    (∀ n, ({} : Store).nodes.length ≤ n → Edges.readers ({} : Store).edges n = []) ∧
      ({} : Config).devMode = true ∧ ({ transport := .standard } : Config).devMode = true ∧
      ∃ c reports t h u instances w,
        foldVersions (functions 0 ["App", "Menu"]) comings {} = some ((c, reports), t) ∧
        reports.map PatchReport.mustReload = [false, true, false] ∧
        runEsm {} 0 "App" (functions 0 ["App", "Menu"]) comings {} = some (h, u) ∧ t.SameModules u ∧
        Store.Reconciles c {} (List.range' (c + 1) 3) reports u ∧
        canonical? h u = some (some c, u) ∧
        u.events h = some [.accepted, .accepted, .accepted, .invalidated, .accepted] ∧
        runStandard { transport := .standard } 0 "App" (functions 0 ["App", "Menu"]) comings {} =
          some (instances, w) ∧ t.SameModules w ∧
        Store.Reconciles c {} (List.range' (c + 1) 3) reports w ∧
        (∀ i ∈ instances.tail, canonical? i w = some (some c, w)) ∧
        instances.map w.events = [some [.accepted, .disposed], some [.accepted, .disposed],
          some [.reloaded, .accepted, .disposed], some [.accepted]] := by
  have fresh : ∀ n, ({} : Store).nodes.length ≤ n → Edges.readers ({} : Store).edges n = [] :=
    fun _ _ => rfl
  have dev : ({} : Config).devMode = true := rfl
  have dev' : ({ transport := .standard } : Config).devMode = true := rfl
  obtain ⟨c, reports, t, h, u, instances, w, ht, hu, same, reconciled, canonical, events, hw, same',
    reconciled', canonical', events'⟩ :=
    hosts_agree fresh dev dev' 0 0 "App" "App" (functions 0 ["App", "Menu"]) comings
  have reloads : reports.map PatchReport.mustReload = [false, true, false] := by
    simpa [ht] using reloads_comings
  refine ⟨fresh, dev, dev', c, reports, t, h, u, instances, w, ht, reloads, hu, same, reconciled,
    canonical, ?_, hw, same', reconciled', canonical', ?_⟩
  all_goals
    obtain ⟨r₁, _, rfl, h₁, hr⟩ := List.map_eq_cons_iff.1 reloads
    obtain ⟨r₂, _, rfl, h₂, hr⟩ := List.map_eq_cons_iff.1 hr
    obtain ⟨r₃, _, rfl, h₃, hr⟩ := List.map_eq_cons_iff.1 hr
    obtain rfl := List.map_eq_nil_iff.1 hr
  · rw [events]
    simp [PatchReport.requests, h₁, h₂, h₃]
  · have asked : (DeclineTable.strategy .standard .standard true).event = .reloaded := by decide
    rw [events']
    simp [instanceEvents, PatchReport.declines, h₁, h₂, h₃, asked]

end Machine

end HotSwap
