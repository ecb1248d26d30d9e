import Mathlib.Logic.Relation
import HotSwap.Proofs.Edit.Reconcile
/-!
# Evaluating modules

Evaluations of modules fill fresh registries, one or several at a time, while the program goes on.
Each registration makes a cell of its own; `owner` remembers for which registry and id.
-/

namespace HotSwap

open Machine

/-- Which components a module may register. -/
structure Admission where
  admits : Store → ComponentId → Prop
  stable : ∀ {s t : Store} {k : ComponentId}, s.Grows t → admits s k → admits t k

namespace Admission

def all : Admission := ⟨fun _ _ => True, fun _ _ => trivial⟩

def functions (P : ComponentId → LinkedTemplate → Prop) : Admission where
  admits s k := ∃ f, s.components[k]? = some (.function f) ∧ P k f.body
  stable hg := by
    rintro ⟨f, hf, hP⟩
    obtain ⟨g, hg, e⟩ := hg.function hf
    exact ⟨g, hg, by rwa [e.body]⟩

end Admission

/-- A program, and the registries that are being filled. -/
structure Moment where
  store : Store
  filling : List RegistryId

namespace Moment

/-- One step of a program or of the evaluation of a module. -/
inductive Step (A : Admission) : Moment → Moment → Prop
  | act {s t : Store} {ws : List RegistryId} (a : Action) (h : a.run s = some ((), t)) :
    Step A ⟨s, ws⟩ ⟨t, ws⟩
  | create {s t : Store} {ws : List RegistryId} {w : RegistryId}
    (h : addRegistry {} s = some (w, t)) : Step A ⟨s, ws⟩ ⟨t, w :: ws⟩
  | register {s t : Store} {ws : List RegistryId} {w : RegistryId} {k proxy : ComponentId}
    (id : String) (o : RegistrationOptions) (hw : w ∈ ws) (admitted : A.admits s k)
    (h : Machine.register w id k o s = some (proxy, t)) : Step A ⟨s, ws⟩ ⟨t, ws⟩
  | registerContext {s t : Store} {ws : List RegistryId} {w : RegistryId} {c : ContextId}
    (id : String) (context : ContextId) (hw : w ∈ ws)
    (h : Machine.registerContext w id context s = some (c, t)) : Step A ⟨s, ws⟩ ⟨t, ws⟩

end Moment

/-- For which registry and id a cell was made. -/
abbrev Ownership := NodeId → RegistryId × String

/-- A registration as it was made, whatever became of what its cell holds. -/
structure Registration.Stands (A : Admission) (owner : Ownership) (s : Store) (w : RegistryId)
    (id : String) (r : Registration) : Prop where
  named : r.id = id
  owned : owner r.cell = (w, id)
  celled : s.Celled r
  proxy : s.components[r.proxy]? = some (.proxy ⟨id, r.location, r.cell⟩)
  component : A.admits s r.component

namespace Registration.Stands

variable {A : Admission} {owner owner' : Ownership} {s t : Store} {w : RegistryId} {id : String}
  {r : Registration}

theorem grows (h : r.Stands A owner s w id) (hg : s.Grows t) : r.Stands A owner t w id where
  named := h.named
  owned := h.owned
  celled := hg.celled h.celled
  proxy := hg.proxy h.proxy
  component := A.stable hg h.component

theorem congr (h : r.Stands A owner s w id) (ho : owner' r.cell = owner r.cell) :
    r.Stands A owner' s w id :=
  { h with owned := ho.trans h.owned }

theorem cell_lt (h : r.Stands A owner s w id) : r.cell < s.nodes.length := by
  obtain ⟨k, hk⟩ := h.celled
  exact (List.getElem?_eq_some_iff.1 hk).1

end Registration.Stands

def Registry.Stands (A : Admission) (owner : Ownership) (s : Store) (w : RegistryId)
    (m : Registry) : Prop :=
  ∀ ⦃id r⦄, m.components.get? id = some r → r.Stands A owner s w id

theorem Registry.Stands.grows {A : Admission} {owner : Ownership} {s t : Store} {w : RegistryId}
    {m : Registry} (h : m.Stands A owner s w) (hg : s.Grows t) : m.Stands A owner t w :=
  fun _ _ hr => (h hr).grows hg

theorem Registry.Stands.labelled {A : Admission} {owner : Ownership} {s : Store} {w : RegistryId}
    {m : Registry} (h : m.Stands A owner s w) :
    Components.Labelled (fun n => (owner n).2) s m.components :=
  fun _ _ hr => ⟨(h hr).celled, congrArg Prod.snd (h hr).owned⟩

def Registry.Untouched (s : Store) (m : Registry) : Prop :=
  ∀ ⦃id r⦄, m.components.get? id = some r → s.nodes[r.cell]? = some (.cell (some r.component))

namespace Moment

/-- Everything stands in the registries that are being filled, and no cell of theirs was redirected. -/
structure Sound (A : Admission) (owner : Ownership) (m : Moment) : Prop where
  bound : ∀ w ∈ m.filling, w < m.store.registries.length
  stands : ∀ w ∈ m.filling, (m.store.registry w).Stands A owner m.store w
  untouched : ∀ w ∈ m.filling, (m.store.registry w).Untouched m.store

/-- What stays as it is: what cells hold, and registries that are complete. -/
structure Carries (m m' : Moment) : Prop where
  grows : m.store.Grows m'.store
  content : ∀ {n : NodeId} {k : Option ComponentId}, m.store.nodes[n]? = some (.cell k) →
    m'.store.nodes[n]? = some (.cell k)
  bound : m.store.registries.length ≤ m'.store.registries.length
  filling : ∀ w ∈ m'.filling, w ∈ m.filling ∨ m.store.registries.length ≤ w
  registry : ∀ w < m.store.registries.length, w ∉ m.filling →
    m'.store.registry w = m.store.registry w

structure Keeps (m m' : Moment) : Prop extends Carries m m' where
  data : m'.store.data = m.store.data
  hosts : m'.store.hosts = m.store.hosts

theorem Carries.refl (m : Moment) : m.Carries m :=
  ⟨.refl _, id, Nat.le_refl _, fun _ => .inl, fun _ _ _ => rfl⟩

theorem Carries.notMem {m m' : Moment} (h : m.Carries m') {w : RegistryId}
    (hb : w < m.store.registries.length) (hw : w ∉ m.filling) : w ∉ m'.filling :=
  fun hm => (h.filling w hm).elim hw (Nat.not_le_of_lt hb)

theorem Carries.trans {m m' m'' : Moment} (h : m.Carries m') (h' : m'.Carries m'') :
    m.Carries m'' where
  grows := h.grows.trans h'.grows
  content hn := h'.content (h.content hn)
  bound := Nat.le_trans h.bound h'.bound
  filling w hw := (h'.filling w hw).elim (h.filling w) fun hb => .inr (Nat.le_trans h.bound hb)
  registry w hb hw := (h'.registry w (Nat.lt_of_lt_of_le hb h.bound) (h.notMem hb hw)).trans
    (h.registry w hb hw)

end Moment

theorem Store.registry_append {s : Store} {r : Registry} {w : RegistryId}
    (h : w < s.registries.length) :
    ((s.registries ++ [r])[w]?).getD {} = s.registry w := by
  rw [List.getElem?_append_left h, Store.registry]

theorem Store.registry_set {s : Store} {c : RegistryId} (r : Registry)
    (h : c < s.registries.length) (w : RegistryId) :
    ((s.registries.set c r)[w]?).getD {} = if w = c then r else s.registry w := by
  split
  · subst w
    rw [List.getElem?_set_self h]
    rfl
  · rw [List.getElem?_set_ne (Ne.symm ‹_›), Store.registry]

theorem Store.Steady.keeps {s t : Store} (h : s.Steady t) (ws : List RegistryId) :
    Moment.Keeps ⟨s, ws⟩ ⟨t, ws⟩ where
  grows := h.toGrows
  content := h.content
  bound := Nat.le_of_eq (congrArg List.length h.registries).symm
  filling _ hw := .inl hw
  registry w _ _ := by simp only [Store.registry, h.registries]
  data := h.data
  hosts := h.hosts

/-- Registries may be handed over, and whatever else changes as long as nothing is registered in
those that are still being filled, and their cells are left alone. -/
theorem Moment.Sound.carry {A : Admission} {owner : Ownership} {s t : Store}
    {ws ws' : List RegistryId} (hm : Moment.Sound A owner ⟨s, ws⟩) (hsub : ws' ⊆ ws)
    (hg : s.Grows t) (hb : s.registries.length ≤ t.registries.length)
    (hreg : ∀ w ∈ ws', t.registry w = s.registry w)
    (hcell : ∀ w ∈ ws', ∀ id r, (s.registry w).components.get? id = some r →
      s.nodes[r.cell]? = some (.cell (some r.component)) →
        t.nodes[r.cell]? = some (.cell (some r.component))) :
    Moment.Sound A owner ⟨t, ws'⟩ where
  bound w hw := Nat.lt_of_lt_of_le (hm.bound w (hsub hw)) hb
  stands w hw := by
    dsimp only
    rw [hreg w hw]
    exact (hm.stands w (hsub hw)).grows hg
  untouched w hw id r hr := by
    dsimp only at hr ⊢
    rw [hreg w hw] at hr
    exact hcell w hw id r hr (hm.untouched w (hsub hw) hr)

theorem Moment.Sound.steady {A : Admission} {owner : Ownership} {s t : Store}
    {ws : List RegistryId} (hm : Moment.Sound A owner ⟨s, ws⟩) (h : s.Steady t) :
    Moment.Sound A owner ⟨t, ws⟩ :=
  hm.carry (List.Subset.refl ws) h.toGrows (h.keeps ws).bound
    (fun w _ => by simp only [Store.registry, h.registries]) fun _ _ _ _ _ hc => h.content hc

theorem Moment.Sound.filter {A : Admission} {owner : Ownership} {s : Store} {ws : List RegistryId}
    (hm : Moment.Sound A owner ⟨s, ws⟩) (p : RegistryId → Bool) :
    Moment.Sound A owner ⟨s, ws.filter p⟩ :=
  hm.carry List.filter_sublist.subset (.refl s) (Nat.le_refl _) (fun _ _ => rfl)
    fun _ _ _ _ _ => id

namespace Machine

def nextRegistration (s : Store) (id : String) (k : ComponentId) (o : RegistrationOptions) :
    Registration where
  id := id
  component := k
  proxy := s.components.length
  cell := s.nodes.length
  signature := o.signature
  dependencies := o.paired
  location := o.location

theorem register_eq_some {w : RegistryId} {id : String} {k proxy : ComponentId}
    {o : RegistrationOptions} {s t : Store} (h : register w id k o s = some (proxy, t)) :
    proxy = s.components.length ∧ t = { s with
      nodes := s.nodes ++ [.cell (some k)]
      components := s.components ++ [.proxy ⟨id, o.location, s.nodes.length⟩]
      live := .component s.components.length :: .node s.nodes.length :: s.live
      registries := s.registries.set w { s.registry w with
        components := (s.registry w).components.insert id (nextRegistration s id k o) } } := by
  cases h
  exact ⟨rfl, rfl⟩

theorem register_grows {w : RegistryId} {id : String} {k proxy : ComponentId}
    {o : RegistrationOptions} {s t : Store} (h : register w id k o s = some (proxy, t)) :
    s.Grows t := by
  obtain ⟨-, rfl⟩ := register_eq_some h
  exact { Store.Grows.refl s with
    nodes := by simp
    proxy := (getElem?_append_of_some ·)
    function := fun h => ⟨_, getElem?_append_of_some h, .refl _⟩
    cell := fun h => ⟨_, getElem?_append_of_some h⟩
    memo := fun h => ⟨_, getElem?_append_of_some h, rfl⟩
    live := fun hn h => by simpa [Nat.ne_of_lt hn] using h }

theorem components_registerContext {w : RegistryId} {id : String} {k c : ContextId} {s t : Store}
    (h : registerContext w id k s = some (c, t)) (hw : w < s.registries.length) (v : RegistryId) :
    (t.registry v).components = (s.registry v).components := by
  cases h
  refine (congrArg Registry.components (Store.registry_set { s.registry w with
    contexts := (s.registry w).contexts.insert id { id, context := k } } hw v)).trans ?_
  split
  · subst v
    rfl
  · rfl

theorem get?_register {w v : RegistryId} {id l : String} {k proxy : ComponentId}
    {o : RegistrationOptions} {s t : Store} {r : Registration}
    (h : register w id k o s = some (proxy, t)) (hw : w < s.registries.length)
    (hr : (t.registry v).components.get? l = some r) :
    v = w ∧ l = id ∧ r = nextRegistration s id k o ∨
      (s.registry v).components.get? l = some r := by
  obtain ⟨-, ht⟩ := register_eq_some h
  have hset : t.registry v = if v = w then { s.registry w with
      components := (s.registry w).components.insert id (nextRegistration s id k o) }
      else s.registry v := by
    rw [ht]
    exact Store.registry_set _ hw v
  rw [hset] at hr
  split at hr
  · subst v
    rw [OrderedMap.get?_insert] at hr
    split at hr
    · exact .inl ⟨rfl, ‹_›, (Option.some.inj hr).symm⟩
    · exact .inr hr
  · exact .inr hr

end Machine

namespace Moment

variable {A : Admission} {owner : Ownership} {m m' : Moment}

theorem Sound.create {s t : Store} {ws : List RegistryId} {w : RegistryId}
    (hm : Sound A owner ⟨s, ws⟩) (h : addRegistry {} s = some (w, t)) :
    Sound A owner ⟨t, w :: ws⟩ ∧ Keeps ⟨s, ws⟩ ⟨t, w :: ws⟩ := by
  cases h
  have hg : s.Grows { s with
      registries := s.registries ++ [{}], live := .registry s.registries.length :: s.live } :=
    { Store.Grows.refl s with live := fun _ h => by simpa using h }
  have hnew : ((s.registries ++ [({} : Registry)])[s.registries.length]?).getD {} = {} := by simp
  refine ⟨⟨?_, ?_, ?_⟩, ⟨⟨hg, id, by simp, ?_, ?_⟩, rfl, rfl⟩⟩
  · intro w hw
    rcases List.mem_cons.1 hw with rfl | hw
    · simp
    · simpa using Nat.lt_succ_of_lt (hm.bound w hw)
  · intro w hw
    rcases List.mem_cons.1 hw with rfl | hw
    · intro id r hr
      simp only [Store.registry, hnew] at hr
      cases hr
    · simp only [Store.registry, Store.registry_append (hm.bound w hw)]
      exact (hm.stands w hw).grows hg
  · intro w hw
    rcases List.mem_cons.1 hw with rfl | hw
    · intro id r hr
      simp only [Store.registry, hnew] at hr
      cases hr
    · simp only [Store.registry, Store.registry_append (hm.bound w hw)]
      exact hm.untouched w hw
  · intro w hw
    rcases List.mem_cons.1 hw with rfl | hw
    · exact .inr (Nat.le_refl _)
    · exact .inl hw
  · exact fun w hw _ => Store.registry_append hw

theorem Sound.registerContext {s t : Store} {ws : List RegistryId} {w : RegistryId} {id : String}
    {k c : ContextId} (hm : Sound A owner ⟨s, ws⟩) (hw : w ∈ ws)
    (h : Machine.registerContext w id k s = some (c, t)) :
    Sound A owner ⟨t, ws⟩ ∧ Keeps ⟨s, ws⟩ ⟨t, ws⟩ := by
  have hcomp := components_registerContext h (hm.bound w hw)
  cases h
  have hset := Store.registry_set { s.registry w with
    contexts := (s.registry w).contexts.insert id { id, context := k } } (hm.bound w hw)
  have hg : s.Grows { s with registries := s.registries.set w { s.registry w with
      contexts := (s.registry w).contexts.insert id { id, context := k } } } :=
    { Store.Grows.refl s with }
  refine ⟨⟨fun v hv => by simpa using hm.bound v hv, fun v hv id r hr => ?_,
    fun v hv id r hr => ?_⟩, ⟨⟨hg, fun hn => hn, by simp, fun v hv => .inl hv, fun v _ hv => ?_⟩,
    rfl, rfl⟩⟩
  · exact (hm.stands v hv (by rwa [← hcomp v])).grows hg
  · exact hm.untouched v hv (by rwa [← hcomp v])
  · exact (hset v).trans (if_neg (by rintro rfl; exact hv hw))

theorem Sound.register {s t : Store} {ws : List RegistryId} {w : RegistryId} {id : String}
    {k proxy : ComponentId} {o : RegistrationOptions} (hm : Sound A owner ⟨s, ws⟩) (hw : w ∈ ws)
    (hA : A.admits s k) (h : Machine.register w id k o s = some (proxy, t)) :
    ∃ owner' : Ownership, (∀ n < s.nodes.length, owner' n = owner n) ∧
      Sound A owner' ⟨t, ws⟩ ∧ Keeps ⟨s, ws⟩ ⟨t, ws⟩ := by
  obtain ⟨-, ht⟩ := register_eq_some h
  have hnodes : t.nodes = s.nodes ++ [.cell (some k)] := by rw [ht]
  have hcomponents : t.components = s.components ++ [.proxy ⟨id, o.location, s.nodes.length⟩] := by
    rw [ht]
  have hbound : t.registries.length = s.registries.length := by rw [ht]; simp
  have hg := register_grows h
  have hkeep {n : NodeId} {k : Option ComponentId} (hn : s.nodes[n]? = some (.cell k)) :
      t.nodes[n]? = some (.cell k) := by
    rw [hnodes]
    exact getElem?_append_of_some hn
  refine ⟨fun n => if n = s.nodes.length then (w, id) else owner n,
    fun n hn => if_neg (Nat.ne_of_lt hn), ⟨fun v hv => ?_, fun v hv l r hr => ?_,
    fun v hv l r hr => ?_⟩, ⟨⟨hg, hkeep, Nat.le_of_eq hbound.symm, fun v hv => .inl hv,
    fun v _ hv => ?_⟩, by rw [ht], by rw [ht]⟩⟩
  · rw [hbound]
    exact hm.bound v hv
  · rcases get?_register h (hm.bound w hw) hr with ⟨rfl, rfl, rfl⟩ | hr
    · exact ⟨rfl, if_pos rfl, ⟨some k, by simp [hnodes, nextRegistration]⟩,
        by simp [hcomponents, nextRegistration], A.stable hg hA⟩
    · have hs := hm.stands v hv hr
      exact (hs.congr (if_neg (Nat.ne_of_lt hs.cell_lt))).grows hg
  · rcases get?_register h (hm.bound w hw) hr with ⟨rfl, rfl, rfl⟩ | hr
    · simp [hnodes, nextRegistration]
    · exact hkeep (hm.untouched v hv hr)
  · rw [ht]
    exact (Store.registry_set _ (hm.bound w hw) v).trans (if_neg (by rintro rfl; exact hv hw))

theorem Sound.step (hm : m.Sound A owner) (h : Step A m m') :
    ∃ owner' : Ownership, (∀ n < m.store.nodes.length, owner' n = owner n) ∧
      m'.Sound A owner' ∧ m.Keeps m' := by
  cases h with
  | act a h => exact ⟨owner, fun _ _ => rfl, hm.steady (a.run_steady h), (a.run_steady h).keeps _⟩
  | create h => exact ⟨owner, fun _ _ => rfl, hm.create h⟩
  | register id o hw hA h => exact hm.register hw hA h
  | registerContext id c hw h => exact ⟨owner, fun _ _ => rfl, hm.registerContext hw h⟩

end Moment

end HotSwap
