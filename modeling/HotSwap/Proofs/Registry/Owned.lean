import HotSwap.Proofs.Registry.Report
/-!
# Registries over time

Modules register components and contexts, registrations are redirected, and registries are
reconciled, in any order and any number of times. Whatever happens, a cell is made for one id and
stays with that id: `Store.Owned` remembers for which, and everything that is said of a registry
rests on it.
-/

namespace HotSwap

open Machine

namespace Store

/-- One step of a program that registers and reconciles. -/
inductive Registering : Store → Store → Prop
  | act {s t : Store} (a : Action) (h : a.run s = some ((), t)) : Registering s t
  | create {s t : Store} {w : RegistryId} (h : addRegistry {} s = some (w, t)) : Registering s t
  | register {s t : Store} {w : RegistryId} {k proxy : ComponentId} (id : String)
    (o : RegistrationOptions) (hw : w < s.registries.length)
    (h : Machine.register w id k o s = some (proxy, t)) : Registering s t
  | registerContext {s t : Store} {w : RegistryId} {c : ContextId} (id : String)
    (context : ContextId) (hw : w < s.registries.length)
    (h : Machine.registerContext w id context s = some (c, t)) : Registering s t
  | update {s t : Store} {r : Registration} {k : ComponentId} (hr : s.Celled r)
    (h : redirect r k s = some ((), t)) : Registering s t
  | reconcile {s t : Store} {c w : RegistryId} {report : PatchReport}
    (hc : c < s.registries.length) (h : Machine.reconcile c w s = some (report, t)) :
    Registering s t

def Registered (s : Store) : Prop := Relation.ReflTransGen Registering {} s

end Store

/-- A registration under its id, whichever registry it was made for. -/
structure Registration.Owned (owner : Ownership) (s : Store) (id : String) (r : Registration) :
    Prop where
  stands : ∃ w, r.Stands .all owner s w id
  paired : r.signature.isSome = r.dependencies.isSome

structure Registry.Owned (owner : Ownership) (s : Store) (m : Registry) : Prop where
  components : ∀ ⦃id r⦄, m.components.get? id = some r → r.Owned owner s id
  contexts : ∀ ⦃id c⦄, m.contexts.get? id = some c → c.id = id

def Store.Owned (owner : Ownership) (s : Store) : Prop := ∀ w, (s.registry w).Owned owner s

theorem RegistrationOptions.isSome_paired (o : RegistrationOptions) :
    o.signature.isSome = o.paired.isSome := by
  cases h : o.signature <;> simp [paired, h]

theorem Registration.Stands.patched {A : Admission} {owner : Ownership} {s : Store}
    {w : RegistryId} {id : String} {o : Registration} (h : o.Stands A owner s w id)
    (n : Registration) : (o.patched n).Stands A owner s w id := by
  unfold Registration.patched
  split
  · exact ⟨h.named, h.owned, h.celled, h.proxy, h.component⟩
  · exact h

namespace Registration.Owned

variable {owner owner' : Ownership} {s t : Store} {id : String} {r n : Registration}

theorem named (h : r.Owned owner s id) : r.id = id := by
  obtain ⟨w, hw⟩ := h.stands
  exact hw.named

theorem celled (h : r.Owned owner s id) : s.Celled r := by
  obtain ⟨w, hw⟩ := h.stands
  exact hw.celled

theorem labelled (h : r.Owned owner s id) : (owner r.cell).2 = id := by
  obtain ⟨w, hw⟩ := h.stands
  rw [hw.owned]

theorem proxy (h : r.Owned owner s id) :
    s.components[r.proxy]? = some (.proxy ⟨id, r.location, r.cell⟩) := by
  obtain ⟨w, hw⟩ := h.stands
  exact hw.proxy

theorem grows (h : r.Owned owner s id) (hg : s.Grows t)
    (ho : ∀ n < s.nodes.length, owner' n = owner n) : r.Owned owner' t id where
  stands := by
    obtain ⟨w, hw⟩ := h.stands
    exact ⟨w, (hw.congr (ho _ hw.cell_lt)).grows hg⟩
  paired := h.paired

theorem patched (h : r.Owned owner s id) (hn : n.Owned owner s id) :
    (r.patched n).Owned owner s id where
  stands := by
    obtain ⟨w, hw⟩ := h.stands
    exact ⟨w, hw.patched n⟩
  paired := by
    unfold Registration.patched
    split
    · exact hn.paired
    · exact h.paired

end Registration.Owned

namespace Registry.Owned

variable {owner owner' : Ownership} {s t : Store} {m old new : Registry}

theorem empty : Registry.Owned owner s {} := ⟨by rintro _ _ ⟨⟩, by rintro _ _ ⟨⟩⟩

theorem grows (h : m.Owned owner s) (hg : s.Grows t)
    (ho : ∀ n < s.nodes.length, owner' n = owner n) : m.Owned owner' t :=
  ⟨fun _ _ hr => (h.components hr).grows hg ho, h.contexts⟩

theorem labelled (h : m.Owned owner s) :
    Components.Labelled (fun n => (owner n).2) s m.components :=
  fun _ _ hr => ⟨(h.components hr).celled, (h.components hr).labelled⟩

theorem reconciled {known all : Components} {contexts : Contexts} {report : PatchReport}
    (ho : old.Owned owner s) (hn : new.Owned owner s)
    (rec : Reconciled (fun n => (owner n).2) old.components new.components s known all report t)
    (ext : Registry.Extended old new { components := all, contexts }) :
    Registry.Owned owner t { components := all, contexts } := by
  have hold {id r} (hr : old.components.get? id = some r) : r.Owned owner t id :=
    (ho.components hr).grows rec.patched.rewired.toGrows fun _ _ => rfl
  have hnew {id r} (hr : new.components.get? id = some r) : r.Owned owner t id :=
    (hn.components hr).grows rec.patched.rewired.toGrows fun _ _ => rfl
  have hknown {id r} (hr : known.get? id = some r) : r.Owned owner t id := by
    rw [rec.patched.get] at hr
    split at hr
    · unfold Components.patchedAt at hr
      split at hr
      · cases hr
        exact (hold ‹_›).patched (hnew ‹_›)
      · exact hold hr
    · exact hold hr
  refine ⟨fun id r hr => ?_, fun id c hc => ?_⟩
  · by_cases hrem : report.removed = []
    · rw [(rec.kept hrem).2] at hr
      rcases Option.or_eq_some_iff.1 hr with hr | ⟨-, hr⟩
      · exact hknown hr
      · exact hnew hr
    · rw [(rec.gone hrem).2] at hr
      exact hknown hr
  · rw [ext.context] at hc
    rcases Option.or_eq_some_iff.1 hc with hc | ⟨-, hc⟩
    · exact ho.contexts hc
    · split at hc
      · exact hn.contexts hc
      · cases hc

end Registry.Owned

namespace Machine

variable {s t : Store} {c w : RegistryId} {id : String}

theorem registry_register {k proxy : ComponentId} {o : RegistrationOptions}
    (h : register w id k o s = some (proxy, t)) (hw : w < s.registries.length) (v : RegistryId) :
    t.registry v = if v = w then { s.registry w with
      components := (s.registry w).components.insert id (nextRegistration s id k o) }
      else s.registry v := by
  obtain ⟨-, rfl⟩ := register_eq_some h
  exact Store.registry_set _ hw v

theorem registry_registerContext {context k : ContextId}
    (h : registerContext w id context s = some (k, t)) (hw : w < s.registries.length)
    (v : RegistryId) :
    t.registry v = if v = w then { s.registry w with
      contexts := (s.registry w).contexts.insert id { id, context } } else s.registry v := by
  cases h
  exact Store.registry_set _ hw v

theorem registry_reconcile {u : Store} {m : Registry} (hu : u.registries = s.registries)
    (ht : t = { u with registries := u.registries.set c m }) (hc : c < s.registries.length)
    (v : RegistryId) : t.registry v = if v = c then m else s.registry v := by
  rw [ht, Store.registry, hu]
  exact Store.registry_set m hc v

end Machine

namespace Store.Owned

variable {owner : Ownership} {s t : Store}

theorem empty (owner : Ownership) : Store.Owned owner {} := fun _ => .empty

theorem grows (h : s.Owned owner) (hg : s.Grows t) (hr : t.registries = s.registries) :
    t.Owned owner := by
  intro w
  have hw : t.registry w = s.registry w := by rw [registry, hr, registry]
  rw [hw]
  exact (h w).grows hg fun _ _ => rfl

theorem create {w : RegistryId} (h : s.Owned owner) (hc : addRegistry {} s = some (w, t)) :
    t.Owned owner := by
  cases hc
  intro v
  have hg : s.Grows { s with
      registries := s.registries ++ [{}], live := .registry s.registries.length :: s.live } :=
    { Grows.refl s with live := fun _ h => by simpa using h }
  by_cases hv : v < s.registries.length
  · simp only [registry, registry_append hv]
    exact (h v).grows hg fun _ _ => rfl
  · have hnew : ((s.registries ++ [({} : Registry)])[v]?).getD {} = {} := by
      rcases Nat.eq_or_lt_of_le (Nat.not_lt.1 hv) with rfl | hlt
      · simp
      · rw [List.getElem?_eq_none (by simpa using Nat.succ_le_of_lt hlt)]
        rfl
    simp only [registry, hnew]
    exact .empty

theorem register {w : RegistryId} {id : String} {k proxy : ComponentId} {o : RegistrationOptions}
    (h : s.Owned owner) (hw : w < s.registries.length)
    (hr : Machine.register w id k o s = some (proxy, t)) : ∃ owner', t.Owned owner' := by
  have hg := register_grows hr
  obtain ⟨-, ht⟩ := register_eq_some hr
  let owner' : Ownership := fun n => if n = s.nodes.length then (w, id) else owner n
  have hown : ∀ n < s.nodes.length, owner' n = owner n := fun n hn => if_neg (Nat.ne_of_lt hn)
  have hnew : (nextRegistration s id k o).Owned owner' t id := by
    refine ⟨⟨w, rfl, if_pos rfl, ⟨some k, ?_⟩, ?_, trivial⟩, o.isSome_paired⟩
    · simp [ht, nextRegistration]
    · simp [ht, nextRegistration]
  refine ⟨owner', fun v => ⟨fun l r hl => ?_, fun l c hl => ?_⟩⟩
  · rcases get?_register hr hw hl with ⟨rfl, rfl, rfl⟩ | hl
    · exact hnew
    · exact ((h v).components hl).grows hg hown
  · rw [registry_register hr hw] at hl
    split at hl
    · exact (h w).contexts hl
    · exact (h v).contexts hl

theorem registerContext {w : RegistryId} {id : String} {context c : ContextId}
    (h : s.Owned owner) (hw : w < s.registries.length)
    (hr : Machine.registerContext w id context s = some (c, t)) : t.Owned owner := by
  have hg : s.Grows t := by
    cases hr
    exact { Grows.refl s with }
  intro v
  rw [registry_registerContext hr hw]
  split
  · refine ⟨fun l r hl => ((h w).components hl).grows hg fun _ _ => rfl, fun l c hl => ?_⟩
    rw [OrderedMap.get?_insert] at hl
    split at hl
    · cases hl
      exact Eq.symm ‹_›
    · exact (h w).contexts hl
  · exact (h v).grows hg fun _ _ => rfl

theorem reconcile {c w : RegistryId} {report : PatchReport} (h : s.Owned owner)
    (hc : c < s.registries.length) (hr : Machine.reconcile c w s = some (report, t)) :
    t.Owned owner := by
  obtain ⟨u, known, all, contexts, rec, ht, ext, -⟩ :=
    reconcile_report (h c).labelled (h w).labelled
      (fun _ _ ho => ((h c).components ho).named) hr
  have hg : s.Grows t := by
    rw [ht]
    exact { rec.patched.rewired.toGrows with }
  intro v
  rw [registry_reconcile rec.patched.rewired.registries ht hc]
  split
  · have hs := (h c).reconciled (h w) rec ext
    exact hs.grows (by rw [ht]; exact { Grows.refl u with }) fun _ _ => rfl
  · exact (h v).grows hg fun _ _ => rfl

theorem step (h : s.Owned owner) (hs : Registering s t) : ∃ owner', t.Owned owner' := by
  cases hs with
  | act a ha => exact ⟨owner, h.grows (a.run_steady ha).toGrows (a.run_steady ha).registries⟩
  | create hc => exact ⟨owner, h.create hc⟩
  | register id o hw hr => exact h.register hw hr
  | registerContext id context hw hr => exact ⟨owner, h.registerContext hw hr⟩
  | update hr hu =>
    have hw := redirect_rewired hr hu
    exact ⟨owner, h.grows hw.toGrows hw.registries⟩
  | reconcile hc hr => exact ⟨owner, h.reconcile hc hr⟩

end Store.Owned

theorem Store.Registered.owned {s : Store} (h : s.Registered) : ∃ owner, s.Owned owner := by
  induction h with
  | refl => exact ⟨fun _ => (0, ""), .empty _⟩
  | tail _ hs ih =>
    obtain ⟨owner, ih⟩ := ih
    exact ih.step hs

end HotSwap
