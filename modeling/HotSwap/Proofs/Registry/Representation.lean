import HotSwap.Proofs.Edit.Ledger
import HotSwap.Proofs.Registry.Owned
/-!
# What a registry stands for

In a registry that came about by registering, redirecting and reconciling, every entry stands under
its own id and has a cell and a proxy of its own. Ids keep their places, and only ever more of them
come behind.
-/

namespace HotSwap

open Machine

namespace OrderedMap

variable {κ υ : Type} [DecidableEq κ]

/-- A value is put under `k`: where `k` stands, or last. -/
structure Puts (old all : OrderedMap κ υ) (k : κ) (v : υ) : Prop where
  keys : all.keys = if k ∈ old.keys then old.keys else old.keys ++ [k]
  self : all.get? k = some v
  others : ∀ l ≠ k, all.get? l = old.get? l

theorem puts_insert (m : OrderedMap κ υ) (k : κ) (v : υ) : m.Puts (m.insert k v) k v where
  keys := by
    split
    · exact m.keys_insert_of_mem v ‹_›
    · rw [keys, m.entries_insert_of_notMem v ‹_›, List.map_append]
      rfl
  self := m.get?_insert_self k v
  others _ h := m.get?_insert_of_ne h v

theorem Puts.precedes {old all : OrderedMap κ υ} {k : κ} {v : υ} (h : old.Puts all k v) :
    old.keys <+: all.keys := by
  rw [h.keys]
  split
  · exact List.prefix_rfl
  · exact List.prefix_append ..

end OrderedMap

/-- Entries stand under their own ids, and what different ids have is different. -/
structure Registry.Represents (s : Store) (m : Registry) : Prop where
  named : ∀ ⦃id r⦄, m.components.get? id = some r → r.id = id
  contextNamed : ∀ ⦃id c⦄, m.contexts.get? id = some c → c.id = id
  paired : ∀ ⦃id r⦄, m.components.get? id = some r →
    (r.signature.isSome ↔ r.dependencies.isSome)
  delegates : ∀ ⦃id r⦄, m.components.get? id = some r →
    s.components[r.proxy]? = some (.proxy ⟨id, r.location, r.cell⟩) ∧ s.Celled r
  apart : ∀ ⦃id r id' r'⦄, m.components.get? id = some r → m.components.get? id' = some r' →
    id ≠ id' → r.cell ≠ r'.cell ∧ r.proxy ≠ r'.proxy

/-- No id of a registry disappears or moves. -/
structure Registry.Precedes (old new : Registry) : Prop where
  components : old.components.keys <+: new.components.keys
  contexts : old.contexts.keys <+: new.contexts.keys

theorem Registry.Precedes.refl (m : Registry) : m.Precedes m :=
  ⟨List.prefix_rfl, List.prefix_rfl⟩

theorem Registry.Precedes.trans {l m n : Registry} (h : l.Precedes m) (h' : m.Precedes n) :
    l.Precedes n :=
  ⟨h.components.trans h'.components, h.contexts.trans h'.contexts⟩

theorem Registry.Extended.precedes {old new all : Registry} (h : Registry.Extended old new all) :
    old.Precedes all :=
  ⟨h.components ▸ List.prefix_append .., h.contexts ▸ List.prefix_append ..⟩

namespace Registration.Owned

variable {owner : Ownership} {s : Store} {id id' : String} {r r' : Registration}

theorem cell_ne (h : r.Owned owner s id) (h' : r'.Owned owner s id') (hne : id ≠ id') :
    r.cell ≠ r'.cell := by
  intro e
  apply hne
  rw [← h.labelled, ← h'.labelled, e]

theorem proxy_ne (h : r.Owned owner s id) (h' : r'.Owned owner s id') (hne : id ≠ id') :
    r.proxy ≠ r'.proxy := by
  intro e
  have hp := h.proxy
  rw [e, h'.proxy] at hp
  simp only [Option.some.injEq, Component.proxy.injEq, Proxy.mk.injEq] at hp
  exact hne hp.1.symm

end Registration.Owned

namespace Store

variable {s t : Store} {w : RegistryId}

theorem held_of_cell {n : NodeId} {k : Option ComponentId} (h : s.nodes[n]? = some (.cell k)) :
    s.held n = k := by
  simp [held, h]

theorem Rewired.held {f : Rewiring} {r : Registration} (h : Rewired f s t) (hr : s.Celled r) :
    t.held r.cell = f r.cell (s.held r.cell) := by
  obtain ⟨k, hk⟩ := hr
  rw [held_of_cell hk, held_of_cell (h.content hk)]

theorem Owned.represents {owner : Ownership} (h : s.Owned owner) (w : RegistryId) :
    (s.registry w).Represents s where
  named _ _ hr := ((h w).components hr).named
  contextNamed := (h w).contexts
  paired _ _ hr := by rw [((h w).components hr).paired]
  delegates _ _ hr := ⟨((h w).components hr).proxy, ((h w).components hr).celled⟩
  apart _ _ _ _ hr hr' hne :=
    ⟨((h w).components hr).cell_ne ((h w).components hr') hne,
      ((h w).components hr).proxy_ne ((h w).components hr') hne⟩

theorem Owned.precedes_reconcile {owner : Ownership} {c : RegistryId} {report : PatchReport}
    (h : s.Owned owner) (hc : c < s.registries.length)
    (hr : Machine.reconcile c w s = some (report, t)) (v : RegistryId) :
    (s.registry v).Precedes (t.registry v) := by
  obtain ⟨u, known, all, contexts, rec, ht, ext, -⟩ :=
    reconcile_report (h c).labelled (h w).labelled
      (fun _ _ ho => ((h c).components ho).named) hr
  rw [registry_reconcile rec.patched.rewired.registries ht hc]
  split
  · subst v
    exact ext.precedes
  · exact .refl _

theorem Owned.precedes {owner : Ownership} (h : s.Owned owner) (hs : Registering s t)
    (v : RegistryId) : (s.registry v).Precedes (t.registry v) := by
  have hsame (hr : t.registries = s.registries) : (s.registry v).Precedes (t.registry v) := by
    rw [registry, registry, hr]
    exact .refl _
  cases hs with
  | act a ha => exact hsame (a.run_steady ha).registries
  | create hc =>
    cases hc
    by_cases hv : v < s.registries.length
    · simp only [registry, registry_append hv]
      exact .refl _
    · have hnone : s.registry v = {} := by
        rw [registry, List.getElem?_eq_none (Nat.not_lt.1 hv)]
        rfl
      rw [hnone]
      exact ⟨List.nil_prefix, List.nil_prefix⟩
  | register id o hw hr =>
    rw [registry_register hr hw]
    split
    · subst v
      exact ⟨(OrderedMap.puts_insert ..).precedes, List.prefix_rfl⟩
    · exact .refl _
  | registerContext id context hw hr =>
    rw [registry_registerContext hr hw]
    split
    · subst v
      exact ⟨List.prefix_rfl, (OrderedMap.puts_insert ..).precedes⟩
    · exact .refl _
  | update hr hu => exact hsame (redirect_rewired hr hu).registries
  | reconcile hc hr => exact h.precedes_reconcile hc hr v

/-- In no run does an id disappear or move. -/
theorem Registered.precedes (h : s.Registered) (hs : Relation.ReflTransGen Registering s t)
    (v : RegistryId) : (s.registry v).Precedes (t.registry v) := by
  induction hs with
  | refl => exact .refl _
  | tail hs step ih =>
    obtain ⟨owner, ho⟩ := Registered.owned (h.trans hs)
    exact ih.trans (ho.precedes step v)

/-- A registry that came about by registering and reconciling, whatever was removed on the way: what
its entries are, and what one more registration, redirection or reconciliation does to them. -/
theorem Registered.representation (h : s.Registered) (hw : w < s.registries.length) :
    (s.registry w).Represents s ∧
    (∀ id k o, ∃ proxy t, Machine.register w id k o s = some (proxy, t) ∧
      ∃ r, OrderedMap.Puts (s.registry w).components (t.registry w).components id r ∧
        (t.registry w).contexts = (s.registry w).contexts ∧
        r.component = k ∧ r.proxy = proxy ∧ r.signature = o.signature ∧ r.location = o.location ∧
        t.held r.cell = some k) ∧
    (∀ id context, ∃ t, Machine.registerContext w id context s = some (context, t) ∧
      OrderedMap.Puts (s.registry w).contexts (t.registry w).contexts id ⟨id, context⟩ ∧
      (t.registry w).components = (s.registry w).components) ∧
    (∀ id r k t, (s.registry w).components.get? id = some r → redirect r k s = some ((), t) →
      t.held r.cell = some k ∧ ∀ v id' r', (s.registry v).components.get? id' = some r' →
        id' ≠ id → t.held r'.cell = s.held r'.cell) ∧
    ∀ v report t, Machine.reconcile w v s = some (report, t) →
      (s.registry w).Precedes (t.registry w) := by
  obtain ⟨owner, hs⟩ := h.owned
  refine ⟨hs.represents w, fun id k o => ?_, fun id context => ?_, fun id r k t hr ht => ?_,
    fun v report t ht => hs.precedes_reconcile hw ht w⟩
  · obtain ⟨proxy, t, ht⟩ : ∃ proxy t, Machine.register w id k o s = some (proxy, t) :=
      ⟨_, _, rfl⟩
    have hreg := registry_register ht hw w
    obtain ⟨rfl, hstore⟩ := register_eq_some ht
    rw [if_pos rfl] at hreg
    refine ⟨_, t, ht, nextRegistration s id k o, ?_, by rw [hreg], rfl, rfl, rfl, rfl, ?_⟩
    · rw [hreg]
      exact OrderedMap.puts_insert ..
    · exact held_of_cell (by simp [hstore, nextRegistration])
  · obtain ⟨t, ht⟩ : ∃ t, Machine.registerContext w id context s = some (context, t) := ⟨_, rfl⟩
    have hreg := registry_registerContext ht hw w
    rw [if_pos rfl] at hreg
    refine ⟨t, ht, ?_, by rw [hreg]⟩
    rw [hreg]
    exact OrderedMap.puts_insert ..
  · have hsr := (hs w).components hr
    have hre := redirect_rewired hsr.celled ht
    refine ⟨?_, fun v id' r' hr' hne => ?_⟩
    · rw [hre.held hsr.celled, Rewiring.point, if_pos rfl]
    · have hsr' := (hs v).components hr'
      rw [hre.held hsr'.celled, Rewiring.point, if_neg (hsr'.cell_ne hsr hne)]

end Store

theorem Timeline.Reached.registered {A : Admission} {T : Timeline} (h : T.Reached A {}) :
    T.moment.store.Registered := by
  induction h with
  | refl => exact .refl
  | tail hT hs ih =>
    obtain ⟨owner, hl⟩ := Timeline.Reached.ledger hT
    cases hs with
    | go hm =>
      cases hm with
      | act a ha => exact ih.tail (.act a ha)
      | create hc => exact ih.tail (.create hc)
      | register id o hw _ hr => exact ih.tail (.register id o (hl.sound.bound _ hw) hr)
      | registerContext id c hw hr => exact ih.tail (.registerContext id c (hl.sound.bound _ hw) hr)
    | first _ => exact ih
    | patch _ hr _ => exact ih.tail (.reconcile (hl.bound _ (List.mem_cons_self ..)) hr)

namespace Store

/-- Two registries in one program, the second of which was reconciled into the first. -/
theorem representation_in_twoVersions :
    Timeline.twoVersions.moment.store.Registered ∧
      1 < Timeline.twoVersions.moment.store.registries.length ∧
      (Timeline.twoVersions.moment.store.registry 0).components.keys = ["Foo"] ∧
      (Timeline.twoVersions.moment.store.registry 0).Represents
        Timeline.twoVersions.moment.store := by
  have h : Timeline.twoVersions.moment.store.Registered :=
    Timeline.Reached.registered (Timeline.twoVersions_reached (A := .all) fun _ _ _ _ => trivial)
  exact ⟨h, by decide, rfl, (h.representation (by decide)).1⟩

end Store

end HotSwap
