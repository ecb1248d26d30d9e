import HotSwap.Proofs.Transport.Drivers
/-!
# Between reconciliations

What only `Adds` to a store touches nothing that was there. What `Reconciles` certain registries
into a canonical one does so with each of them once and in this order, and only adds otherwise.
-/

namespace HotSwap

open Machine

namespace Store

structure Grown (s t : Store) : Prop where
  nodes : s.nodes <+: t.nodes
  components : s.components <+: t.components
  contexts : s.contexts <+: t.contexts
  providers : s.providers <+: t.providers

/-- Of the registries only the last one, `r`, is touched. -/
structure Fills (r : RegistryId) (s t : Store) : Prop extends Grown s t where
  registries : ∀ l m, l.length = r → s.registries = l ++ [m] → ∃ m', t.registries = l ++ [m']

structure Adds (s t : Store) : Prop extends Grown s t where
  registries : s.registries <+: t.registries

/-- The registries `ws` are reconciled into `c`, which gives these reports. -/
inductive Reconciles (c : RegistryId) : Store → List RegistryId → List PatchReport → Store → Prop
  | done {s t : Store} (a : s.Adds t) : Reconciles c s [] [] t
  | next {s t u v : Store} {w : RegistryId} {ws : List RegistryId} {report : PatchReport}
    {reports : List PatchReport} (a : s.Adds t) (hr : reconcile c w t = some (report, u))
    (rest : Reconciles c u ws reports v) : Reconciles c s (w :: ws) (report :: reports) v

variable {r c : RegistryId} {s t u : Store} {ws : List RegistryId} {reports : List PatchReport}

theorem Grown.refl (s : Store) : s.Grown s :=
  ⟨List.prefix_rfl, List.prefix_rfl, List.prefix_rfl, List.prefix_rfl⟩

theorem Grown.trans (h : s.Grown t) (h' : t.Grown u) : s.Grown u where
  nodes := h.nodes.trans h'.nodes
  components := h.components.trans h'.components
  contexts := h.contexts.trans h'.contexts
  providers := h.providers.trans h'.providers

theorem Fills.refl (r : RegistryId) (s : Store) : Fills r s s := ⟨.refl s, fun _ m _ e => ⟨m, e⟩⟩

theorem Fills.trans ⦃s t u : Store⦄ (h : Fills r s t) (h' : Fills r t u) : Fills r s u where
  toGrown := h.toGrown.trans h'.toGrown
  registries l m hl e := by
    obtain ⟨m', e'⟩ := h.registries l m hl e
    exact h'.registries l m' hl e'

theorem Adds.refl (s : Store) : s.Adds s := ⟨.refl s, List.prefix_rfl⟩

theorem Adds.trans (h : s.Adds t) (h' : t.Adds u) : s.Adds u :=
  ⟨h.toGrown.trans h'.toGrown, h.registries.trans h'.registries⟩

theorem Aside.adds (a : s.Aside t) : s.Adds t where
  nodes := a.nodes ▸ List.prefix_rfl
  components := a.components ▸ List.prefix_rfl
  contexts := a.contexts ▸ List.prefix_rfl
  providers := a.providers ▸ List.prefix_rfl
  registries := a.registries ▸ List.prefix_rfl

theorem Reconciles.of_adds (a : s.Adds t) (h : Reconciles c t ws reports u) :
    Reconciles c s ws reports u := by
  cases h with
  | done a' => exact .done (a.trans a')
  | next a' hr rest => exact .next (a.trans a') hr rest

theorem Reconciles.append {ws' : List RegistryId} {reports' : List PatchReport}
    (h : Reconciles c s ws reports t) (h' : Reconciles c t ws' reports' u) :
    Reconciles c s (ws ++ ws') (reports ++ reports') u := by
  induction h with
  | done a => exact h'.of_adds a
  | next a hr _ ih => exact .next a hr (ih h')

end Store

namespace Machine

open Store

variable {r : RegistryId} {s t : Store}

theorem addNode_fills (x : Node) : Within (Fills r) (addNode x) (addNode x) := fun s =>
  .of_eq rfl rfl ⟨{ Grown.refl s with nodes := List.prefix_append .. }, fun _ m _ e => ⟨m, e⟩⟩

theorem addComponent_fills (k : Component) : Within (Fills r) (addComponent k) (addComponent k) :=
  fun s => .of_eq rfl rfl
    ⟨{ Grown.refl s with components := List.prefix_append .. }, fun _ m _ e => ⟨m, e⟩⟩

theorem newContext_fills (v : Json) : Within (Fills r) (newContext v) (newContext v) := fun s =>
  .of_eq rfl rfl ⟨{ Grown.refl s with
    contexts := List.prefix_append .., providers := List.prefix_append .. }, fun _ m _ e => ⟨m, e⟩⟩

theorem setRegistry_fills (m : Registry) :
    Within (Fills r) (setRegistry r m) (setRegistry r m) := by
  refine fun s => .of_eq rfl rfl ⟨{ Grown.refl s with }, fun l old hl e => ⟨m, ?_⟩⟩
  subst hl
  simp [e]

theorem run_fills (st : Statement) : Within (Fills r) (st.run r) (st.run r) := by
  have unit (s : Store) : Fills r s s := .refl r s
  have found : Within (Fills r) (registry r) (registry r) := fun s => .of_eq rfl rfl (unit s)
  cases st with
  | signal v => exact .bind Fills.trans (addNode_fills _) fun _ => .of_pure unit ()
  | memo name body => exact .bind Fills.trans (addNode_fills _) fun _ => .of_pure unit ()
  | effect name body => exact .bind Fills.trans (addNode_fills _) fun _ => .of_pure unit ()
  | function name title dev body =>
    exact .bind Fills.trans (addComponent_fills _) fun _ => .of_pure unit ()
  | context v => exact .bind Fills.trans (newContext_fills v) fun _ => .of_pure unit ()
  | register id k o =>
    have made : Within (Fills r) (newRegistration id k o) (newRegistration id k o) :=
      .bind Fills.trans (addNode_fills _) fun _ =>
        .bind Fills.trans (addComponent_fills _) fun _ => .of_pure unit _
    have registered : Within (Fills r) (Machine.register r id k o) (Machine.register r id k o) :=
      .bind Fills.trans made fun _ => .bind Fills.trans found fun _ =>
        .bind Fills.trans (setRegistry_fills _) fun _ => .of_pure unit _
    exact .bind Fills.trans registered fun _ => .of_pure unit ()
  | registerContext id k =>
    have registered :
        Within (Fills r) (Machine.registerContext r id k) (Machine.registerContext r id k) :=
      .bind Fills.trans found fun _ =>
        .bind Fills.trans (setRegistry_fills _) fun _ => .of_pure unit _
    exact .bind Fills.trans registered fun _ => .of_pure unit ()

theorem evaluateModule_adds {src : Source} (h : evaluateModule src s = some (r, t)) : s.Adds t := by
  obtain ⟨_, u, hu, h⟩ := bind_eq_some.1 h
  cases hu
  obtain ⟨_, v, hv, h⟩ := bind_eq_some.1 h
  cases hv
  obtain ⟨_, w, hw, h⟩ := bind_eq_some.1 h
  cases h
  have run (src : Source) : Within (Fills s.registries.length)
      (src.forM (Statement.run s.registries.length))
      (src.forM (Statement.run s.registries.length)) := by
    induction src with
    | nil => exact .of_pure (Fills.refl _) ()
    | cons st src ih => exact .bind Fills.trans (run_fills st) fun _ => ih
  have filled := (run src _ hw).2
  obtain ⟨m, e⟩ := filled.registries s.registries {} rfl rfl
  exact ⟨{ filled with }, e ▸ List.prefix_append ..⟩

end Machine

end HotSwap
