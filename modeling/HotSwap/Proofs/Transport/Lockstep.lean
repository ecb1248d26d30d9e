import HotSwap.Proofs.Context.Patch
import HotSwap.Proofs.Evaluation.Readers
import HotSwap.Refresh.Program
/-!
# Modules under two hosts

Two hosts drive the same modules. Their stores have the `SameModules`, and nothing reads the cells
that these make. From such a pair of stores a computation in `Lockstep` gives one answer and another
such pair.
-/

namespace HotSwap

open Machine

/-- All cells are made after the first `N` nodes. -/
def Machine.Components.From (N : NodeId) (m : Components) : Prop :=
  ∀ ⦃id r⦄, m.get? id = some r → N ≤ r.cell

namespace Store

/-- Everything that modules are made of is the same. -/
structure SameModules (s t : Store) : Prop where
  nodes : t.nodes = s.nodes
  components : t.components = s.components
  contexts : t.contexts = s.contexts
  providers : t.providers = s.providers
  tokens : t.tokens = s.tokens
  registries : t.registries = s.registries

/-- Nothing reads a node from `N` on, and these include the cells of all registries from `R` on. -/
structure Unread (s : Store) (N : NodeId) (R : RegistryId) : Prop where
  readers : ∀ n, N ≤ n → Edges.readers s.edges n = []
  nodes : N ≤ s.nodes.length
  cells : ∀ r, R ≤ r → Components.From N (s.registry r).components

structure Paired (N : NodeId) (R : RegistryId) (s s' : Store) : Prop where
  same : s.SameModules s'
  left : s.Unread N R
  right : s'.Unread N R

/-- No registry is made, and no host takes notice. -/
structure Unnoticed (s t : Store) : Prop where
  registries : t.registries.length = s.registries.length
  data : t.data = s.data
  hosts : t.hosts = s.hosts

/-- Something that is no concern of modules. -/
structure Aside (s t : Store) : Prop extends SameModules s t where
  readers : ∀ n, Edges.readers s.edges n = [] → Edges.readers t.edges n = []

variable {N : NodeId} {R : RegistryId} {s s' t u : Store}

theorem SameModules.registry (h : s.SameModules t) (r : RegistryId) :
    t.registry r = s.registry r := by
  simp only [Store.registry, h.registries]

theorem SameModules.trans (h : s.SameModules t) (h' : t.SameModules u) : s.SameModules u where
  nodes := h'.nodes.trans h.nodes
  components := h'.components.trans h.components
  contexts := h'.contexts.trans h.contexts
  providers := h'.providers.trans h.providers
  tokens := h'.tokens.trans h.tokens
  registries := h'.registries.trans h.registries

theorem SameModules.symm (h : s.SameModules t) : t.SameModules s :=
  ⟨h.nodes.symm, h.components.symm, h.contexts.symm, h.providers.symm, h.tokens.symm,
    h.registries.symm⟩

theorem Unnoticed.refl (s : Store) : s.Unnoticed s := ⟨rfl, rfl, rfl⟩

theorem Unnoticed.trans (h : s.Unnoticed t) (h' : t.Unnoticed u) : s.Unnoticed u :=
  ⟨h'.registries.trans h.registries, h'.data.trans h.data, h'.hosts.trans h.hosts⟩

theorem Unread.aside (h : s.Unread N R) (a : s.Aside t) : t.Unread N R where
  readers n hn := a.readers n (h.readers n hn)
  nodes := by simpa only [a.nodes] using h.nodes
  cells r hr := by
    rw [a.toSameModules.registry]
    exact h.cells r hr

theorem Paired.aside (h : Paired N R s s') (a : s'.Aside t) : Paired N R s t :=
  ⟨h.same.trans a.toSameModules, h.left, h.right.aside a⟩

theorem aside_collect (s : Store) : s.Aside s.collect where
  nodes := rfl
  components := rfl
  contexts := rfl
  providers := rfl
  tokens := rfl
  registries := rfl
  readers n h := by
    refine List.eq_nil_iff_forall_not_mem.2 fun r hr => ?_
    have hold := ((Edges.mem_readers_unsubscribeAll _ _).1 hr).1
    rw [h] at hold
    cases hold

theorem Aside.trans (h : s.Aside t) (h' : t.Aside u) : s.Aside u :=
  ⟨h.toSameModules.trans h'.toSameModules, fun n hn => h'.readers n (h.readers n hn)⟩

end Store

open Store

/-- From paired stores `m` answers the same, with property `P`, and leaves paired stores. -/
def Machine.Lockstep (N : NodeId) (R : RegistryId) (P : α → Prop) (m : Machine α) : Prop :=
  ∀ ⦃s s'⦄, Paired N R s s' → ∃ a t t', m s = some (a, t) ∧ m s' = some (a, t') ∧ P a ∧
    Paired N R t t' ∧ s.Unnoticed t ∧ s'.Unnoticed t'

namespace Machine

variable {N : NodeId} {R : RegistryId} {P : α → Prop} {Q : β → Prop}

theorem Lockstep.bind {m : Machine α} {f : α → Machine β} (hm : Lockstep N R P m)
    (hf : ∀ a, P a → Lockstep N R Q (f a)) : Lockstep N R Q (m >>= f) := by
  intro s s' h
  obtain ⟨a, t, t', ht, ht', ha, hp, hk, hk'⟩ := hm h
  obtain ⟨b, u, u', hu, hu', hb, hp', hl, hl'⟩ := hf a ha hp
  exact ⟨b, u, u', bind_eq_some.2 ⟨a, t, ht, hu⟩, bind_eq_some.2 ⟨a, t', ht', hu'⟩, hb, hp',
    hk.trans hl, hk'.trans hl'⟩

theorem Lockstep.pure {a : α} (ha : P a) : Lockstep N R P (Pure.pure a) :=
  fun s s' h => ⟨a, s, s', rfl, rfl, ha, h, .refl s, .refl s'⟩

theorem Lockstep.forM {f : α → Machine Unit} (xs : List α)
    (hf : ∀ x ∈ xs, Lockstep N R (fun _ => True) (f x)) :
    Lockstep N R (fun _ => True) (xs.forM f) := by
  induction xs with
  | nil => exact .pure trivial
  | cons x xs ih =>
    rw [List.forall_mem_cons] at hf
    exact .bind hf.1 fun _ _ => ih hf.2

theorem Lockstep.of_update {m : Machine α} {f : Store → Store} {g : Store → α}
    (hm : ∀ s, m s = some (g s, f s))
    (same : ∀ ⦃s s' : Store⦄, s.SameModules s' → g s' = g s ∧ (f s).SameModules (f s'))
    (unread : ∀ ⦃s : Store⦄, s.Unread N R → P (g s) ∧ (f s).Unread N R)
    (unnoticed : ∀ s : Store, s.Unnoticed (f s)) : Lockstep N R P m := by
  intro s s' h
  obtain ⟨answer, hsame⟩ := same h.same
  exact ⟨g s, f s, f s', hm s, by rw [hm, answer], (unread h.left).1,
    ⟨hsame, (unread h.left).2, (unread h.right).2⟩, unnoticed s, unnoticed s'⟩

theorem Lockstep.of_aside {f : Store → Store} (hf : ∀ s : Store, s.Aside (f s))
    (hn : ∀ s : Store, s.Unnoticed (f s)) : Lockstep N R (fun _ => True) (modify f) :=
  .of_update (fun _ => rfl)
    (fun s s' h => ⟨rfl, (hf s).toSameModules.symm.trans (h.trans (hf s').toSameModules)⟩)
    (fun s h => ⟨trivial, h.aside (hf s)⟩) hn

theorem addNode_lockstep (x : Node) : Lockstep N R (fun n => N ≤ n) (addNode x) := by
  refine .of_update (fun _ => rfl) (fun s s' a => ⟨congrArg List.length a.nodes, ?_⟩)
    (fun s h => ⟨h.nodes, h.readers, ?_, h.cells⟩) fun _ => ⟨rfl, rfl, rfl⟩
  · exact { a with nodes := congrArg (· ++ [x]) a.nodes }
  · simpa using Nat.le_succ_of_le h.nodes

theorem addComponent_lockstep (c : Component) :
    Lockstep N R (fun _ => True) (addComponent c) := by
  refine .of_update (fun _ => rfl) (fun s s' a => ⟨congrArg List.length a.components, ?_⟩)
    (fun s h => ⟨trivial, h.readers, h.nodes, h.cells⟩) fun _ => ⟨rfl, rfl, rfl⟩
  exact { a with components := congrArg (· ++ [c]) a.components }

theorem newContext_lockstep (v : Json) : Lockstep N R (fun _ => True) (newContext v) := by
  refine .of_update (fun s => newContext_apply v s)
    (fun s s' a => ⟨congrArg List.length a.contexts, ?_⟩)
    (fun s h => ⟨trivial, h.readers, h.nodes, h.cells⟩) fun _ => ⟨rfl, rfl, rfl⟩
  exact { a with
    contexts := by simp only [mint, a.contexts, a.providers, a.tokens]
    providers := by simp only [mint, a.providers, a.tokens]
    tokens := congrArg (· + 1) a.tokens }

theorem registry_lockstep {r : RegistryId} (hr : R ≤ r) :
    Lockstep N R (fun m => Components.From N m.components) (registry r) :=
  .of_update (registry_apply r) (fun _ _ a => ⟨a.registry r, a⟩) (fun _ h => ⟨h.cells r hr, h⟩)
    Unnoticed.refl

theorem setRegistry_lockstep (r : RegistryId) {m : Registry}
    (hm : Components.From N m.components) : Lockstep N R (fun _ => True) (setRegistry r m) := by
  refine .of_update (fun _ => rfl)
    (fun s s' a => ⟨rfl, { a with registries := congrArg (List.set · r m) a.registries }⟩)
    (fun s h => ⟨trivial, h.readers, h.nodes, fun v hv => ?_⟩) fun _ => ⟨by simp, rfl, rfl⟩
  by_cases hlt : r < s.registries.length
  · have hset : Store.registry { s with registries := s.registries.set r m } v =
        if v = r then m else s.registry v := Store.registry_set m hlt v
    rw [hset]
    split
    · exact hm
    · exact h.cells v hv
  · rw [List.set_eq_of_length_le (Nat.not_lt.1 hlt)]
    exact h.cells v hv

theorem hold_lockstep (x : Handle) : Lockstep N R (fun _ => True) (hold x) :=
  Lockstep.of_aside (fun _ => ⟨⟨rfl, rfl, rfl, rfl, rfl, rfl⟩, fun _ => id⟩)
    fun _ => ⟨rfl, rfl, rfl⟩

theorem collect_lockstep : Lockstep N R (fun _ => True) collect :=
  Lockstep.of_aside aside_collect fun _ => ⟨rfl, rfl, rfl⟩

theorem register_lockstep {r : RegistryId} (hr : R ≤ r) (id : String) (k : ComponentId)
    (o : RegistrationOptions) : Lockstep N R (fun _ => True) (register r id k o) := by
  have fresh : Lockstep N R (fun r => N ≤ r.cell) (newRegistration id k o) :=
    .bind (addNode_lockstep _) fun cell hcell =>
      .bind (addComponent_lockstep _) fun proxy _ => .pure hcell
  refine .bind fresh fun reg hreg => .bind (registry_lockstep hr) fun old hold =>
    .bind (setRegistry_lockstep r fun l q hq => ?_) fun _ _ => .pure trivial
  rw [OrderedMap.get?_insert] at hq
  split at hq
  · cases hq
    exact hreg
  · exact hold hq

theorem registerContext_lockstep {r : RegistryId} (hr : R ≤ r) (id : String) (c : ContextId) :
    Lockstep N R (fun _ => True) (registerContext r id c) :=
  .bind (registry_lockstep hr) fun _ hold =>
    .bind (setRegistry_lockstep r hold) fun _ _ => .pure trivial

theorem patchContext_lockstep (old new : ContextId) :
    Lockstep N R (fun _ => True) (patchContext old new) := by
  refine .of_update (patchContext_apply old new) (fun s s' a => ⟨rfl, ?_⟩)
    (fun s h => ⟨trivial, h.readers, h.nodes, h.cells⟩) fun _ => ⟨rfl, rfl, rfl⟩
  exact { a with contexts := by simp only [patchPair, contextAt, a.contexts] }

theorem patchKnownContexts_lockstep (new : Contexts) (es : List (String × ContextRegistration))
    (report : PatchReport) :
    Lockstep N R (fun _ => True) (patchKnownContexts new es report) := by
  induction es generalizing report with
  | nil => exact .pure trivial
  | cons e es ih =>
    obtain ⟨id, o⟩ := e
    rw [patchKnownContexts]
    cases new.get? id with
    | none => exact .pure trivial
    | some n => exact .bind (patchContext_lockstep _ _) fun _ _ => ih _

theorem patchContexts_lockstep (old new : Contexts) (report : PatchReport) :
    Lockstep N R (fun _ => True) (patchContexts old new report) := by
  refine .bind (patchKnownContexts_lockstep new old.entries report) fun p _ => ?_
  obtain ⟨reload, report⟩ := p
  cases reload <;> exact .pure trivial

theorem notify_unread {n : NodeId} {s : Store} (h : Edges.readers s.edges n = []) :
    topCalls.notify n s = some ((), s) := by
  change notifyNode (calls 99999) n s = _
  simp [notifyNode, liveReaders, h, forEach]

theorem redirect_lockstep {r : Registration} (hr : N ≤ r.cell) (k : ComponentId) :
    Lockstep N R (fun _ => True) (redirect r k) := by
  have set : Lockstep N R (fun _ => True) (setNode r.cell (.cell (some k))) := by
    refine .of_update (setNode_apply _ _)
      (fun s s' a => ⟨rfl, { a with nodes := congrArg (List.set · r.cell _) a.nodes }⟩)
      (fun s h => ⟨trivial, h.readers, ?_, h.cells⟩) fun _ => ⟨rfl, rfl, rfl⟩
    simpa using h.nodes
  refine .bind set fun _ _ => .bind collect_lockstep fun _ _ s s' h => ?_
  exact ⟨(), s, s', notify_unread (h.left.readers _ hr), notify_unread (h.right.readers _ hr),
    trivial, h, .refl s, .refl s'⟩

theorem patchComponent_lockstep {old new : Registration} (ho : N ≤ old.cell) (hn : N ≤ new.cell)
    (report : PatchReport) :
    Lockstep N R (fun p => N ≤ p.1.cell) (patchComponent old new report) := by
  unfold patchComponent
  split
  · exact .bind (redirect_lockstep (r := old.adopt new) ho _) fun _ _ =>
      .bind (redirect_lockstep hn _) fun _ _ => .pure ho
  · exact .bind (redirect_lockstep hn _) fun _ _ => .pure ho

theorem patchKnown_lockstep {old new : Components} (ho : Components.From N old)
    (hn : Components.From N new) (ids : List String) (report : PatchReport) :
    Lockstep N R (fun p => Components.From N p.2.1) (patchKnown new ids old report) := by
  induction ids generalizing old report with
  | nil => exact .pure ho
  | cons id ids ih =>
    rw [patchKnown]
    cases hoi : old.get? id with
    | none => exact .pure ho
    | some o =>
      cases hni : new.get? id with
      | none => exact .pure ho
      | some n =>
        refine .bind (patchComponent_lockstep (ho hoi) (hn hni) report) fun p hp => ih ?_ _
        intro l r hr
        rw [OrderedMap.get?_insert] at hr
        split at hr
        · cases hr
          exact hp
        · exact ho hr

theorem adoptNew_from {old new : Components} (ho : Components.From N old)
    (hn : Components.From N new) (report : PatchReport) :
    Components.From N (adoptNew new.entries old report).1 := by
  intro id r hr
  rw [adoptNew_get?] at hr
  cases hold : old.get? id with
  | none =>
    rw [hold, Option.none_or] at hr
    exact hn hr
  | some o =>
    rw [hold, Option.some_or] at hr
    cases hr
    exact ho hold

theorem patchComponents_lockstep {old new : Components} (ho : Components.From N old)
    (hn : Components.From N new) (report : PatchReport) :
    Lockstep N R (fun p => Components.From N p.2.1) (patchComponents old new report) := by
  refine .bind (patchKnown_lockstep ho hn old.keys report) fun p hp => ?_
  obtain ⟨reload, known, report⟩ := p
  cases reload
  · exact .pure (adoptNew_from hp hn report)
  · exact .pure hp

theorem reconcile_lockstep {c w : RegistryId} (hc : R ≤ c) (hw : R ≤ w) :
    Lockstep N R (fun _ => True) (reconcile c w) := by
  refine .bind (registry_lockstep hc) fun old ho => .bind (registry_lockstep hw) fun new hn => ?_
  have patched : Lockstep N R (fun p => Components.From N p.1.components) (patchRegistry old new) :=
    .bind (patchContexts_lockstep _ _ _) fun _ _ =>
      .bind (patchComponents_lockstep ho hn _) fun _ hp => .pure hp
  exact .bind patched fun p hp => .bind (setRegistry_lockstep c hp) fun _ _ => .pure trivial

end Machine

end HotSwap
