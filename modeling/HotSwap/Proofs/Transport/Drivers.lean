import HotSwap.Proofs.Host.Hosted
import HotSwap.Proofs.Transport.Lockstep
import HotSwap.Session.Run
/-!
# Driving a module through its versions

An accept-with-module host is given the first version, and then an update for each later one. A
dispose-then-accept host is disposed before each later version, which loads under the next host.
Without a host, each later version is reconciled into the first.
-/

namespace HotSwap

open Machine

/-- What the evaluation of a module may do. Its effects do not run before it ends. -/
inductive Statement
  | signal (value : Json)
  | memo (name : String) (body : LinkedExpr)
  | effect (name : String) (body : LinkedExpr)
  | function (name title : String) (dev : Bool) (body : LinkedTemplate)
  | context (fallback : Json)
  | register (id : String) (component : ComponentId) (o : RegistrationOptions)
  | registerContext (id : String) (context : ContextId)

abbrev Source := List Statement

def Statement.run (r : RegistryId) : Statement → Machine Unit
  | .signal v => do let _ ← newSignal v
  | .memo name body => do let _ ← newMemo name body
  | .effect name body => do let _ ← newLazyEffect name body
  | .function name title dev body => do let _ ← newFunction name title dev body
  | .context v => do let _ ← newContext v
  | .register id k o => do let _ ← Machine.register r id k o
  | .registerContext id c => do let _ ← Machine.registerContext r id c

namespace Machine

def evaluateModule (src : Source) : Machine RegistryId := do
  let r ← addRegistry {}
  hold (.registry r)
  src.forM (Statement.run r)
  return r

def load (src : Source) (refresh : RegistryId → Machine α) : Machine α := do
  let r ← evaluateModule src
  let a ← refresh r
  release (.registry r)
  return a

/-- The later versions are reconciled into the first, one after the other. -/
def foldVersions (first : Source) (later : List Source) :
    Machine (RegistryId × List PatchReport) := do
  let c ← evaluateModule first
  let reports ← later.mapM fun src => load src (reconcile c)
  return (c, reports)

/-- Evaluates the new version, then runs and retires the callbacks of the old one. -/
def applyUpdate (h : HostId) (evaluate : Machine α) : Machine α := do
  let callbacks ← takeAccepts h
  keeping (.host h :: callbacks.flatMap AcceptCallback.handles) do
    let a ← evaluate
    retire h callbacks
    return a

def runEsm (cfg : Config) (g : GateId) (name : String) (first : Source) (later : List Source) :
    Machine HostId := do
  let h ← newEsmHost name
  hold (.host h)
  load first (refreshEsm cfg g h)
  later.forM fun src => applyUpdate h (load src (refreshEsm cfg g h))
  return h

def nextInstance (cfg : Config) (g : GateId) (h : HostId) (src : Source) : Machine HostId := do
  let next ← dispose h
  hold (.host next)
  load src (refreshStandard cfg g next)
  return next

def runInstances (cfg : Config) (g : GateId) (h : HostId) : List Source → Machine (List HostId)
  | [] => return [h]
  | src :: rest => do
    let next ← nextInstance cfg g h src
    return h :: (← runInstances cfg g next rest)

def runStandard (cfg : Config) (g : GateId) (name : String) (first : Source)
    (later : List Source) : Machine (List HostId) := do
  let h ← newStandardHost name
  hold (.host h)
  load first (refreshStandard cfg g h)
  runInstances cfg g h later

end Machine

namespace Script

def Answers (m : Script α) (x : Session) (a : α) (y : Session) : Prop :=
  ExceptT.run m x = (Except.ok a, y)

variable {x y z : Session} {a : α} {b : β}

theorem Answers.bind {m : Script α} {f : α → Script β} (hm : Answers m x a y)
    (hf : Answers (f a) y b z) : Answers (m >>= f) x b z := by
  unfold Answers at *
  rw [ExceptT.run_bind]
  simp only [Bind.bind, StateT.bind, hm]
  exact hf

theorem answers_run {m : Machine α} {t : Store} (h : m x.store = some (a, t)) :
    Answers (Script.run m) x a { x with store := t } := by
  refine .bind (a := x) (y := x) rfl ?_
  rw [h]
  rfl

/-- A session applies updates in this way. -/
theorem answers_applied {h : HostId} {m : Machine α} {t : Store}
    (hm : Machine.applyUpdate h m x.store = some (a, t)) :
    Answers (Script.applied h (Script.run m)) x a { x with store := t } := by
  obtain ⟨callbacks, u, hu, hm⟩ := bind_eq_some.1 hm
  obtain ⟨v, hv, rfl⟩ := keeping_eq_some.1 hm
  obtain ⟨_, w, hw, hv⟩ := bind_eq_some.1 hv
  obtain ⟨_, y, hy, hv⟩ := bind_eq_some.1 hv
  cases hv
  have evaluated : Answers (do
      let a ← Script.run m
      Script.run (retire h callbacks)
      return a) { x with store := _ } a { x with store := v } :=
    .bind (answers_run hw) (.bind (answers_run hy) rfl)
  refine .bind (answers_run hu) (.bind (y := { x with store := u }) rfl ?_)
  refine .bind (answers_run (m := modify _) rfl) (.bind evaluated ?_)
  exact .bind (answers_run (m := modify _) rfl) rfl

end Script

open Store

variable {N : NodeId} {R r : RegistryId} {s s' : Store}

theorem Statement.run_lockstep (hr : R ≤ r) (st : Statement) :
    Lockstep N R (fun _ => True) (st.run r) := by
  cases st with
  | signal v => exact .bind (addNode_lockstep _) fun _ _ => .pure trivial
  | memo name body => exact .bind (addNode_lockstep _) fun _ _ => .pure trivial
  | effect name body => exact .bind (addNode_lockstep _) fun _ _ => .pure trivial
  | function name title dev body => exact .bind (addComponent_lockstep _) fun _ _ => .pure trivial
  | context v => exact .bind (newContext_lockstep v) fun _ _ => .pure trivial
  | register id k o => exact .bind (register_lockstep hr id k o) fun _ _ => .pure trivial
  | registerContext id c => exact .bind (registerContext_lockstep hr id c) fun _ _ => .pure trivial

theorem evaluateModule_paired (h : Paired N R s s') (hR : R ≤ s.registries.length) (src : Source) :
    ∃ t t', evaluateModule src s = some (s.registries.length, t) ∧
      evaluateModule src s' = some (s.registries.length, t') ∧ Paired N R t t' ∧
      t.registries.length = s.registries.length + 1 ∧ t'.data = s'.data ∧ t'.hosts = s'.hosts := by
  let added (s : Store) : Store := { s with
    registries := s.registries ++ [{}], live := .registry s.registries.length :: s.live }
  have unread (s : Store) (hs : s.Unread N R) : (added s).Unread N R := by
    refine ⟨hs.readers, hs.nodes, fun v hv id q hq => ?_⟩
    by_cases hlt : v < s.registries.length
    · rw [Store.registry, Store.registry_append hlt] at hq
      exact hs.cells v hv hq
    · have empty : (added s).registry v = {} := by
        simp only [added, Store.registry, List.getElem?_append_right (Nat.not_lt.1 hlt)]
        cases v - s.registries.length <;> rfl
      rw [empty] at hq
      cases hq
  have hadded : Paired N R (added s) (added s') :=
    ⟨{ h.same with registries := congrArg (· ++ [{}]) h.same.registries },
      unread s h.left, unread s' h.right⟩
  have filled : Lockstep N R (· = s.registries.length) (do
      hold (.registry s.registries.length)
      src.forM (Statement.run s.registries.length)
      return s.registries.length) :=
    .bind (hold_lockstep _) fun _ _ =>
      .bind (.forM src fun st _ => st.run_lockstep hR) fun _ _ => .pure rfl
  obtain ⟨_, t, t', ht, ht', rfl, hp, hk, hk'⟩ := filled hadded
  refine ⟨t, t', ht, ?_, hp, hk.registries.trans (by simp [added]), hk'.data, hk'.hosts⟩
  have same : addRegistry {} s' = some (s.registries.length, added s') := by
    rw [← h.same.registries]
    rfl
  exact bind_eq_some.2 ⟨_, _, same, ht'⟩

end HotSwap
