import HotSwap.Component.Program
import HotSwap.Proofs.Evaluation.Steady
/-!
# What a program does between edits

Everything that a program may do to signals, memos, effects, components and views while no module is
evaluated or patched. A relation that is `Accommodating` allows each of it; one that is only `Tolerant`
allows all but to make a context.
-/

namespace HotSwap

open Machine

inductive Action
  | signal (value : Json)
  | memo (name : String) (body : LinkedExpr)
  | effect (name : String) (body : LinkedExpr)
  | function (name title : String) (dev : Bool) (body : LinkedTemplate)
  | context (fallback : Json)
  | set (signal : NodeId) (value : Json)
  | update (signal : NodeId) (body : LinkedExpr)
  | read (source : NodeId)
  | evaluate (env : Env) (body : LinkedExpr)
  | markDirty (memo : NodeId)
  | markMaybeDirty (memo : NodeId)
  | execute (effect : NodeId)
  | dispose (effect : NodeId)
  | build (env : Env) (body : LinkedTemplate)
  | render (component : ComponentId) (props : Json)
  | resolve (view : View)
  | text (view : View)
  | setProperty (component : ComponentId) (key : String) (value : Json)
  | hold (h : Handle)
  | release (h : Handle)
  | collect

def Action.run : Action → Machine Unit
  | .signal v => do let _ ← newSignal v
  | .memo name body => do let _ ← newMemo name body
  | .effect name body => do let _ ← newLazyEffect name body
  | .function name title dev body => do let _ ← newFunction name title dev body
  | .context v => do let _ ← newContext v
  | .set n v => setSignal n v
  | .update n e => do let _ ← updateSignal n e
  | .read n => do let _ ← Machine.read n
  | .evaluate env e => do let _ ← Machine.evaluate env e
  | .markDirty n => Machine.markDirty n
  | .markMaybeDirty n => Machine.markMaybeDirty n
  | .execute n => Machine.execute n
  | .dispose n => disposeEffect n
  | .build env t => do let _ ← Machine.build env t
  | .render k props => do let _ ← Machine.render k props
  | .resolve v => do let _ ← Machine.resolve v
  | .text v => do let _ ← viewText v
  | .setProperty k key v => Machine.setProperty k key v
  | .hold h => Machine.hold h
  | .release h => Machine.release h
  | .collect => Machine.collect

/-- An admissible relation that also allows what only a program does at its top level, contexts
apart. -/
structure Tolerant (R : Store → Store → Prop) : Prop extends Admissible R where
  addSignal : ∀ (s : Store) v, R s { s with
    nodes := s.nodes ++ [.signal v], live := .node s.nodes.length :: s.live }
  addEffect : ∀ (s : Store) e, R s { s with
    nodes := s.nodes ++ [.effect e], live := .node s.nodes.length :: s.live }
  addFunction : ∀ (s : Store) f, R s { s with
    components := s.components ++ [.function f]
    live := .component s.components.length :: s.live }
  dirty : ∀ {s : Store} {n m}, s.nodes[n]? = some (.memo m) →
    R s { s with nodes := s.nodes.set n (.memo { m with freshness := .dirty }) }
  properties : ∀ {s : Store} {k f} properties, s.components[k]? = some (.function f) →
    R s { s with components := s.components.set k (.function { f with properties }) }

/-- An admissible relation that also allows what only a program does at its top level. -/
structure Accommodating (R : Store → Store → Prop) : Prop extends Admissible R where
  addSignal : ∀ (s : Store) v, R s { s with
    nodes := s.nodes ++ [.signal v], live := .node s.nodes.length :: s.live }
  addEffect : ∀ (s : Store) e, R s { s with
    nodes := s.nodes ++ [.effect e], live := .node s.nodes.length :: s.live }
  addFunction : ∀ (s : Store) f, R s { s with
    components := s.components ++ [.function f]
    live := .component s.components.length :: s.live }
  contexts : ∀ (s : Store) contexts providers tokens, R s { s with contexts, providers, tokens }
  dirty : ∀ {s : Store} {n m}, s.nodes[n]? = some (.memo m) →
    R s { s with nodes := s.nodes.set n (.memo { m with freshness := .dirty }) }
  properties : ∀ {s : Store} {k f} properties, s.components[k]? = some (.function f) →
    R s { s with components := s.components.set k (.function { f with properties }) }

theorem Accommodating.tolerant {R : Store → Store → Prop} (h : Accommodating R) : Tolerant R where
  toAdmissible := h.toAdmissible
  addSignal := h.addSignal
  addEffect := h.addEffect
  addFunction := h.addFunction
  dirty := h.dirty
  properties := h.properties

namespace Machine

theorem target_eq_some {fuel : Nat} {k : ComponentId} {s t : Store}
    {r : Option (ComponentId × Component)} (h : target fuel k s = some (r, t)) :
    t = s ∧ ∀ j c, r = some (j, c) → s.components[j]? = some c := by
  induction fuel generalizing k with
  | zero => cases h
  | succ fuel ih =>
    simp only [target, bind_apply, component?_apply, Option.bind_some] at h
    cases hk : s.components[k]? with
    | none =>
      rw [hk] at h
      cases h
      exact ⟨rfl, by simp⟩
    | some c =>
      cases c with
      | function f =>
        rw [hk] at h
        cases h
        exact ⟨rfl, by rintro _ _ ⟨⟩; exact hk⟩
      | proxy p =>
        simp only [hk, bind_apply, cellContent_apply, Option.bind_some] at h
        cases hc : s.held p.cell with
        | none =>
          rw [hc] at h
          cases h
          exact ⟨rfl, by rintro _ _ ⟨⟩; exact hk⟩
        | some j =>
          rw [hc] at h
          exact ih h

variable {R : Store → Store → Prop}

theorem setProperty_within (hR : Tolerant R) (k : ComponentId) (key : String) (v : Json) :
    Within R (setProperty k key v) (setProperty k key v) := by
  intro s a t h
  refine ⟨h, ?_⟩
  obtain ⟨r, u, hr, hu⟩ := bind_eq_some.1 h
  obtain ⟨rfl, hj⟩ := target_eq_some hr
  split at hu
  · cases hu
    exact hR.properties _ (hj _ _ rfl)
  · cases hu
    exact hR.refl _

theorem markDirty_within (hR : Tolerant R) (n : NodeId) :
    Within R (markDirty n) (markDirty n) := by
  intro s
  refine .bind_of_eq (memo?_apply n s) ?_
  cases hm : s.memoAt n with
  | none => exact .of_eq rfl rfl (hR.refl s)
  | some m => exact .of_eq rfl rfl (hR.dirty (Store.memoAt_eq_some.1 hm))

theorem updateSignal_within (hR : Tolerant R) (hc : topCalls.Within R topCalls) (n : NodeId)
    (e : LinkedExpr) : Within R (updateSignal n e) (updateSignal n e) :=
  .bind hR.trans (peek_within hR.toAdmissible n) fun _ =>
    .bind hR.trans (Expr.eval_within hR.toAdmissible hc _ e) fun v =>
      .bind hR.trans (write_within hR.toAdmissible hc n v) fun _ => peek_within hR.toAdmissible n

theorem Within.discard (hR : Admissible R) {m : Machine α} (h : Within R m m) :
    Within R (do let _ ← m) (do let _ ← m) :=
  .bind hR.trans h fun _ => .of_pure hR.refl ()

end Machine

theorem Action.run_tolerated {R : Store → Store → Prop} (hR : Tolerant R)
    (hc : topCalls.Within R topCalls) (a : Action) (ha : ∀ v, a ≠ .context v) :
    Within R a.run a.run := by
  have hA := hR.toAdmissible
  cases a with
  | signal v => exact .discard hA fun s => .of_eq rfl rfl (hR.addSignal s v)
  | memo name body => exact .discard hA fun s => .of_eq rfl rfl (hR.addMemo nofun)
  | effect name body => exact .discard hA fun s => .of_eq rfl rfl (hR.addEffect s _)
  | function name title dev body => exact .discard hA fun s => .of_eq rfl rfl (hR.addFunction s _)
  | context v => exact absurd rfl (ha v)
  | set n v => exact write_within hA hc n v
  | update n e => exact .discard hA (updateSignal_within hR hc n e)
  | read n => exact .discard hA (hc.read n)
  | evaluate env e => exact .discard hA (Expr.eval_within hA hc env e)
  | markDirty n => exact markDirty_within hR n
  | markMaybeDirty n => exact mark_within hA hc n
  | execute n => exact runEffect_within hA hc n
  | dispose n => exact disposeEffect_within hA n
  | build env t => exact .discard hA (Template.eval_within hA hc env t)
  | render k props => exact .discard hA (hc.render k props)
  | resolve v => exact .discard hA (hc.resolve v)
  | text v => exact .discard hA (textOf_within hA hc v)
  | setProperty k key v => exact setProperty_within hR k key v
  | hold h => exact fun s => .of_eq rfl rfl (hR.roots s _)
  | release h => exact release_within hA h
  | collect => exact collect_within hA

theorem Action.run_within {R : Store → Store → Prop} (hR : Accommodating R)
    (hc : topCalls.Within R topCalls) (a : Action) : Within R a.run a.run := by
  by_cases ha : ∀ v, a ≠ .context v
  · exact a.run_tolerated hR.tolerant hc ha
  · obtain ⟨v, rfl⟩ : ∃ v, a = .context v := by simpa using ha
    exact .discard hR.toAdmissible fun s => .of_eq rfl rfl (hR.contexts s _ _ _)

open Store in
theorem accommodating_steady : Accommodating Store.Steady where
  toAdmissible := indifferent_steady.toAdmissible
  addSignal s v :=
    { Steady.of_nodes (by simp) (getElem?_append_of_some ·) fun h =>
        ⟨_, getElem?_append_of_some h, rfl⟩ with
      live := fun hn h => by simpa [Nat.ne_of_lt hn] using h }
  addEffect s e :=
    { Steady.of_nodes (by simp) (getElem?_append_of_some ·) fun h =>
        ⟨_, getElem?_append_of_some h, rfl⟩ with
      live := fun hn h => by simpa [Nat.ne_of_lt hn] using h }
  addFunction s f := { Steady.refl s with
    proxy := (getElem?_append_of_some ·)
    function := fun h => ⟨_, getElem?_append_of_some h, .refl _⟩
    live := fun _ h => by simpa using h }
  contexts s _ _ _ := { Steady.refl s with }
  dirty h := .set_node h (by simp) (by rintro m ⟨⟩; exact ⟨_, rfl, rfl⟩)
  properties {s k f} properties hk := { Steady.refl s with
    proxy := fun {j p} hj => by
      have hne : k ≠ j := by
        rintro rfl
        simp [hk] at hj
      rw [List.getElem?_set_ne hne, hj]
    function := fun {j g} hj => by
      by_cases hne : k = j
      · subst hne
        obtain rfl : f = g := by simpa [hk] using hj
        exact ⟨_, List.getElem?_set_self (List.getElem?_eq_some_iff.1 hk).1, rfl, rfl, rfl, rfl⟩
      · exact ⟨g, by rw [List.getElem?_set_ne hne, hj], .refl g⟩ }

theorem topCalls_steady : topCalls.Within Store.Steady topCalls :=
  indifferent_steady.calls_self nesting

theorem Action.run_steady (a : Action) {s t : Store} (h : a.run s = some ((), t)) : s.Steady t :=
  (a.run_within accommodating_steady topCalls_steady s h).2

end HotSwap
