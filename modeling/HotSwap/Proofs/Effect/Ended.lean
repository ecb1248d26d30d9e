import HotSwap.Proofs.Effect.Detached
import HotSwap.Proofs.Subscription.Interaction
/-!
# Effects that have ended

An effect ends when it is disposed of, or when the last handle to it is given back. If it does not
run at that time, it has run for the last time, whatever a program does afterwards: bodies may write,
dispose and let go. A notification that set out before passes over an effect that was disposed of,
but it runs one that was only let go once more.
-/

namespace HotSwap

open Machine

/-- A program executes only what lives, and redirects only cells. -/
def Interaction.Handled (s : Store) : Interaction → Prop
  | .execute n => .node n ∈ s.live
  | .redirect n _ => ∃ k, s.nodes[n]? = some (.cell k)
  | _ => True

namespace Store

def Disposed (s : Store) (n : NodeId) : Prop :=
  ∃ e, s.nodes[n]? = some (.effect e) ∧ e.disposed = true

/-- Nothing is left that could start the effect again, but for what is under way. -/
structure Ended (s : Store) (n : NodeId) : Prop extends Detached s n where
  finished : s.Disposed n ∨ .node n ∉ s.live

inductive Continues (s : Store) : Store → Prop
  | refl : Continues s s
  | step {t u : Store} (o : Interaction) (d : Nat) : Continues s t → o.Handled t →
    o.run (calls d) t = some ((), u) → Continues s u

variable {n k : NodeId} {s t u : Store} {c : Calls} {d : Nat} {e : Effect}

theorem Disposed.idles (h : s.Disposed n) (hi : s.Idles n t) : t.Disposed n := by
  obtain ⟨e, he, hd⟩ := h
  obtain ⟨e', he', -, hd'⟩ := hi.effect he
  exact ⟨e', he', hd' hd⟩

theorem Ended.idles (h : s.Ended n) (hi : s.Idles n t) : t.Ended n where
  toDetached := hi.detached h.toDetached
  finished := h.finished.imp (·.idles hi) fun hl => hl ∘ hi.live

end Store

open Store

namespace Machine

variable {n : NodeId} {s t : Store} {c : Calls}

theorem hold_skips (h : Handle) : Within (Skips n) (hold h) (hold h) :=
  .of_modify fun s _ => { Idles.refl n s with }

theorem holdAll_skips : ∀ hs : List Handle, Within (Skips n) (hs.forM hold) (hs.forM hold)
  | [] => .of_pure (skips_refl n) ()
  | h :: hs => .bind (skips_trans n) (hold_skips h) fun _ => holdAll_skips hs

theorem addNode_skips (x : Node) : Within (Skips n) (addNode x) (addNode x) :=
  fun _ => .of_eq rfl rfl fun h => h.add x

theorem addComponent_skips (x : Component) :
    Within (Skips n) (addComponent x) (addComponent x) :=
  fun s => .of_eq rfl rfl fun _ => { Idles.refl n s with live := fun hl => by simpa using hl }

theorem newContext_skips (v : Json) : Within (Skips n) (newContext v) (newContext v) :=
  fun s => .of_eq rfl rfl fun _ => { Idles.refl n s with }

theorem markDirty_skips (k : NodeId) : Within (Skips n) (markDirty k) (markDirty k) := by
  intro s
  refine .bind_of_eq (memo?_apply k s) ?_
  cases hm : s.memoAt k with
  | none => exact .of_eq rfl rfl (skips_refl n s)
  | some m => exact setNode_skips (memoAt_eq_some.1 hm) nofun

theorem writeCell_skips (hc : c.Within (Skips n) c) {k : NodeId} (j : Option ComponentId)
    (hk : ∃ i, s.nodes[k]? = some (.cell i)) :
    WithinAt (Skips n) s (writeCell c k j) (writeCell c k j) := by
  obtain ⟨i, hi⟩ := hk
  exact .bind (skips_trans n) (setNode_skips hi nofun) fun _ t _ =>
    .bind (skips_trans n) (collect_skips t) fun _ u _ => hc.notify k u

theorem discard_skips {m : Machine α} (h : Within (Skips n) m m) :
    Within (Skips n) (do let _ ← m) (do let _ ← m) :=
  .bind (skips_trans n) h fun _ => .of_pure (skips_refl n) ()

theorem execute_skips (hc : c.Within (Skips n) c) (h : s.Ended n) {k : NodeId}
    (hk : .node k ∈ s.live) : WithinAt (Skips n) s (runEffect c k) (runEffect c k) := by
  by_cases hkn : k = n
  · subst hkn
    obtain ⟨e, he, hd⟩ := h.finished.resolve_right (not_not_intro hk)
    have hrun := runEffect_of_disposed c he hd
    exact .of_eq hrun hrun (skips_refl k s)
  · exact runEffect_skips hc hkn s

end Machine

theorem Interaction.run_skips {n : NodeId} {s : Store} {c : Calls} (hc : c.Within (Skips n) c)
    (h : s.Ended n) (o : Interaction) (ho : o.Handled s) :
    WithinAt (Skips n) s (o.run c) (o.run c) := by
  have trans := skips_trans n
  cases o with
  | signal v => exact .bind trans (addNode_skips _ s) fun _ t _ => hold_skips _ t
  | memo name body => exact .bind trans (addNode_skips _ s) fun _ t _ => hold_skips _ t
  | effect name body deferred =>
    obtain ⟨e, he⟩ := h.effect
    refine .bind trans (addNode_skips _ s) fun k t hk =>
      .bind trans (hold_skips _ t) fun _ u _ => ?_
    -- a new effect has a new number
    have hkn : k ≠ n := by
      cases hk
      exact Nat.ne_of_gt (List.getElem?_eq_some_iff.1 he).1
    cases deferred with
    | true => exact .of_eq rfl rfl (skips_refl n u)
    | false => exact runEffect_skips hc hkn u
  | cell k => exact .bind trans (addNode_skips _ s) fun _ t _ => hold_skips _ t
  | function name title dev body =>
    exact .bind trans (addComponent_skips _ s) fun _ t _ => hold_skips _ t
  | proxy id location k =>
    exact .bind trans (addComponent_skips _ s) fun _ t _ => hold_skips _ t
  | context v => exact discard_skips (newContext_skips v) s
  | set k v => exact write_skips hc k v s
  | update k body =>
    exact .bind trans (peek_skips k s) fun _ t _ =>
      .bind trans (Expr.eval_skips hc _ body t) fun w u _ => write_skips hc k w u
  | redirect k j => exact writeCell_skips hc j ho
  | read k => exact discard_skips (hc.read k) s
  | evaluate env body => exact discard_skips (Expr.eval_skips hc env body) s
  | build env body =>
    exact .bind trans (Template.eval_skips hc env body s) fun v t _ => holdAll_skips v.handles t
  | render k props =>
    exact .bind trans (hc.render k props s) fun v t _ => holdAll_skips v.handles t
  | resolve v => exact discard_skips (hc.resolve v) s
  | text v => exact discard_skips (textOf_skips hc v) s
  | execute k => exact execute_skips hc h ho
  | dispose k => exact disposeEffect_skips k s
  | markDirty k => exact markDirty_skips k s
  | markMaybeDirty k => exact mark_skips hc k s
  | hold a => exact hold_skips a s
  | release a => exact release_skips a s

namespace Store

variable {n k : NodeId} {s t u : Store} {c : Calls} {d : Nat} {e : Effect} {a : Handle}

theorem Ended.continues (h : s.Ended n) (ht : s.Continues t) : s.Idles n t := by
  induction ht with
  | refl => exact .refl n s
  | step o d _ ho ht ih =>
    have hended := h.idles ih
    exact ih.trans ((o.run_skips (calls_skip n d) hended ho ht).2 hended.toDetached)

/-- What is left of a notification passes over an effect that is disposed of. -/
theorem Disposed.passed (hd : s.Disposed n) (hs : s.Detached n) (hc : c.Within (Skips n) c)
    (ks : List NodeId) (ht : forEach (schedule c) ks s = some ((), t)) : s.Idles n t := by
  induction ks generalizing s with
  | nil =>
    cases ht
    exact .refl n _
  | cons k ks ih =>
    obtain ⟨_, u, hu, ht⟩ := bind_eq_some.1 ht
    have hi : s.Idles n u := by
      by_cases hk : k = n
      · subst hk
        obtain ⟨e, he, hdisposed⟩ := hd
        simp only [schedule, bind_apply, node?_apply, Option.bind_some, he,
          runEffect_of_disposed c he hdisposed] at hu
        cases hu
        exact .refl k s
      · exact (schedule_skips hc hk s hu).2 hs
    exact hi.trans (ih (hd.idles hi) (hi.detached hs) ht)

theorem ended_of_dispose (he : s.nodes[n]? = some (.effect e)) (hn : n ∉ s.running)
    (ht : disposeEffect n s = some ((), t)) :
    t.Ended n ∧ t.Disposed n ∧ ∀ m, n ∉ Edges.readers t.edges m := by
  rw [disposeEffect_of_effect he] at ht
  cases ht
  have hset := List.getElem?_set_self (a := Node.effect { e with disposed := true })
    (List.getElem?_eq_some_iff.1 he).1
  have hunlisted (m : NodeId) : n ∉ Edges.readers (Edges.unsubscribe s.edges n) m :=
    fun hm => ((Edges.mem_readers_unsubscribe _).1 hm).2 rfl
  exact ⟨⟨⟨⟨_, hset⟩, hn, fun _ => hunlisted⟩, .inl ⟨_, hset, rfl⟩⟩, ⟨_, hset, rfl⟩, hunlisted⟩

theorem ended_of_release (he : s.nodes[n]? = some (.effect e)) (hn : n ∉ s.running)
    (hl : .node n ∈ s.live) (ht : Machine.release a s = some ((), t)) (hgone : .node n ∉ t.live) :
    t.Ended n ∧ ∀ m, n ∉ Edges.readers t.edges m := by
  cases ht
  refine ⟨⟨⟨⟨e, he⟩, hn, fun h => absurd h hgone⟩, .inr hgone⟩, fun m hm => ?_⟩
  exact ((Edges.mem_readers_unsubscribeAll _ _).1 hm).2 (mem_lost.2 ⟨hl, hgone⟩)

/-- An effect that is disposed of while it does not run has run for the last time. Whatever the
program does and whoever else was to be told, its body does not run, its runs are counted as before,
and no source lists it. -/
theorem disposed_for_good (he : s.nodes[n]? = some (.effect e)) (hn : n ∉ s.running)
    (ht : disposeEffect n s = some ((), t)) :
    (∀ ks, forEach (schedule (calls d)) ks t = some ((), u) →
      t.Idles n u ∧ ∀ m, n ∉ Edges.readers u.edges m) ∧
    (t.Continues u → t.Idles n u ∧ ∀ m, n ∉ Edges.readers u.edges m) := by
  obtain ⟨hended, hdisposed, hunlisted⟩ := ended_of_dispose he hn ht
  constructor
  · intro ks hu
    have hi := hdisposed.passed hended.toDetached (calls_skip n d) ks hu
    exact ⟨hi, fun m hm => hunlisted m (hi.listed hm)⟩
  · intro hu
    have hi := hended.continues hu
    exact ⟨hi, fun m hm => hunlisted m (hi.listed hm)⟩

/-- So has an effect that is let go while it does not run, if no notification is on its way. -/
theorem released_for_good (he : s.nodes[n]? = some (.effect e)) (hn : n ∉ s.running)
    (hl : .node n ∈ s.live) (ht : Machine.release a s = some ((), t)) (hgone : .node n ∉ t.live)
    (hu : t.Continues u) : t.Idles n u ∧ ∀ m, n ∉ Edges.readers u.edges m := by
  obtain ⟨hended, hunlisted⟩ := ended_of_release he hn hl ht hgone
  have hi := hended.continues hu
  exact ⟨hi, fun m hm => hunlisted m (hi.listed hm)⟩

/-- Two effects read a signal. When it is set, the first does `act` before the second is told. -/
def toldInTurn (act : LinkedExpr) : Store :=
  [Interaction.signal (.bool false),
    .effect "first" (.cond (.get 0) act (.literal .null)) false, .effect "second" (.get 0) false,
    .set 0 (.bool true)].foldl (next 10) {}

example : ((toldInTurn (.dispose 2)).effectAt 2).map Effect.runs = some 1 ∧
    2 ∉ Edges.readers (toldInTurn (.dispose 2)).edges 0 := by
  decide +kernel

/-- If the second effect is only let go by then, it runs once more, and it stays listed. -/
theorem released_on_the_way_runs :
    .node 2 ∉ (toldInTurn (.release 2)).live ∧
      ((toldInTurn (.release 2)).effectAt 2).map Effect.runs = some 2 ∧
      2 ∈ Edges.readers (toldInTurn (.release 2)).edges 0 := by
  decide +kernel

end Store

end HotSwap
