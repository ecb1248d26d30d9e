import HotSwap.Component.Program
import HotSwap.Proofs.Subscription.Notifying
/-!
# Exact subscriptions between operations

A program makes signals, memos, effects, components and proxies, and uses and drops them. Bodies
write nothing, memos over values keep away from views, and whatever a body holds is held by who
writes it. Between operations the table of subscriptions is exact: it lists who lives for what his
last run read, and nobody else.
-/

namespace HotSwap

open Machine

inductive Interaction
  | signal (value : Json)
  | memo (name : String) (body : LinkedExpr)
  | effect (name : String) (body : LinkedExpr) (deferred : Bool)
  | cell (component : Option ComponentId)
  | function (name title : String) (dev : Bool) (body : LinkedTemplate)
  | proxy (id : String) (location : Option String) (cell : NodeId)
  | context (fallback : Json)
  | set (signal : NodeId) (value : Json)
  | update (signal : NodeId) (body : LinkedExpr)
  | redirect (cell : NodeId) (component : Option ComponentId)
  | read (source : NodeId)
  | evaluate (env : Env) (body : LinkedExpr)
  | build (env : Env) (body : LinkedTemplate)
  | render (component : ComponentId) (props : Json)
  | resolve (view : View)
  | text (view : View)
  | execute (effect : NodeId)
  | dispose (effect : NodeId)
  | markDirty (memo : NodeId)
  | markMaybeDirty (memo : NodeId)
  | hold (h : Handle)
  | release (h : Handle)

namespace Interaction

def run (c : Calls) : Interaction → Machine Unit
  | .signal v => do Machine.hold (.node (← newSignal v))
  | .memo name body => do Machine.hold (.node (← newMemo name body))
  | .effect name body deferred => do
    let n ← newLazyEffect name body
    Machine.hold (.node n)
    if deferred then pure () else runEffect c n
  | .cell k => do Machine.hold (.node (← newCell k))
  | .function name title dev body => do
    Machine.hold (.component (← newFunction name title dev body))
  | .proxy id location n => do Machine.hold (.component (← newProxy id location n))
  | .context v => do let _ ← newContext v
  | .set n v => write c n v
  | .update n body => do
    let v ← body.eval c { current := ← peek n }
    write c n v
  | .redirect n k => writeCell c n k
  | .read n => do let _ ← c.read n
  | .evaluate env body => do let _ ← body.eval c env
  | .build env body => do
    let v ← body.eval c env
    v.handles.forM Machine.hold
  | .render k props => do
    let v ← c.render k props
    v.handles.forM Machine.hold
  | .resolve v => do let _ ← c.resolve v
  | .text v => do let _ ← textOf c v
  | .execute n => runEffect c n
  | .dispose n => disposeEffect n
  | .markDirty n => Machine.markDirty n
  | .markMaybeDirty n => mark c n
  | .hold h => Machine.hold h
  | .release h => Machine.release h

end Interaction

namespace Store

def Owns (s : Store) (hs : List Handle) : Prop := ∀ a ∈ hs, a ∈ s.roots ∧ s.Passive a

instance (s : Store) (hs : List Handle) : Decidable (s.Owns hs) :=
  inferInstanceAs (Decidable (∀ a ∈ hs, a ∈ s.roots ∧ s.Passive a))

end Store

/-- Bodies write nothing, and a program only uses what it holds. -/
def Interaction.Permitted (s : Store) : Interaction → Prop
  | .memo _ body => body.Tame (fun y => s.rank y < .view) False ∧ s.Owns body.handles
  | .effect _ body _ => body.Tame (fun y => s.rank y < .effect) True ∧ s.Owns body.handles
  | .cell k => s.Owns (Content.component k).handles
  | .function _ _ _ body => body.Tame (fun y => s.rank y < .view) ∧ s.Owns body.handles
  | .proxy _ _ n => (∃ k, s.nodes[n]? = some (.cell k)) ∧ s.Owns [.node n]
  | .update _ body => body.Tame (fun y => s.rank y < .effect) True ∧ s.Owns body.handles
  | .redirect n k => (∃ j, s.nodes[n]? = some (.cell j)) ∧ s.Owns (Content.component k).handles
  | .read n => s.Owns [.node n]
  | .evaluate _ body => body.Tame (fun y => s.rank y < .effect) True ∧ s.Owns body.handles
  | .build _ body => body.Tame (fun y => s.rank y < .view) ∧ s.Owns body.handles
  | .render k _ => s.Owns [.component k]
  | .resolve v | .text v => s.Owns v.handles
  | .execute n => .node n ∈ s.roots
  | .hold h => h ∈ s.live
  | .signal _ | .context _ | .set _ _ | .dispose _ | .markDirty _ | .markMaybeDirty _
  | .release _ => True

namespace Store

variable {s t : Store} {n : NodeId} {d : Nat}

/-- Accurate, and nothing runs. -/
structure Resting (s : Store) : Prop extends Accurate s where
  frames : s.frames = []

theorem Resting.running (h : s.Resting) : s.running = [] := by simp [Store.running, h.frames]

theorem Resting.proceeds (h : s.Resting) (hp : s.Proceeds t) : t.Resting :=
  ⟨hp.1, hp.at_rest h.frames⟩

theorem Resting.of_gives {m : Machine α} {Q : α → Store → Prop} {a : α} (h : s.Resting)
    (hm : Gives s m Q) (ht : m s = some (a, t)) : t.Resting := h.proceeds (hm ht).1

theorem Resting.admits (h : s.Resting) : s.Admits (fun y => s.rank y < .effect) True :=
  ⟨fun _ hy => hy, by simp [h.running], by simp [h.running]⟩

theorem Resting.opens (h : s.Resting) : s.Opens fun y => s.rank y < .view :=
  ⟨fun _ hy => hy, by simp [h.running]⟩

theorem Owns.offers {hs : List Handle} (h : s.Owns hs) : ∀ a ∈ hs, s.Offers a := fun a ha =>
  ⟨.root (List.mem_append_left _ (h a ha).1), (h a ha).2⟩

theorem Owns.alive {hs : List Handle} (ho : s.Owns hs) (h : s.Resting) : s.Alive hs :=
  fun a ha => (ho.offers a ha).alive h.toAccurate

theorem Resting.add (h : s.Resting) {x : Node} (hx : x.Tame s s.nodes.length)
    (hheld : s.Alive x.handles) (hcount : ∀ e, x = .effect e → e.dependencies = 0) :
    (s.grown x (.node s.nodes.length :: s.roots)).Resting where
  toAccurate := h.toAccurate.add hx hheld (List.subset_cons_self ..)
    (fun a ha => (List.mem_cons.1 ha).imp_right fun ha => h.held a (List.mem_append_left _ ha))
    fun e he => ⟨List.mem_cons_self, hcount e he⟩
  frames := h.frames

theorem Resting.addComponent (h : s.Resting) {c : Component} (hc : c.Tame s)
    (hheld : s.Alive c.handles) :
    Resting { s with
      components := s.components ++ [c]
      live := .component s.components.length :: s.live
      roots := .component s.components.length :: s.roots } := by
  have hold {k : NodeId} (hl : .node k ∈ .component s.components.length :: s.live) :
      .node k ∈ s.live := (List.mem_cons.1 hl).resolve_left nofun
  have hcontents : ∀ a ∈ Handle.component s.components.length :: s.live,
      ∀ b ∈ { s with components := s.components ++ [c] }.contents a, b ∈ s.live ∧ s.Passive b := by
    intro a ha b hb
    rcases contents_addComponent hb with ⟨_, hb⟩ | ⟨hne, hb⟩
    · exact hheld b hb
    · exact h.alive ((List.mem_cons.1 ha).resolve_left hne) b hb
  refine { h with
    member := fun hk => (h.member hk).imp_left (List.mem_cons_of_mem _)
    settled := fun hk hl => h.settled hk (hold hl)
    held := ?_
    closed := fun a ha b hb => List.mem_cons_of_mem _ (hcontents a ha b hb).1
    passive := fun a ha b hb => (hcontents a ha b hb).2
    owned := fun he hl => List.mem_cons_of_mem _ (h.owned he (hold hl))
    component := ?_
    active := by simp [Store.running, h.frames] }
  · intro a ha
    rcases List.mem_cons.1 ha with rfl | ha
    · exact List.mem_cons_self
    · exact List.mem_cons_of_mem _ (h.held a ha)
  · intro k x hx
    rcases add_cases hx with ⟨_, rfl⟩ | ⟨_, hx⟩
    · exact hc.lasts { Lasts.refl s with }
    · exact (h.component hx).lasts { Lasts.refl s with }

theorem Resting.hold (h : s.Resting) {a : Handle} (ha : a ∈ s.live) :
    Resting { s with roots := a :: s.roots } := by
  refine { h with held := ?_, owned := ?_, active := ?_ }
  · rintro b (_ | ⟨_, hb⟩)
    · exact ha
    · exact h.held b hb
  · intro k e he hl
    exact List.mem_cons_of_mem _ (h.owned he hl)
  · exact h.actives { Retains.refl s with roots := List.subset_cons_self .. } (List.Subset.refl _)

theorem Resting.holdAll {hs : List Handle} (h : s.Resting) (ha : s.Alive hs)
    (ht : hs.forM Machine.hold s = some ((), t)) : t.Resting := by
  induction hs generalizing s with
  | nil =>
    cases ht
    exact h
  | cons a hs ih =>
    have hrest : s.Alive hs := fun b hb => ha b (List.mem_cons_of_mem _ hb)
    exact ih (h.hold (ha a List.mem_cons_self).1) hrest ht

theorem Resting.discard {m : Machine α} {Q : α → Store → Prop} (h : s.Resting) (hm : Gives s m Q)
    (ht : (do let _ ← m) s = some ((), t)) : t.Resting := by
  obtain ⟨a, u, hu, ht⟩ := bind_eq_some.1 ht
  cases ht
  exact h.of_gives hm hu

theorem Resting.holdView {m : Machine View} (h : s.Resting)
    (hm : Gives s m fun v u => u.Alive v.handles)
    (ht : (do let v ← m; v.handles.forM Machine.hold) s = some ((), t)) : t.Resting := by
  obtain ⟨v, u, hu, ht⟩ := bind_eq_some.1 ht
  exact (h.of_gives hm hu).holdAll (hm hu).2 ht

theorem source_of_lt_view (hn : s.rank n < .view) : s.rank n < .source s.nodes.length := by
  obtain ⟨x, hx⟩ := exists_of_rank_lt (hn.trans Rank.view_lt_effect)
  have hlt := Rank.source_lt_source.2 (List.getElem?_eq_some_iff.1 hx).1
  rw [rank_of_node hx] at hn ⊢
  cases x with
  | memo m =>
    obtain ⟨recipe, _, _⟩ := m
    cases recipe with
    | value _ _ => exact hlt
    | _ => exact absurd hn (lt_irrefl _)
  | effect e => exact absurd hn (lt_asymm Rank.view_lt_effect)
  | _ => exact hlt

theorem write_gives (h : s.Resting) (v : Json) :
    Gives s (write (calls d) n v) fun _ _ => True := by
  refine .bind_of_eq (node?_apply n s) ?_
  split
  · rename_i w hw
    have hset := h.set (y := .signal v) hw rfl (fun _ => nofun) nofun
    refine .bind (Q := fun _ _ => True) (.of_eq (setNode_apply n _ s)
      ⟨hset, [], .of_retains (.set hw rfl) rfl rfl⟩ trivial) fun _ t hp _ => ?_
    exact notify_gives d n hp.1 (hp.at_rest h.frames)
  · exact .pure h.toAccurate trivial

theorem Resting.collect (h : s.Resting) : s.collect.Resting := ⟨h.toAccurate.collect, h.frames⟩

theorem Resting.replace {edges : Edges} {x y : Node} (h : s.Resting) (hx : s.nodes[n]? = some x)
    (hy : y.gist = x.gist) (hc : y.Computes → x.Computes) (hlisted : Edges.Listed edges)
    (hedges : ∀ k m, k ∈ Edges.readers edges m ↔
      k ∈ Edges.readers s.edges m ∧ (k = n → y.Computes))
    (hcount : ∀ e, y = .effect e → e.dependencies = (s.lastRun n).dedup.length)
    (hheld : ∀ a ∈ y.handles, a ∈ x.handles ∨ a ∈ s.live ∧ s.Passive a) :
    Resting { s with nodes := s.nodes.set n y, edges } :=
  ⟨h.toAccurate.replace hx hy hc hlisted hedges (fun _ => hcount) hheld (by simp [h.running]),
    h.frames⟩

theorem Resting.writeCell (h : s.Resting) {k : Option ComponentId}
    (hn : ∃ j, s.nodes[n]? = some (.cell j)) (hk : s.Alive (Content.component k).handles)
    (ht : writeCell (calls d) n k s = some ((), t)) : t.Resting := by
  obtain ⟨j, hj⟩ := hn
  -- nobody but a computation is listed, so no list has to change
  have hset : Resting { s with nodes := s.nodes.set n (.cell k) } := by
    refine h.replace hj rfl id h.listed (fun i m => ?_) nofun fun a ha =>
      .inr (hk a (handles_cell k ▸ ha))
    refine (and_iff_left_of_imp fun hi => ?_).symm
    rintro rfl
    obtain ⟨_, x, hx, hc⟩ := h.member hi
    cases hj.symm.trans hx
    exact hc
  exact hset.collect.of_gives (notify_gives d n hset.collect.toAccurate hset.frames) ht

theorem Resting.dispose (h : s.Resting) (ht : disposeEffect n s = some ((), t)) : t.Resting := by
  obtain ⟨e?, u, hu, ht⟩ := bind_eq_some.1 ht
  cases (effect?_apply n s).symm.trans hu
  cases he : s.effectAt n with
  | none =>
    rw [he] at ht
    cases ht
    exact h
  | some e =>
    rw [he] at ht
    cases ht
    have hx := effectAt_eq_some.1 he
    have hcount := h.counted hx (by simp [h.running])
    have hlisted := Edges.Listed.unsubscribe h.listed n
    refine h.replace hx rfl nofun hlisted (fun k m => ?_) ?_ fun a ha => .inl ha
    · rw [Edges.mem_readers_unsubscribe]
      simp [Node.Computes]
    · rintro _ ⟨⟩
      exact hcount

theorem Resting.markDirty (h : s.Resting) (ht : Machine.markDirty n s = some ((), t)) :
    t.Resting := by
  obtain ⟨m?, u, hu, ht⟩ := bind_eq_some.1 ht
  cases (memo?_apply n s).symm.trans hu
  cases hm : s.memoAt n with
  | none =>
    rw [hm] at ht
    cases ht
    exact h
  | some m =>
    rw [hm] at ht
    cases ht
    exact ⟨h.set (memoAt_eq_some.1 hm) rfl (fun _ => nofun) fun a ha => .inl ha, h.frames⟩

theorem Resting.release (h : s.Resting) (a : Handle) :
    Resting { s with roots := s.roots.erase a }.collect :=
  ⟨h.dropped List.erase_subset (by simp [h.running]), h.frames⟩

theorem Resting.interact (h : s.Resting) (o : Interaction) (ho : o.Permitted s)
    (ht : o.run (calls d) s = some ((), t)) : t.Resting := by
  have hc := calls_exact d
  have hA := h.toAccurate
  have below (k : NodeId) (hk : k ∈ s.running) : False := by simp [h.running] at hk
  cases o with
  | signal v =>
    cases ht
    exact h.add (x := .signal v) trivial (.nil s) (by rintro _ ⟨⟩)
  | memo name body =>
    cases ht
    refine h.add (x := .memo { recipe := .value name body }) (ho.1.mono fun _ => source_of_lt_view)
      ?_ (by rintro _ ⟨⟩)
    simpa [Node.handles, Recipe.handles] using ho.2.alive h
  | effect name body deferred =>
    have hadd := h.add (x := .effect { name, body }) ho.1 (ho.2.alive h) (by rintro _ ⟨⟩; rfl)
    cases deferred with
    | true =>
      cases ht
      exact hadd
    | false =>
      exact hadd.of_gives (runEffect_gives hadd.toAccurate hadd.frames fun _ _ =>
        List.mem_cons_self) ht
  | cell k =>
    cases ht
    exact h.add (x := .cell k) trivial (handles_cell k ▸ ho.alive h) (by rintro _ ⟨⟩)
  | function name title dev body =>
    cases ht
    exact h.addComponent (c := .function { name, title, dev, properties := .empty, body }) ho.1
      (ho.2.alive h)
  | proxy id location n =>
    cases ht
    exact h.addComponent (c := .proxy { id, location, cell := n }) ho.1 (ho.2.alive h)
  | context v =>
    cases ht
    exact ⟨{ h with active := h.actives { Retains.refl s with } (List.Subset.refl _) }, h.frames⟩
  | set n v => exact h.of_gives (write_gives h v) ht
  | update n body =>
    refine h.of_gives (Q := fun _ _ => True) (.bind (peek_gives hA n) fun v u hp _ => ?_) ht
    refine .bind (Expr.eval_gives hc { current := v } body ho.1 hp.1 (h.admits.proceeds hA hp)
      (hp.offers ho.2.offers)) fun w _ hp' _ => ?_
    exact write_gives ((h.proceeds hp).proceeds hp') w
  | redirect n k => exact h.writeCell ho.1 (ho.2.alive h) ht
  | read n =>
    exact h.discard (hc.read hA (ho.offers _ (List.mem_singleton_self _))
      fun k hk => (below k hk).elim) ht
  | evaluate env body =>
    exact h.discard (Expr.eval_gives hc env body ho.1 hA h.admits ho.2.offers) ht
  | build env body =>
    exact h.holdView (Template.eval_gives hc env body ho.1 hA h.opens ho.2.offers) ht
  | render k props =>
    exact h.holdView (hc.render hA (ho.offers _ (List.mem_singleton_self _))
      fun j hj => (below j hj).elim) ht
  | resolve v => exact h.discard (hc.resolve hA ho.offers fun k hk => (below k hk).elim) ht
  | text v => exact h.discard (textOf_gives hc hA (ho.alive h) fun k hk => (below k hk).elim) ht
  | execute n => exact h.of_gives (runEffect_gives hA h.frames fun _ _ => ho) ht
  | dispose n => exact h.dispose ht
  | markDirty n => exact h.markDirty ht
  | markMaybeDirty n => exact h.of_gives (mark_gives (notify_gives d) hA h.frames) ht
  | hold a =>
    cases ht
    exact h.hold ho
  | release a =>
    cases ht
    exact h.release a

/-- What a program makes of the empty store, if each of its interactions ends. -/
inductive Interacted : Store → Prop
  | start : Interacted {}
  | step {s t : Store} (o : Interaction) (d : Nat) : Interacted s → o.Permitted s →
    o.run (calls d) s = some ((), t) → Interacted t

theorem resting_start : Resting {} where
  listed := by simp [Edges.Listed, OrderedMap.empty]
  member := by simp [Edges.readers]
  current := by simp
  settled := by simp
  apart := List.nodup_nil
  distinct := by simp
  counted := by simp
  idle := by simp
  past := by simp
  held := by simp
  closed := by simp
  passive := by simp
  pinned := by simp
  owned := by simp
  node := by simp
  component := by simp
  active := by simp [Store.running]
  frames := rfl

theorem Interacted.resting (h : Interacted s) : s.Resting := by
  induction h with
  | start => exact resting_start
  | step o d _ ho ht ih => exact ih.interact o ho ht

theorem Resting.dependencies (h : s.Resting) {k : NodeId} {e : Effect}
    (he : s.nodes[k]? = some (.effect e)) (hl : .node k ∈ s.live) (hd : e.disposed = false) :
    e.dependencies = (Edges.listing s.edges k).length := by
  have hnot : k ∉ s.running := by simp [h.running]
  rw [h.counted he hnot]
  apply List.Perm.length_eq
  rw [List.perm_ext_iff_of_nodup (List.nodup_dedup _) (Edges.nodup_listing _ _)]
  intro n
  rw [List.mem_dedup, Edges.mem_listing]
  exact (h.settled hnot hl ⟨_, he, hd⟩ n).symm

/-- Between operations the table is exact. It lists nobody twice and nothing empty, only
computations that live and are not disposed, and each of them for what its last run read in a frame
of its own. So an effect knows how many sources list it. -/
theorem Interacted.subscriptions_exact (h : Interacted s) :
    (∀ p ∈ s.edges.entries, p.2 ≠ [] ∧ p.2.Nodup ∧ ∀ k ∈ p.2, .node k ∈ s.live ∧ s.Computes k) ∧
      (∀ k, .node k ∈ s.live → s.Computes k →
        ∀ n, k ∈ Edges.readers s.edges n ↔ n ∈ s.lastRun k) ∧
      ∀ k e, s.nodes[k]? = some (.effect e) → .node k ∈ s.live → e.disposed = false →
        e.dependencies = (Edges.listing s.edges k).length := by
  have hr := h.resting
  refine ⟨fun p hp => ?_, fun k hl hc n => hr.settled (by simp [hr.running]) hl hc n,
    fun k e he hl hd => hr.dependencies he hl hd⟩
  obtain ⟨hne, hnodup⟩ := hr.listed p hp
  refine ⟨hne, hnodup, fun k hk => hr.member (n := p.1) ?_⟩
  rwa [Edges.readers, OrderedMap.mem_entries.1 hp]

def next (d : Nat) (s : Store) (o : Interaction) : Store :=
  ((o.run (calls d) s).map Prod.snd).getD s

def Goes (d : Nat) (s : Store) : List Interaction → Prop
  | [] => True
  | o :: os => o.Permitted s ∧ (o.run (calls d) s).isSome ∧ (s.next d o).Goes d os

theorem Interacted.goes : ∀ (os : List Interaction) {s : Store}, Interacted s → s.Goes d os →
    Interacted (os.foldl (next d) s)
  | [], _, h, _ => h
  | o :: os, s, h, ⟨ho, hr, hos⟩ => by
    obtain ⟨⟨_, t⟩, ht⟩ := Option.isSome_iff_exists.1 hr
    have hnext : s.next d o = t := by rw [next, ht]; rfl
    exact Interacted.goes os (hnext ▸ h.step o d ho ht) hos

/-- A signal, a memo that reads it, a proxy for a component that shows the memo, and an effect that
reads the memo, looks at the signal, and takes the text of what the proxy renders. -/
def watching : List Interaction :=
  [.signal (.bool false), .memo "m" (.get 0), .cell none,
    .function "F" "F" true (.dynamic "n" (.text (.get 1))), .redirect 2 (some 0),
    .proxy "P" none 2, .render 1 .null,
    .effect "e" (.seq [.get 1, .untrack (.get 0), .text (.dynamic 3)]) false, .set 0 (.bool true)]

def watched : Store := watching.foldl (next 10) {}

theorem interacted_watched : Interacted watched := by
  refine Interacted.start.goes watching ?_
  simp only [watching, Goes, Interaction.Permitted, Expr.Tame, Expr.TameAll, Template.Tame,
    and_true, true_and]
  decide +kernel

theorem subscriptions_in_watched : .node 4 ∈ watched.live ∧ watched.Computes 4 ∧
    watched.lastRun 4 = [5, 3, 1] ∧ ∀ n, 4 ∈ Edges.readers watched.edges n ↔ n ∈ [5, 3, 1] := by
  have hlive : .node 4 ∈ watched.live := by decide +kernel
  have hcomputes : watched.Computes 4 := by decide +kernel
  have hlast : watched.lastRun 4 = [5, 3, 1] := by decide +kernel
  refine ⟨hlive, hcomputes, hlast, fun n => ?_⟩
  rw [← hlast]
  exact interacted_watched.subscriptions_exact.2.1 4 hlive hcomputes n

end Store

end HotSwap
