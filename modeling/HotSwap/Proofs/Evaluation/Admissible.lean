import HotSwap.Eval.Depth
import HotSwap.Proofs.Machine.Within
/-!
# What an evaluation does to a store

An evaluation changes a store by few primitive changes, and undoes what it pushed on a stack. A
relation that allows each of them is `Admissible`; then every body, read, render and notification is
within it, provided that what they call is. Only the recomputation of a memo is left open, as its
parts may leave the relation although the whole does not.
-/

namespace HotSwap

open Machine

/-- A mounted node reads the cell of some proxy. -/
def Store.Mountable (s : Store) (r : Recipe) : Prop :=
  ∀ {cell props scope}, r = .mount cell props scope →
    ∃ (k : ComponentId) (p : Proxy), s.components[k]? = some (.proxy p) ∧ p.cell = cell

/-- A preorder that allows every primitive change of an evaluation. -/
structure Admissible (R : Store → Store → Prop) : Prop where
  refl : ∀ s, R s s
  trans : ∀ ⦃s t u⦄, R s t → R t u → R s u
  emit : ∀ s e, R s { s with trace := e :: s.trace }
  addMemo : ∀ {s : Store} {r}, s.Mountable r → R s { s with
    nodes := s.nodes ++ [.memo { recipe := r }]
    live := .node s.nodes.length :: s.live }
  signal : ∀ {s : Store} {n v} w, s.nodes[n]? = some (.signal v) →
    R s { s with nodes := s.nodes.set n (.signal w) }
  mark : ∀ {s : Store} {n m}, s.nodes[n]? = some (.memo m) →
    R s { s with nodes := s.nodes.set n (.memo { m with freshness := .maybeDirty }) }
  effect : ∀ {s : Store} {n e} disposed runs dependencies, s.nodes[n]? = some (.effect e) →
    R s { s with nodes := s.nodes.set n (.effect { e with disposed, runs, dependencies }) }
  track : ∀ {s : Store} {r sources rest} n, s.frames = ⟨some r, sources⟩ :: rest →
    R s { s with
      frames := (Frame.mk (some r) sources).reading n :: rest
      edges := Edges.subscribe s.edges n r }
  unsubscribe : ∀ {s : Store} {n e}, s.nodes[n]? = some (.effect e) →
    R s { s with edges := Edges.unsubscribe s.edges n }
  collect : ∀ s : Store, R s s.collect
  roots : ∀ (s : Store) hs, R s { s with roots := hs }
  /-- What runs in a frame of its own. -/
  frame : ∀ {s t : Store} r, R { s with frames := { reader := r } :: s.frames } t →
    R s { t with frames := t.frames.tail }
  providing : ∀ {s t : Store} p, R { s with provided := p :: s.provided } t →
    R s { t with provided := t.provided.tail }
  scope : ∀ {s t : Store} p, R { s with provided := p } t → R s { t with provided := s.provided }
  /-- What runs while more is held. -/
  pinned : ∀ {s t : Store} {hs}, s.pinned ⊆ hs → R { s with pinned := hs } t →
    R s { t with pinned := s.pinned }

/-- `c'` answers whatever `c` answers, and the store moves along `R`. -/
structure Calls.Within (R : Store → Store → Prop) (c c' : Calls) : Prop where
  read : ∀ n, Machine.Within R (c.read n) (c'.read n)
  notify : ∀ n, Machine.Within R (c.notify n) (c'.notify n)
  render : ∀ k props, Machine.Within R (c.render k props) (c'.render k props)
  resolve : ∀ v, Machine.Within R (c.resolve v) (c'.resolve v)

theorem Calls.none_within (R : Store → Store → Prop) (c : Calls) : Calls.none.Within R c := by
  constructor <;> (intros; intro s a t h; cases h)

namespace Store

def memoAt (s : Store) (n : NodeId) : Option Memo :=
  match s.nodes[n]? with
  | some (.memo m) => some m
  | _ => none

def effectAt (s : Store) (n : NodeId) : Option Effect :=
  match s.nodes[n]? with
  | some (.effect e) => some e
  | _ => none

def held (s : Store) (n : NodeId) : Option ComponentId :=
  match s.nodes[n]? with
  | some (.cell k) => k
  | _ => none

theorem memoAt_eq_some {s : Store} {n : NodeId} {m : Memo} :
    s.memoAt n = some m ↔ s.nodes[n]? = some (.memo m) := by
  unfold memoAt
  cases s.nodes[n]? with
  | none => simp
  | some x => cases x <;> simp

theorem effectAt_eq_some {s : Store} {n : NodeId} {e : Effect} :
    s.effectAt n = some e ↔ s.nodes[n]? = some (.effect e) := by
  unfold effectAt
  cases s.nodes[n]? with
  | none => simp
  | some x => cases x <;> simp

end Store

namespace Machine

variable {R : Store → Store → Prop} {c c' : Calls} (hR : Admissible R) (hc : c.Within R c')

section Primitives

theorem setNode_apply (n : NodeId) (x : Node) (s : Store) :
    setNode n x s = some ((), { s with nodes := s.nodes.set n x }) := rfl

theorem node?_apply (n : NodeId) (s : Store) : node? n s = some (s.nodes[n]?, s) := rfl

theorem component?_apply (k : ComponentId) (s : Store) :
    component? k s = some (s.components[k]?, s) := rfl

theorem memo?_apply (n : NodeId) (s : Store) : memo? n s = some (s.memoAt n, s) := by
  simp only [memo?, bind_apply, node?_apply, Option.bind_some, Store.memoAt]
  cases s.nodes[n]? with
  | none => rfl
  | some x => cases x <;> rfl

theorem effect?_apply (n : NodeId) (s : Store) : effect? n s = some (s.effectAt n, s) := by
  simp only [effect?, bind_apply, node?_apply, Option.bind_some, Store.effectAt]
  cases s.nodes[n]? with
  | none => rfl
  | some x => cases x <;> rfl

theorem cellContent_apply (n : NodeId) (s : Store) : cellContent n s = some (s.held n, s) := by
  simp only [cellContent, bind_apply, node?_apply, Option.bind_some, Store.held]
  cases s.nodes[n]? with
  | none => rfl
  | some x => cases x <;> rfl

theorem isDev_apply (k : ComponentId) (s : Store) :
    isDev k s = some (((s.components[k]?).map Component.isDev).getD false, s) := rfl

theorem track_apply (n : NodeId) (s : Store) :
    track n s = some ((), match s.frames with
      | ⟨some r, sources⟩ :: rest => { s with
          frames := (Frame.mk (some r) sources).reading n :: rest
          edges := Edges.subscribe s.edges n r }
      | _ => s) := rfl

theorem collect_apply (s : Store) : collect s = some ((), s.collect) := rfl

theorem useContext_apply (k : ContextId) (s : Store) :
    useContext k s = some ((s.provided.lookup ((s.contexts[k]?).getD ⟨0, 0, .null⟩).token).getD
      ((s.contexts[k]?).getD ⟨0, 0, .null⟩).fallback, s) := rfl

theorem contextToken_apply (k : ContextId) (s : Store) :
    contextToken k s =
      some ((s.providers[((s.contexts[k]?).getD ⟨0, 0, .null⟩).provider]?).getD 0, s) := rfl

theorem reader_apply (s : Store) : reader s = some (s.frames.head?.bind Frame.reader, s) := rfl

theorem inFrame_eq_some {r : Option NodeId} {m : Machine α} {s t : Store} {p : α × Nat} :
    inFrame r m s = some (p, t) ↔
      ∃ u, m { s with frames := { reader := r } :: s.frames } = some (p.1, u) ∧
        ((u.frames.head?.map Frame.sources).getD []).length = p.2 ∧
        { u with frames := u.frames.tail } = t := by
  obtain ⟨a, k⟩ := p
  simp only [inFrame, push, bind_apply, modify_apply, Option.bind_some]
  rcases m { s with frames := { reader := r } :: s.frames } with _ | ⟨b, w⟩ <;>
    simp [sources, pop, and_assoc]

theorem providing_eq_some {t : Token} {v : Json} {m : Machine α} {s u : Store} {a : α} :
    providing t v m s = some (a, u) ↔
      ∃ w, m { s with provided := (t, v) :: s.provided } = some (a, w) ∧
        { w with provided := w.provided.tail } = u := by
  simp only [providing, bind_apply, modify_apply, Option.bind_some]
  rcases m { s with provided := (t, v) :: s.provided } with _ | ⟨b, w⟩ <;> simp [and_assoc]

theorem inScope_eq_some {scope : Scope} {m : Machine α} {s u : Store} {a : α} :
    inScope scope m s = some (a, u) ↔
      ∃ w, m { s with provided := scope } = some (a, w) ∧ { w with provided := s.provided } = u := by
  simp only [inScope, bind_apply, modify_apply, get_apply, Option.bind_some]
  rcases m { s with provided := scope } with _ | ⟨b, w⟩ <;> simp [and_assoc]

theorem keeping_eq_some {hs : List Handle} {m : Machine α} {s u : Store} {a : α} :
    keeping hs m s = some (a, u) ↔
      ∃ w, m { s with pinned := hs ++ s.pinned } = some (a, w) ∧
        { w with pinned := s.pinned } = u := by
  simp only [keeping, bind_apply, modify_apply, get_apply, Option.bind_some]
  rcases m { s with pinned := hs ++ s.pinned } with _ | ⟨b, w⟩ <;> simp [and_assoc]

theorem disposeEffect_of_effect {n : NodeId} {e : Effect} {s : Store}
    (h : s.nodes[n]? = some (.effect e)) :
    disposeEffect n s = some ((), { s with
      nodes := s.nodes.set n (.effect { e with disposed := true })
      edges := Edges.unsubscribe s.edges n }) := by
  simp [disposeEffect, effect?_apply, Store.effectAt_eq_some.2 h, setNode_apply, unsubscribe]

theorem disposeEffect_of_ne {n : NodeId} {s : Store} (h : ∀ e, s.nodes[n]? ≠ some (.effect e)) :
    disposeEffect n s = some ((), s) := by
  have hn : s.effectAt n = none :=
    Option.eq_none_iff_forall_ne_some.2 fun e he => h e (Store.effectAt_eq_some.1 he)
  simp [disposeEffect, effect?_apply, hn]

theorem write_of_signal (c : Calls) {n : NodeId} {w : Json} {s : Store}
    (h : s.nodes[n]? = some (.signal w)) (v : Json) :
    write c n v s = c.notify n { s with nodes := s.nodes.set n (.signal v) } := by
  simp [write, node?_apply, h, setNode_apply]

theorem write_of_ne (c : Calls) {n : NodeId} {s : Store}
    (h : ∀ w, s.nodes[n]? ≠ some (.signal w)) (v : Json) : write c n v s = some ((), s) := by
  simp only [write, bind_apply, node?_apply, Option.bind_some]
  cases hn : s.nodes[n]? with
  | none => rfl
  | some x =>
    cases x with
    | signal w => exact absurd hn (h w)
    | _ => rfl

end Primitives

include hR

theorem emit_within (e : Event) : Within R (emit e) (emit e) := .of_modify fun s => hR.emit s e

theorem collect_within : Within R collect collect := .of_modify hR.collect

theorem track_within (n : NodeId) : Within R (track n) (track n) := by
  refine .of_modify fun s => ?_
  split
  · exact hR.track n ‹_›
  · exact hR.refl s

theorem release_within (h : Handle) : Within R (release h) (release h) :=
  .bind hR.trans (.of_modify fun s => hR.roots s _) fun _ => collect_within hR

theorem inFrame_within (r : Option NodeId) {m m' : Machine α} (h : Within R m m') :
    Within R (inFrame r m) (inFrame r m') := by
  intro s p t hp
  obtain ⟨u, hu, hk, rfl⟩ := inFrame_eq_some.1 hp
  obtain ⟨hu', r⟩ := h _ hu
  exact ⟨inFrame_eq_some.2 ⟨u, hu', hk, rfl⟩, hR.frame _ r⟩

theorem untracked_within {m m' : Machine α} (h : Within R m m') :
    Within R (untracked m) (untracked m') :=
  .bind hR.trans (inFrame_within hR none h) fun _ => .of_pure hR.refl _

theorem providing_within (t : Token) (v : Json) {m m' : Machine α} (h : Within R m m') :
    Within R (providing t v m) (providing t v m') := by
  intro s a u ha
  obtain ⟨w, hw, rfl⟩ := providing_eq_some.1 ha
  obtain ⟨hw', r⟩ := h _ hw
  exact ⟨providing_eq_some.2 ⟨w, hw', rfl⟩, hR.providing _ r⟩

theorem inScope_within (scope : Scope) {m m' : Machine α} (h : Within R m m') :
    Within R (inScope scope m) (inScope scope m') := by
  intro s a u ha
  obtain ⟨w, hw, rfl⟩ := inScope_eq_some.1 ha
  obtain ⟨hw', r⟩ := h _ hw
  exact ⟨inScope_eq_some.2 ⟨w, hw', rfl⟩, hR.scope _ r⟩

theorem keeping_within (hs : List Handle) {m m' : Machine α} (h : Within R m m') :
    Within R (keeping hs m) (keeping hs m') := by
  intro s a u ha
  obtain ⟨w, hw, rfl⟩ := keeping_eq_some.1 ha
  obtain ⟨hw', r⟩ := h _ hw
  exact ⟨keeping_eq_some.2 ⟨w, hw', rfl⟩, hR.pinned (List.subset_append_right ..) r⟩

theorem borrowing_within (v : View) {m m' : Machine α} (h : Within R m m') :
    Within R (borrowing v m) (borrowing v m') :=
  .bind hR.trans (keeping_within hR _ h) fun _ =>
    .bind hR.trans (collect_within hR) fun _ => .of_pure hR.refl _

theorem disposeEffect_within (n : NodeId) : Within R (disposeEffect n) (disposeEffect n) := by
  intro s
  by_cases h : ∃ e, s.nodes[n]? = some (.effect e)
  · obtain ⟨e, he⟩ := h
    have hn : (s.nodes.set n (.effect { e with disposed := true }))[n]?
        = some (.effect { e with disposed := true }) := by
      simp [(List.getElem?_eq_some_iff.1 he).1]
    have hs := disposeEffect_of_effect he
    exact .of_eq hs hs (hR.trans (hR.effect true _ _ he) (hR.unsubscribe hn))
  · have hs := disposeEffect_of_ne fun e he => h ⟨e, he⟩
    exact .of_eq hs hs (hR.refl s)

theorem reactiveView_within {r : Recipe} {s : Store} (h : s.Mountable r) :
    WithinAt R s (reactiveView r) (reactiveView r) :=
  .of_eq rfl rfl (hR.addMemo h)

include hc

theorem textOf_within (v : View) : Within R (textOf c v) (textOf c' v) :=
  .bind hR.trans (borrowing_within hR v (hc.resolve v)) fun _ => .of_pure hR.refl _

theorem write_within (n : NodeId) (v : Json) : Within R (write c n v) (write c' n v) := by
  intro s
  by_cases h : ∃ w, s.nodes[n]? = some (.signal w)
  · obtain ⟨w, hw⟩ := h
    intro a t ha
    rw [write_of_signal c hw] at ha
    obtain ⟨ha', ht⟩ := hc.notify n _ ha
    exact ⟨by rw [write_of_signal c' hw, ha'], hR.trans (hR.signal v hw) ht⟩
  · have hs (c) := write_of_ne c (fun w hw => h ⟨w, hw⟩) v
    exact .of_eq (hs c) (hs c') (hR.refl s)

end Machine

end HotSwap
