import HotSwap.Proofs.Evaluation.Within
/-!
# The steps of a read

What each step of a read makes of a store: the subscription, the frame of a memo that is computed, and
the value that it takes.
-/

namespace HotSwap

open Machine

namespace Store

def tracked (s : Store) (source : NodeId) : Store :=
  match s.frames with
  | ⟨some r, sources⟩ :: rest => { s with
      frames := (Frame.mk (some r) sources).reading source :: rest
      edges := Edges.subscribe s.edges source r }
  | _ => s

def started (s : Store) (n : NodeId) : Store :=
  { s.tracked n with
    edges := Edges.unsubscribe (s.tracked n).edges n
    frames := { reader := some n } :: (s.tracked n).frames }

def filled (s : Store) (n : NodeId) (m : Memo) (x : Content) : Store :=
  { s with nodes := s.nodes.set n (.memo { m with value := some x, freshness := .clean }) }

def settled (s : Store) (n : NodeId) (x : Content) : Store :=
  match s.memoAt n with
  | none => s
  | some m =>
    let t := { s with nodes := s.nodes.set n (.memo { m with value := some x, freshness := .clean }) }
    match m.value with
    | some (.view _) => t.collect
    | _ => t

def recorded (s : Store) (n : NodeId) (x : Content) : Store :=
  { s with trace := .read (s.frames.head?.bind Frame.reader) n x :: s.trace }

variable {s : Store} {n : NodeId} {m : Memo}

@[simp] theorem nodes_tracked (s : Store) (source : NodeId) :
    (s.tracked source).nodes = s.nodes := by
  unfold tracked
  split <;> rfl

theorem nodes_started (s : Store) (n : NodeId) : (s.started n).nodes = s.nodes := nodes_tracked s n

theorem settled_cases (hn : s.nodes[n]? = some (.memo m)) (x : Content) :
    s.settled n x = s.filled n m x ∨ s.settled n x = (s.filled n m x).collect := by
  rw [Store.settled, memoAt_eq_some.2 hn]
  dsimp only
  split
  · exact .inr rfl
  · exact .inl rfl

theorem settled_of_json (hn : s.nodes[n]? = some (.memo m))
    (hv : ∀ v, m.value = some v → ∃ j, v = .json j) (x : Content) :
    s.settled n x = s.filled n m x := by
  rw [Store.settled, memoAt_eq_some.2 hn]
  dsimp only
  split
  · rename_i hview
    obtain ⟨j, hj⟩ := hv _ hview
    cases hj
  · rfl

end Store

namespace Machine

theorem inFrame_apply (r : Option NodeId) (m : Machine α) (s : Store) :
    inFrame r m s = (m { s with frames := { reader := r } :: s.frames }).map fun p =>
      ((p.1, ((p.2.frames.head?.map Frame.sources).getD []).length),
        { p.2 with frames := p.2.frames.tail }) := by
  simp only [inFrame, push, bind_apply, modify_apply, Option.bind_some]
  rcases m { s with frames := { reader := r } :: s.frames } with _ | ⟨b, w⟩ <;>
    simp [sources, pop]

theorem untracked_apply (m : Machine α) (s : Store) :
    untracked m s = (m { s with frames := { reader := none } :: s.frames }).map fun p =>
      (p.1, { p.2 with frames := p.2.frames.tail }) := by
  simp only [untracked, bind_apply, inFrame_apply]
  rcases m { s with frames := { reader := none } :: s.frames } with _ | ⟨b, w⟩ <;> rfl

theorem inScope_apply (scope : Scope) (m : Machine α) (s : Store) :
    inScope scope m s = (m { s with provided := scope }).map fun p =>
      (p.1, { p.2 with provided := s.provided }) := by
  simp only [inScope, bind_apply, modify_apply, get_apply, Option.bind_some]
  rcases m { s with provided := scope } with _ | ⟨b, w⟩ <;> simp

theorem providing_apply (τ : Token) (v : Json) (m : Machine α) (s : Store) :
    providing τ v m s = (m { s with provided := (τ, v) :: s.provided }).map fun p =>
      (p.1, { p.2 with provided := p.2.provided.tail }) := by
  simp only [providing, bind_apply, modify_apply, Option.bind_some]
  rcases m { s with provided := (τ, v) :: s.provided } with _ | ⟨b, w⟩ <;> simp

theorem keeping_apply (hs : List Handle) (m : Machine α) (s : Store) :
    keeping hs m s = (m { s with pinned := hs ++ s.pinned }).map fun p =>
      (p.1, { p.2 with pinned := s.pinned }) := by
  simp only [keeping, bind_apply, modify_apply, get_apply, Option.bind_some]
  rcases m { s with pinned := hs ++ s.pinned } with _ | ⟨b, w⟩ <;> simp

theorem settleMemo_apply (n : NodeId) (x : Content) (s : Store) :
    settleMemo n x s = some ((), s.settled n x) := by
  simp only [settleMemo, bind_apply, memo?_apply, Option.bind_some, Store.settled]
  cases s.memoAt n with
  | none => rfl
  | some m =>
    obtain ⟨recipe, value, freshness⟩ := m
    rcases value with _ | (_ | _ | _) <;> rfl

theorem track_eq (source : NodeId) (s : Store) :
    track source s = some ((), s.tracked source) := rfl

variable {s t : Store} {n : NodeId} {m : Memo} {x : Content}

theorem recompute_eq_some {c : Calls} (h : recompute c n m s = some (x, t)) :
    ∃ u, runRecipe c n m.recipe { s with
        edges := Edges.unsubscribe s.edges n, frames := { reader := some n } :: s.frames } =
          some (x, u) ∧ t = Store.settled { u with frames := u.frames.tail } n x := by
  simp only [recompute, unsubscribe, bind_apply, modify_apply, Option.bind_some] at h
  obtain ⟨⟨⟨y, k⟩, u'⟩, hframe, h⟩ := Option.bind_eq_some_iff.1 h
  obtain ⟨u, hu, -, rfl⟩ := inFrame_eq_some.1 hframe
  simp only [settleMemo_apply, Option.bind_some, pure_apply, Option.some.injEq,
    Prod.mk.injEq] at h
  obtain ⟨rfl, rfl⟩ := h
  exact ⟨u, hu, rfl⟩

theorem recompute_of_run {c : Calls} (h : runRecipe c n m.recipe { s with
      edges := Edges.unsubscribe s.edges n, frames := { reader := some n } :: s.frames } =
        some (x, t)) :
    recompute c n m s = some (x, Store.settled { t with frames := t.frames.tail } n x) := by
  simp only [recompute, unsubscribe, bind_apply, modify_apply, Option.bind_some, inFrame_apply]
  rw [h]
  simp [settleMemo_apply]

theorem readNode_of_content {c : Calls} (h : content c n (s.tracked n) = some (x, t)) :
    readNode c n s = some (x, { t with
      trace := .read (t.frames.head?.bind Frame.reader) n x :: t.trace }) := by
  simp [readNode, track_eq, h, reader_apply, emit]

theorem content_of_memo (c : Calls) (hn : s.nodes[n]? = some (.memo m)) :
    content c n (s.tracked n) = memoContent c n m (s.tracked n) := by
  simp [content, node?_apply, hn]

theorem recompute_apply (c : Calls) (n : NodeId) (m : Memo) (s : Store) :
    recompute c n m s = (runRecipe c n m.recipe { s with
      edges := Edges.unsubscribe s.edges n, frames := { reader := some n } :: s.frames }).map
        fun p => (p.1, Store.settled { p.2 with frames := p.2.frames.tail } n p.1) := by
  simp only [recompute, unsubscribe, bind_apply, modify_apply, Option.bind_some, inFrame_apply]
  cases runRecipe c n m.recipe { s with
      edges := Edges.unsubscribe s.edges n, frames := { reader := some n } :: s.frames } <;>
    simp [settleMemo_apply]

theorem readNode_of_due (c : Calls) (hn : s.nodes[n]? = some (.memo m)) (due : m.Due) :
    readNode c n s = (runRecipe c n m.recipe (s.started n)).map fun p =>
      (p.1, (Store.settled { p.2 with frames := p.2.frames.tail } n p.1).recorded n p.1) := by
  simp only [readNode, bind_apply, track_eq, Option.bind_some, content_of_memo c hn,
    memoContent_of_due c n due, recompute_apply]
  change ((runRecipe c n m.recipe (s.started n)).map _).bind _ = _
  cases runRecipe c n m.recipe (s.started n) <;> rfl

end Machine

end HotSwap
