import Mathlib.Data.Option.Defs
import HotSwap.Proofs.Evaluation.Reading
import HotSwap.Proofs.Nested.Enclosing
import HotSwap.Proofs.Subscription.Frames
/-!
# Stacks and surroundings

`Follows` says that a computation over the stacks does what one does that is handed its
surroundings, and puts the stacks back. What does not look at the stacks does the same without them;
what pushes and pops follows what is handed one more enclosure.
-/

namespace HotSwap

open Machine

namespace Store

def bare (s : Store) : Store := { s with frames := [], provided := [] }

/-- The stacks are as before, but for what the computation on top has read. -/
structure Restored (s t : Store) : Prop where
  provided : t.provided = s.provided
  frames : t.frames = s.frames.modifyHead fun f => { f with sources := t.sources }
  untracked : s.reader? = none → t.frames = s.frames

variable {s t u : Store}

theorem sources_of_frames (h : t.frames = s.frames) : t.sources = s.sources := by
  rw [sources, sources, h]

theorem Restored.of_frames (hp : t.provided = s.provided) (hf : t.frames = s.frames) :
    s.Restored t where
  provided := hp
  frames := by
    rw [sources_of_frames hf, hf, sources]
    cases s.frames <;> rfl
  untracked _ := hf

theorem Restored.refl (s : Store) : s.Restored s := .of_frames rfl rfl

theorem Restored.below (h : s.Restored t) : t.frames.tail = s.frames.tail := by
  rw [h.frames]
  cases s.frames <;> rfl

theorem Restored.reader (h : s.Restored t) : t.reader? = s.reader? := by
  rw [reader?, reader?, h.frames]
  cases s.frames <;> rfl

theorem Restored.trans (h : s.Restored t) (h' : t.Restored u) : s.Restored u where
  provided := h'.provided.trans h.provided
  frames := by
    rw [h'.frames, h.frames]
    cases s.frames <;> rfl
  untracked hr := (h'.untracked (h.reader.trans hr)).trans (h.untracked hr)

theorem Restored.unique (h : s.Restored t) (h' : s.Restored u) (hb : u.bare = t.bare)
    (hs : u.sources = t.sources) : u = t := by
  have hframes : u.frames = t.frames := by rw [h.frames, h'.frames, hs]
  have hprovided : u.provided = t.provided := by rw [h.provided, h'.provided]
  calc u = { u.bare with frames := u.frames, provided := u.provided } := rfl
    _ = { t.bare with frames := t.frames, provided := t.provided } := by
      rw [hb, hframes, hprovided]
    _ = t := rfl

end Store

namespace Enclosures

/-- What the stacks of a store say of what encloses. -/
structure Describes (π : Enclosures) (s : Store) : Prop where
  captured : π.captured = s.provided
  reader : π.reader = s.reader?

theorem value?_eq (π : Enclosures) (t : Token) : π.value? t = π.captured.lookup t := by
  induction π with
  | nil => rfl
  | cons e π ih =>
    cases e with
    | computation r => exact ih
    | provider u v =>
      by_cases htu : t = u
      · subst htu
        simp [value?, captured]
      · have hbeq : (t == u) = false := by simpa using htu
        simp [value?, captured, List.lookup_cons, htu, hbeq, ih]
    | scope captured => rfl

/-- There always is something that the stacks describe. -/
theorem describes_stacks (s : Store) :
    Describes [.computation s.reader?, .scope s.provided] s := ⟨rfl, rfl⟩

theorem Describes.restored {π : Enclosures} {s t : Store} (h : π.Describes s) (ht : s.Restored t) :
    π.Describes t :=
  ⟨h.captured.trans ht.provided.symm, h.reader.trans ht.reader.symm⟩

end Enclosures

variable {α β : Type} {s t : Store} {π : Enclosures}

/-- The same answer and the same store but for the stacks, which are put back. -/
structure Matches (s : Store) (p : α × Store) (q : (α × List NodeId) × Store) : Prop where
  answer : p.1 = q.1.1
  sources : p.2.sources = q.1.2
  bare : p.2.bare = q.2
  restored : s.Restored p.2

/-- There are answers on both sides that match, or there are none. -/
def Matching (s : Store) : Option (α × Store) → Option ((α × List NodeId) × Store) → Prop :=
  Option.Rel (Matches s)

theorem Matching.map {x : Option (α × Store)} {y : Option ((α × List NodeId) × Store)}
    {f : α × Store → β × Store} {g : (α × List NodeId) × Store → (β × List NodeId) × Store}
    (h : Matching t x y) (hfg : ∀ p q, Matches t p q → Matches s (f p) (g q)) :
    Matching s (x.map f) (y.map g) := by
  cases h with
  | none => exact .none
  | some hp => exact .some (hfg _ _ hp)

theorem Matching.map_left {x : Option (α × Store)} {y : Option ((α × List NodeId) × Store)}
    {f : α × Store → α × Store} (h : Matching t x y)
    (hf : ∀ p q, Matches t p q → Matches s (f p) q) : Matching s (x.map f) y := by
  cases h with
  | none => exact .none
  | some hp => exact .some (hf _ _ hp)

theorem Matching.trans {x : Option (α × Store)} {y : Option ((α × List NodeId) × Store)}
    (hs : s.Restored t) (h : Matching t x y) : Matching s x y := by
  simpa using h.map_left (f := id) fun _ _ hp => { hp with restored := hs.trans hp.restored }

/-- On its stacks `m` does what `l` does in the surroundings that these describe. -/
def Follows (m : Machine α) (l : Enclosed α) : Prop :=
  ∀ ⦃π s⦄, π.Describes s → Matching s (m s) (l π s.sources s.bare)

/-- Calls over the stacks that do what these do. -/
structure Calls.Follow (c : Calls) (l : Enclosed.Calls) : Prop where
  read : ∀ n, Follows (c.read n) (l.read n)
  notify : ∀ n, Follows (c.notify n) (l.notify n)
  render : ∀ k props, Follows (c.render k props) (l.render k props)
  resolve : ∀ v, Follows (c.resolve v) (l.resolve v)

/-- A computation that does not look at the stacks and leaves them as they are. -/
def Machine.Stackless (m : Machine α) : Prop :=
  ∀ (s : Store) frames provided, m { s with frames, provided } =
    (m s).map fun p => (p.1, { p.2 with frames, provided })

namespace Machine.Stackless

variable {m : Machine α} {f : α → Machine β}

theorem pure (a : α) : Stackless (pure a) := fun _ _ _ => rfl

theorem bind (hm : Stackless m) (hf : ∀ a, Stackless (f a)) : Stackless (m >>= f) := by
  intro s frames provided
  rw [bind_apply, bind_apply, hm]
  cases m s with
  | none => rfl
  | some p => exact hf p.1 p.2 frames provided

theorem emit (e : Event) : Stackless (emit e) := fun _ _ _ => rfl

theorem node? (n : NodeId) : Stackless (node? n) := fun _ _ _ => rfl

theorem setNode (n : NodeId) (x : Node) : Stackless (setNode n x) := fun _ _ _ => rfl

theorem addNode (x : Node) : Stackless (addNode x) := fun _ _ _ => rfl

theorem component? (k : ComponentId) : Stackless (component? k) := fun _ _ _ => rfl

theorem isDev (k : ComponentId) : Stackless (isDev k) := fun _ _ _ => rfl

theorem context (k : ContextId) : Stackless (context k) := fun _ _ _ => rfl

theorem contextToken (k : ContextId) : Stackless (contextToken k) := fun _ _ _ => rfl

theorem subscribe (n r : NodeId) : Stackless (subscribe n r) := fun _ _ _ => rfl

theorem unsubscribe (r : NodeId) : Stackless (unsubscribe r) := fun _ _ _ => rfl

theorem liveReaders (n : NodeId) : Stackless (liveReaders n) := fun _ _ _ => rfl

theorem reactiveView (r : Recipe) : Stackless (reactiveView r) := fun _ _ _ => rfl

theorem memo? (n : NodeId) : Stackless (memo? n) :=
  .bind (.node? n) fun y => by
    rcases y with _ | (_ | _ | _ | _ | _ | _) <;> exact .pure _

theorem effect? (n : NodeId) : Stackless (effect? n) :=
  .bind (.node? n) fun y => by
    rcases y with _ | (_ | _ | _ | _ | _ | _) <;> exact .pure _

theorem cellContent (n : NodeId) : Stackless (cellContent n) :=
  .bind (.node? n) fun y => by
    rcases y with _ | (_ | _ | _ | _ | _ | _) <;> exact .pure _

theorem peek (n : NodeId) : Stackless (Machine.peek n) :=
  .bind (.node? n) fun y => by
    rcases y with _ | (_ | _ | _ | _ | _ | _) <;> exact .pure _

theorem survivors_framed (s : Store) (frames : List Frame) (provided : Scope) :
    Store.survivors { s with frames, provided } = s.survivors := by
  have hsettle (fuel : Nat) (live : List Handle) :
      Store.settle { s with frames, provided } fuel live = s.settle fuel live := by
    induction fuel generalizing live with
    | zero => rfl
    | succ fuel ih =>
      have hcontents : Store.contents { s with frames, provided } = s.contents := by
        funext h
        cases h <;> rfl
      have hheld : Store.heldBy { s with frames, provided } live = s.heldBy live := by
        simp only [Store.heldBy, hcontents]
      rw [Store.settle, Store.settle, hheld, ih]
  exact hsettle _ _

theorem collect : Stackless collect := by
  intro s frames provided
  rw [collect_apply, collect_apply, Store.collect, survivors_framed]
  rfl

theorem release (h : Handle) : Stackless (Machine.release h) :=
  .bind (fun _ _ _ => rfl) fun _ => .collect

theorem disposeEffect (n : NodeId) : Stackless (disposeEffect n) :=
  .bind (.effect? n) fun e => by
    cases e with
    | none => exact .pure _
    | some e => exact .bind (.setNode n _) fun _ => .unsubscribe n

theorem settleMemo (n : NodeId) (x : Content) : Stackless (settleMemo n x) :=
  .bind (.memo? n) fun m => by
    cases m with
    | none => exact .pure _
    | some m =>
      refine .bind (.setNode n _) fun _ => ?_
      obtain ⟨recipe, value, freshness⟩ := m
      rcases value with _ | (_ | _ | _)
      case some.view => exact .collect
      all_goals exact .pure _

end Machine.Stackless

namespace Follows

variable {m : Machine α} {l : Enclosed α} {f : α → Machine β} {g : α → Enclosed β}

theorem pure (a : α) : Follows (pure a) (pure a) :=
  fun _ s _ => .some ⟨rfl, rfl, rfl, .refl s⟩

theorem enclosed_bind (l : Enclosed α) (g : α → Enclosed β) (π : Enclosures) (xs : List NodeId)
    (b : Store) : (l >>= g) π xs b = (l π xs b).bind fun p => g p.1.1 π p.1.2 p.2 := by
  change (l π xs >>= fun p => g p.1 π p.2) b = _
  rw [bind_apply]

theorem enclosed_reader (π : Enclosures) (xs : List NodeId) (b : Store) :
    Enclosed.reader π xs b = some ((π.reader, xs), b) := rfl

theorem enclosed_inFrame (r : Option NodeId) (l : Enclosed α) (π : Enclosures) (xs : List NodeId)
    (b : Store) : Enclosed.inFrame r l π xs b =
      (l (.computation r :: π) [] b).map fun p => (((p.1.1, p.1.2.length), xs), p.2) := by
  change (l (.computation r :: π) [] >>= fun p => Pure.pure ((p.1, p.2.length), xs)) b = _
  rw [bind_apply]
  cases l (.computation r :: π) [] b <;> rfl

theorem bind (hm : Follows m l) (hf : ∀ a, Follows (f a) (g a)) : Follows (m >>= f) (l >>= g) := by
  intro π s hπ
  rw [bind_apply, enclosed_bind]
  have hrel := hm hπ
  generalize m s = x at hrel
  generalize l π s.sources s.bare = y at hrel
  cases hrel with
  | none => exact .none
  | some hp =>
    rename_i p q
    obtain ⟨⟨a, xs⟩, b⟩ := q
    obtain ⟨rfl, rfl, rfl, hs⟩ := hp
    exact .trans hs (hf p.1 (hπ.restored hs))

theorem lift (hm : Stackless m) : Follows m (liftM m) := by
  intro π s _
  have hs : m s = (m s.bare).map fun p =>
      (p.1, { p.2 with frames := s.frames, provided := s.provided }) :=
    hm s.bare s.frames s.provided
  have hbare : m s.bare = (m s.bare).map fun p => (p.1, p.2.bare) := hm s.bare [] []
  change Matching s (m s) ((m >>= fun a => Pure.pure (a, s.sources)) s.bare)
  rw [hs, bind_apply]
  cases hb : m s.bare with
  | none => exact .none
  | some p =>
    rw [hb] at hbare
    have hp : p.2 = p.2.bare := congrArg Prod.snd (Option.some.inj hbare)
    exact .some ⟨rfl, rfl, hp.symm, .of_frames rfl rfl⟩

theorem reader : Follows reader Enclosed.reader := by
  intro π s hπ
  exact .some ⟨hπ.reader.symm, rfl, rfl, .refl s⟩

theorem captured {f : Scope → Machine α} {g : Scope → Enclosed α}
    (h : ∀ scope, Follows (f scope) (g scope)) :
    Follows (do f (← get).provided) (do g (← Enclosed.enclosures).captured) := by
  intro π s hπ
  change Matching s (f s.provided s) (g π.captured π s.sources s.bare)
  rw [hπ.captured]
  exact h s.provided hπ

theorem track (n : NodeId) : Follows (track n) (Enclosed.track n) := by
  intro π s hπ
  rw [track_eq, Enclosed.track, enclosed_bind, enclosed_reader, Option.bind_some, hπ.reader]
  rcases s.tracked_cases n with ⟨hr, ht⟩ | ⟨r, xs, rest, hf, ht⟩
  · rw [hr, ht]
    exact .some ⟨rfl, rfl, rfl, .refl s⟩
  · have hr : s.reader? = some r := by simp [Store.reader?, hf]
    have hxs : s.sources = xs := by simp [Store.sources, hf]
    rw [hr]
    have hsources : (s.tracked n).sources = if n ∈ xs then xs else xs ++ [n] := by
      by_cases hn : n ∈ xs <;> simp [ht, Store.sources, Frame.reading, hn]
    have hframes : (s.tracked n).frames =
        s.frames.modifyHead fun f => { f with sources := (s.tracked n).sources } := by
      rw [hsources, hf, ht]
      by_cases hn : n ∈ xs <;> simp [Frame.reading, hn]
    refine .some ⟨rfl, ?_, ?_, ?_, hframes, ?_⟩
    · rw [hsources, hxs]
    · rw [ht]
      rfl
    · rw [ht]
    · intro hnone
      rw [hr] at hnone
      cases hnone

theorem inFrame (r : Option NodeId) (hm : Follows m l) :
    Follows (inFrame r m) (Enclosed.inFrame r l) := by
  intro π s hπ
  have hpush : Enclosures.Describes (.computation r :: π)
      { s with frames := { reader := r } :: s.frames } := ⟨hπ.captured, rfl⟩
  rw [inFrame_apply, enclosed_inFrame]
  refine (hm hpush).map fun p q hp => ?_
  -- What was read goes with the frame that is popped, and the frames below have not changed.
  have hbelow : p.2.frames.tail = s.frames := hp.restored.below
  exact {
    answer := Prod.ext hp.answer (congrArg List.length hp.sources)
    sources := congrArg (fun fs : List Frame => (fs.head?.map Frame.sources).getD []) hbelow
    bare := hp.bare
    restored := .of_frames hp.restored.provided hbelow }

theorem untracked (hm : Follows m l) : Follows (untracked m) (Enclosed.untracked l) :=
  .bind (.inFrame none hm) fun _ => .pure _

theorem providing (t : Token) (v : Json) (hm : Follows m l) :
    Follows (providing t v m) (Enclosed.providing t v l) := by
  intro π s hπ
  have hpush : Enclosures.Describes (.provider t v :: π)
      { s with provided := (t, v) :: s.provided } :=
    ⟨congrArg (List.cons (t, v)) hπ.captured, hπ.reader⟩
  rw [providing_apply]
  exact (hm hpush).map_left fun p q hp =>
    { hp with restored :=
      ⟨congrArg List.tail hp.restored.provided, hp.restored.frames, hp.restored.untracked⟩ }

theorem inScope (scope : Scope) (hm : Follows m l) :
    Follows (inScope scope m) (Enclosed.inScope scope l) := by
  intro π s hπ
  have hpush : Enclosures.Describes (.scope scope :: π) { s with provided := scope } :=
    ⟨rfl, hπ.reader⟩
  rw [inScope_apply]
  exact (hm hpush).map_left fun p q hp =>
    { hp with restored := ⟨rfl, hp.restored.frames, hp.restored.untracked⟩ }

theorem keeping (hs : List Handle) (hm : Follows m l) :
    Follows (keeping hs m) (Enclosed.keeping hs l) := by
  intro π s hπ
  have hpin : π.Describes { s with pinned := hs ++ s.pinned } := ⟨hπ.captured, hπ.reader⟩
  change Matching s _ (Machine.keeping hs (l π s.sources) s.bare)
  rw [keeping_apply, keeping_apply]
  refine (hm hpin).map fun p q hp => ⟨hp.answer, hp.sources, ?_, { hp.restored with }⟩
  exact congrArg (fun b : Store => { b with pinned := s.pinned }) hp.bare

theorem borrowing (v : View) (hm : Follows m l) :
    Follows (borrowing v m) (Enclosed.borrowing v l) :=
  .bind (.keeping _ hm) fun _ => .bind (.lift .collect) fun _ => .pure _

theorem useContext (k : ContextId) : Follows (useContext k) (Enclosed.useContext k) := by
  intro π s hπ
  rw [useContext_apply, ← hπ.captured, ← Enclosures.value?_eq]
  exact .some ⟨rfl, rfl, rfl, .refl s⟩

end Follows

end HotSwap
