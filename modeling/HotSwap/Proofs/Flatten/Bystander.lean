import HotSwap.Proofs.Evaluation.Shifted
import HotSwap.Proofs.Subscription.Frames
/-!
# Standing by

While others compute, a computation that waits for them reads nothing, and as long as it lives it
stays subscribed to what it has read. It must not be what they run, end or let go of: they write
nothing, so that nobody is notified, and they reach only what is in `H`, which the one that waits is
not.
-/

namespace HotSwap

open Machine

/-- Until `t` the computation `r` has read `ns`, one after the other. If it still lives, it is
subscribed to these and to what it was subscribed to before. -/
structure Store.ReadBy (r : NodeId) (ns : List NodeId) (s t : Store) : Prop where
  trace : ∃ es, t.trace = es ++ s.trace ∧ readsOf r es = ns.reverse
  live : .node r ∈ t.live → .node r ∈ s.live
  readers : .node r ∈ t.live → ∀ n,
    r ∈ Edges.readers t.edges n ↔ r ∈ Edges.readers s.edges n ∨ n ∈ ns

/-- Until `t` the computation `r` has read `ns`, and what is known still is. -/
structure Store.Reads (N : Nat) (H : Handle → Prop) (r : NodeId) (ns : List NodeId) (s t : Store) :
    Prop extends ReadBy r ns s t where
  closed : t.Closed N H
  bound : N ≤ t.nodes.length
  frames : t.frames.map Frame.reader = s.frames.map Frame.reader

/-- Wherever `F` holds of who runs, `r` stands by until there is an answer. -/
def Sparing (N : Nat) (H : Handle → Prop) (r : NodeId) (F : Option NodeId → Prop) (V : α → Prop)
    (m : Machine α) : Prop :=
  ∀ ⦃s a t⦄, s.Closed N H → N ≤ s.nodes.length → F s.reader? → m s = some (a, t) →
    V a ∧ s.Reads N H r [] t

def AllKnown (N : Nat) (H : Handle → Prop) (hs : List Handle) : Prop := ∀ h ∈ hs, Known N H h

/-- Calls that let `r` stand by, unless it is `r` that calls. -/
structure Calls.Sparing (N : Nat) (H : Handle → Prop) (r : NodeId) (c : Calls) : Prop where
  read : ∀ n, Known N H (.node n) →
    HotSwap.Sparing N H r (· ≠ some r) (AllKnown N H ·.handles) (c.read n)
  render : ∀ k props, H (.component k) →
    HotSwap.Sparing N H r (· ≠ some r) (AllKnown N H ·.handles) (c.render k props)
  resolve : ∀ v : View, AllKnown N H v.handles →
    HotSwap.Sparing N H r (· ≠ some r) (fun _ => True) (c.resolve v)

variable {N : Nat} {H : Handle → Prop} {r : NodeId} {F : Option NodeId → Prop} {s t u : Store}
  {ms ns : List NodeId}

theorem AllKnown.nil : AllKnown N H [] := nofun

theorem AllKnown.of_mem {hs : List Handle} (h : ∀ a ∈ hs, H a) : AllKnown N H hs :=
  fun a ha => .of_mem (h a ha)

namespace Store

theorem ReadBy.refl (r : NodeId) (s : Store) : s.ReadBy r [] s where
  trace := ⟨[], rfl, rfl⟩
  live := id
  readers _ n := by simp

theorem ReadBy.trans (h : s.ReadBy r ms t) (h' : t.ReadBy r ns u) : s.ReadBy r (ms ++ ns) u where
  trace := by
    obtain ⟨es, he, hes⟩ := h.trace
    obtain ⟨es', he', hes'⟩ := h'.trace
    exact ⟨es' ++ es, by rw [he', he, List.append_assoc], by simp [hes, hes']⟩
  live hr := h.live (h'.live hr)
  readers hr n := by rw [h'.readers hr, h.readers (h'.live hr), List.mem_append, or_assoc]

theorem ReadBy.collect (r : NodeId) (s : Store) : s.ReadBy r [] s.collect where
  trace := ⟨[], rfl, rfl⟩
  live hr := s.survivors_subset hr
  readers hr n := by
    have hl : r ∉ lost s.live s.survivors := fun hl => (mem_lost.1 hl).2 hr
    change r ∈ Edges.readers (List.foldl _ _ _) n ↔ _
    simp [Edges.mem_readers_unsubscribeAll, hl]

theorem Reads.refl (hc : s.Closed N H) (hb : N ≤ s.nodes.length) : s.Reads N H r [] s where
  toReadBy := .refl r s
  closed := hc
  bound := hb
  frames := rfl

theorem Reads.trans (h : s.Reads N H r ms t) (h' : t.Reads N H r ns u) :
    s.Reads N H r (ms ++ ns) u where
  toReadBy := h.toReadBy.trans h'.toReadBy
  closed := h'.closed
  bound := h'.bound
  frames := h'.frames.trans h.frames

theorem Reads.collect (hc : s.Closed N H) (hb : N ≤ s.nodes.length) :
    s.Reads N H r [] s.collect where
  toReadBy := .collect r s
  closed := hc.congr rfl rfl
  bound := hb
  frames := rfl

theorem Reads.pinned (hc : s.Closed N H) (hb : N ≤ s.nodes.length) (hs : List Handle) :
    s.Reads N H r [] { s with pinned := hs } :=
  { Reads.refl hc hb with closed := hc.congr rfl rfl }

theorem Reads.reader (h : s.Reads N H r ns t) : t.reader? = s.reader? := by
  rw [reader?_eq_head, reader?_eq_head, h.frames]

end Store

namespace Sparing

variable {V : α → Prop} {W : β → Prop} {m : Machine α} {f : α → Machine β}

theorem pure {a : α} (h : V a) : Sparing N H r F V (pure a : Machine α) := by
  intro s b t hc hb _ hs
  cases hs
  exact ⟨h, .refl hc hb⟩

theorem bind (hm : Sparing N H r F V m) (hf : ∀ a, V a → Sparing N H r F W (f a)) :
    Sparing N H r F W (m >>= f) := by
  intro s b u hc hb hF h
  obtain ⟨a, t, ha, hfa⟩ := bind_eq_some.1 h
  obtain ⟨hv, hst⟩ := hm hc hb hF ha
  obtain ⟨hw, htu⟩ := hf a hv hst.closed hst.bound (by rwa [hst.reader]) hfa
  exact ⟨hw, hst.trans htu⟩

theorem look {g : Store → α} (hm : ∀ s, m s = some (g s, s))
    (hv : ∀ s : Store, s.Closed N H → F s.reader? → V (g s)) : Sparing N H r F V m := by
  intro s a t hc hb hF h
  rw [hm] at h
  cases h
  exact ⟨hv s hc hF, .refl hc hb⟩

theorem modify {f : Store → Store}
    (h : ∀ s : Store, s.Closed N H → N ≤ s.nodes.length → F s.reader? → s.Reads N H r [] (f s)) :
    Sparing N H r F (fun _ => True) (modify f : Machine Unit) := by
  intro s a t hc hb hF hs
  cases hs
  exact ⟨trivial, h s hc hb hF⟩

theorem emit {e : Event} (he : e.sourceFor r = none) :
    Sparing N H r F (fun _ => True) (emit e) :=
  .modify fun _ hc hb _ => { Store.Reads.refl hc hb with
    trace := ⟨[e], rfl, by simp [readsOf, he]⟩
    closed := hc.congr rfl rfl }

theorem unsubscribe {n : NodeId} (hn : n ≠ r) :
    Sparing N H r F (fun _ => True) (unsubscribe n) :=
  .modify fun _ hc hb _ => { Store.Reads.refl hc hb with
    readers := fun _ k => by simp [Edges.mem_readers_unsubscribe, Ne.symm hn]
    closed := hc.congr rfl rfl }

theorem collect : Sparing N H r F (fun _ => True) collect :=
  .modify fun _ hc hb _ => .collect hc hb

theorem release (h : Handle) : Sparing N H r F (fun _ => True) (Machine.release h) :=
  .bind (.modify fun _ hc hb _ => { Store.Reads.refl hc hb with closed := hc.congr rfl rfl })
    fun _ _ => .collect

theorem track (n : NodeId) : Sparing N H r (· ≠ some r) (fun _ => True) (track n) := by
  intro s a t hc hb hF h
  cases h
  refine ⟨trivial, ?_⟩
  change s.Reads N H r [] (s.tracked n)
  rcases s.tracked_cases n with ⟨_, ht⟩ | ⟨k, xs, rest, hf, ht⟩
  · rw [ht]
    exact .refl hc hb
  have hk : r ≠ k := by
    rintro rfl
    exact hF (by simp [Store.reader?, hf])
  have hframes := s.readers_tracked n
  rw [ht] at hframes ⊢
  exact { Store.Reads.refl hc hb with
    readers := fun _ m => by simp [Edges.mem_readers_subscribe_iff, hk]
    closed := hc.congr rfl rfl
    frames := hframes }

theorem reader : Sparing N H r F F reader := .look reader_apply fun _ _ hF => hF

theorem inFrame {k : Option NodeId} (hk : k ≠ some r) (hm : Sparing N H r (· ≠ some r) V m) :
    Sparing N H r F (fun p => V p.1) (inFrame k m) := by
  intro s p t hc hb _ h
  obtain ⟨u, hu, -, rfl⟩ := inFrame_eq_some.1 h
  obtain ⟨hv, hsu⟩ := hm (s := { s with frames := { reader := k } :: s.frames })
    (hc.congr rfl rfl) hb hk hu
  exact ⟨hv, { hsu with
    closed := hsu.closed.congr rfl rfl
    frames := by simpa using congrArg List.tail hsu.frames }⟩

theorem untracked (hm : Sparing N H r (· ≠ some r) V m) : Sparing N H r F V (untracked m) :=
  .bind (.inFrame nofun hm) fun _ hp => .pure hp

theorem providing (x : Token) (v : Json) (hm : Sparing N H r F V m) :
    Sparing N H r F V (providing x v m) := by
  intro s a t hc hb hF h
  obtain ⟨u, hu, rfl⟩ := providing_eq_some.1 h
  obtain ⟨hv, hsu⟩ := hm (s := { s with provided := (x, v) :: s.provided })
    (hc.congr rfl rfl) hb hF hu
  exact ⟨hv, { hsu with closed := hsu.closed.congr rfl rfl }⟩

theorem inScope (scope : Scope) (hm : Sparing N H r F V m) :
    Sparing N H r F V (inScope scope m) := by
  intro s a t hc hb hF h
  obtain ⟨u, hu, rfl⟩ := inScope_eq_some.1 h
  obtain ⟨hv, hsu⟩ := hm (s := { s with provided := scope }) (hc.congr rfl rfl) hb hF hu
  exact ⟨hv, { hsu with closed := hsu.closed.congr rfl rfl }⟩

theorem keeping (hs : List Handle) (hm : Sparing N H r F V m) :
    Sparing N H r F V (keeping hs m) := by
  intro s a t hc hb hF h
  obtain ⟨u, hu, rfl⟩ := keeping_eq_some.1 h
  obtain ⟨hv, hsu⟩ := hm (s := { s with pinned := hs ++ s.pinned }) (hc.congr rfl rfl) hb hF hu
  exact ⟨hv, { hsu with closed := hsu.closed.congr rfl rfl }⟩

theorem borrowing (v : View) (hm : Sparing N H r F V m) : Sparing N H r F V (borrowing v m) :=
  .bind (.keeping _ hm) fun _ ha => .bind .collect fun _ _ => .pure ha

theorem node {n : NodeId} (hn : Known N H (.node n)) :
    Sparing N H r F (fun y => ∀ x, y = some x → x.Fits N H) (node? n) :=
  .look (node?_apply n) fun _ hc _ _ hx => hc.fits hn hx

theorem setNode (n : NodeId) {x : Node} (hx : x.Fits N H) :
    Sparing N H r F (fun _ => True) (setNode n x) :=
  .modify fun _ hc hb _ => { Store.Reads.refl hc hb with
    closed := hc.set_node n hx
    bound := by simpa using hb }

theorem reactiveView {x : Recipe} (hx : x.Fits H) (hr : ¬ Known N H (.node r)) :
    Sparing N H r F (AllKnown N H ·.handles) (reactiveView x) := by
  intro s v t hc hb _ h
  cases h
  constructor
  · intro a ha
    obtain rfl : a = .node s.nodes.length := by simpa [View.handles, View.nodes] using ha
    exact .inl hb
  · have hne : r ≠ s.nodes.length := by
      rintro rfl
      exact hr (.inl hb)
    exact { Store.Reads.refl hc hb with
      live := fun hl => by simpa [hne] using hl
      readers := fun _ _ => by simp
      closed := hc.add_node (x := .memo { recipe := x }) ⟨hx, nofun⟩ _
      bound := by simpa using Nat.le_succ_of_le hb }

theorem memo {n : NodeId} (hn : Known N H (.node n)) :
    Sparing N H r F (fun m => ∀ x, m = some x → Node.Fits N H (.memo x)) (memo? n) := by
  refine .bind (.node hn) ?_
  rintro (_ | x) hx
  · exact .pure nofun
  · cases x with
    | memo m => exact .pure (by rintro _ ⟨⟩; exact hx _ rfl)
    | _ => exact .pure nofun

theorem cellContent {n : NodeId} (hn : Known N H (.node n)) :
    Sparing N H r F (fun k => ∀ j, k = some j → H (.component j)) (cellContent n) := by
  refine .bind (.node hn) ?_
  rintro (_ | x) hx
  · exact .pure nofun
  · cases x with
    | cell k => exact .pure (by rintro j rfl; exact hx _ rfl)
    | _ => exact .pure nofun

theorem peek (n : NodeId) : Sparing N H r F (fun _ => True) (Machine.peek n) := by
  refine .bind (V := fun _ => True) (.look (node?_apply n) fun _ _ _ => trivial) ?_
  rintro (_ | x) -
  · exact .pure trivial
  · cases x <;> exact .pure trivial

theorem disposeEffect {n : NodeId} (hn : n ≠ r) :
    Sparing N H r F (fun _ => True) (disposeEffect n) := by
  refine .bind (V := fun _ => True) (.look (effect?_apply n) fun _ _ _ => trivial) ?_
  rintro (_ | e) -
  · exact .pure trivial
  · exact .bind (.setNode n (x := .effect { e with disposed := true }) trivial) fun _ _ =>
      .unsubscribe hn

end Sparing

end HotSwap
