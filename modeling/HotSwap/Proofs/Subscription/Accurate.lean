import Mathlib.Data.List.Dedup
import HotSwap.Proofs.Subscription.Listing
import HotSwap.Proofs.Subscription.Standing
/-!
# An accurate table of subscriptions

While a computation runs it is listed for what its frame has read so far; afterwards, for what its
last run read. `Runs` says what an evaluation adds to the trace and to the frame that is on top, and
`Gives` that it moves an accurate store to an accurate one in this way.
-/

namespace HotSwap

namespace Store

variable {s t u : Store} {new new' : List Event}

def sources (s : Store) : List NodeId := (s.frames.head?.map Frame.sources).getD []

/-- Lists are neither empty nor repeat anyone, and list computations that live. What runs is listed
for what it has read, what does not run for what its last run has read. -/
structure Table (s : Store) : Prop where
  listed : Edges.Listed s.edges
  member : ∀ {k n : NodeId}, k ∈ Edges.readers s.edges n → .node k ∈ s.live ∧ s.Computes k
  current : ∀ {k : NodeId} {xs : List NodeId}, ⟨some k, xs⟩ ∈ s.frames →
    ∀ n, k ∈ Edges.readers s.edges n ↔ n ∈ xs
  settled : ∀ {k : NodeId}, k ∉ s.running → .node k ∈ s.live → s.Computes k →
    ∀ n, k ∈ Edges.readers s.edges n ↔ n ∈ s.lastRun k
  apart : s.running.Nodup
  distinct : ∀ f ∈ s.frames, f.sources.Nodup
  counted : ∀ {k : NodeId} {e : Effect}, s.nodes[k]? = some (.effect e) → k ∉ s.running →
    e.dependencies = (s.lastRun k).dedup.length
  idle : ∀ {k : NodeId} {x : Node}, s.nodes[k]? = some x → x.Tells → k ∉ s.running →
    readsOf k (sinceEnd k s.trace) = []
  past : ∀ e ∈ s.trace, ∀ k, e.actor = some k → k < s.nodes.length

/-- What is held lives, and effects are held from outside only. -/
structure Holding (s : Store) : Prop where
  held : ∀ h ∈ s.roots ++ s.pinned, h ∈ s.live
  closed : ∀ h ∈ s.live, ∀ h' ∈ s.contents h, h' ∈ s.live
  passive : ∀ h ∈ s.live, ∀ h' ∈ s.contents h, s.Passive h'
  pinned : ∀ h ∈ s.pinned, s.Passive h
  owned : ∀ {k : NodeId} {e : Effect}, s.nodes[k]? = some (.effect e) → .node k ∈ s.live →
    .node k ∈ s.roots

/-- Bodies write nothing and read what stands below. -/
structure Fitting (s : Store) : Prop where
  node : ∀ {n : NodeId} {x : Node}, s.nodes[n]? = some x → x.Tame s n
  component : ∀ {k : ComponentId} {c : Component}, s.components[k]? = some c → c.Tame s

structure Accurate (s : Store) : Prop extends Table s, Holding s, Fitting s where
  active : ∀ k ∈ s.running, s.Anchored (.node k) ∧ s.Computes k

/-- What happens until `t`, while computations below the top only wait and the one on top reads. -/
structure Runs (new : List Event) (s t : Store) : Prop extends Retains s t where
  trace : t.trace = new ++ s.trace
  readers : t.frames.map Frame.reader = s.frames.map Frame.reader
  below : t.frames.tail = s.frames.tail
  top : ∀ n, n ∈ t.sources ↔ n ∈ s.sources ∨ ∃ r, s.reader? = some r ∧ n ∈ readsOf r new
  silent : ∀ e ∈ new, ∀ k ∈ s.running, e.actor = some k →
    s.reader? = some k ∧ e.closes k = false ∧ e.opens k = false

def Proceeds (s t : Store) : Prop := t.Accurate ∧ ∃ new, s.Runs new t

theorem Accurate.actives (h : s.Accurate) (hr : s.Retains t) (hf : t.running ⊆ s.running) :
    ∀ k ∈ t.running, t.Anchored (.node k) ∧ t.Computes k := by
  intro k hk
  obtain ⟨ha, hc⟩ := h.active k (hf hk)
  exact ⟨hr.anchored ha, hr.computes hc⟩

theorem running_eq (s : Store) : s.running = (s.frames.map Frame.reader).reduceOption := by
  change _ = List.filterMap id (s.frames.map Frame.reader)
  rw [running, List.filterMap_map]
  rfl

theorem reader?_eq_head (s : Store) : s.reader? = (s.frames.map Frame.reader).head?.join := by
  rw [reader?]
  cases s.frames <;> rfl

theorem mem_running {k : NodeId} {xs : List NodeId} (h : ⟨some k, xs⟩ ∈ s.frames) :
    k ∈ s.running := List.mem_filterMap.2 ⟨⟨some k, xs⟩, h, rfl⟩

theorem mem_running_of_reader? {r : NodeId} (h : s.reader? = some r) : r ∈ s.running := by
  rw [reader?] at h
  cases hf : s.frames with
  | nil => simp [hf] at h
  | cons f rest => simp_all [running]

namespace Runs

theorem running (h : s.Runs new t) : t.running = s.running := by
  rw [running_eq, running_eq, h.readers]

theorem reader? (h : s.Runs new t) : t.reader? = s.reader? := by
  rw [reader?_eq_head, reader?_eq_head, h.readers]

theorem refl (s : Store) : s.Runs [] s :=
  { Retains.refl s with
    trace := rfl
    readers := rfl
    below := rfl
    top := by simp
    silent := by simp }

theorem trans (h : s.Runs new t) (h' : t.Runs new' u) : s.Runs (new' ++ new) u where
  toRetains := h.toRetains.trans h'.toRetains
  trace := by rw [h'.trace, h.trace, List.append_assoc]
  readers := h'.readers.trans h.readers
  below := h'.below.trans h.below
  top n := by
    rw [h'.top, h.top, h.reader?]
    simp only [readsOf_append, List.mem_append]
    grind
  silent e he k hk ha := by
    rcases List.mem_append.1 he with he | he
    · rw [← h.reader?]
      exact h'.silent e he k (h.running ▸ hk) ha
    · exact h.silent e he k hk ha

end Runs

theorem Proceeds.refl (h : s.Accurate) : s.Proceeds s := ⟨h, [], .refl s⟩

theorem Proceeds.trans (h : s.Proceeds t) (h' : t.Proceeds u) : s.Proceeds u := by
  obtain ⟨_, new, hr⟩ := h
  obtain ⟨ha, new', hr'⟩ := h'
  exact ⟨ha, new' ++ new, hr.trans hr'⟩

theorem Proceeds.retains (h : s.Proceeds t) : s.Retains t := by
  obtain ⟨_, _, hr⟩ := h
  exact hr.toRetains

theorem Proceeds.running (h : s.Proceeds t) : t.running = s.running := by
  obtain ⟨_, _, hr⟩ := h
  exact hr.running

theorem Anchored.live (h : s.Holding) {a : Handle} (ha : s.Anchored a) : a ∈ s.live :=
  ha.mem h.held fun b hb _ hb' => h.closed b hb _ (s.binds_subset b hb')

theorem Offers.step (h : s.Holding) {a b : Handle} (ha : s.Anchored a) (hb : b ∈ s.binds a) :
    s.Offers b :=
  ⟨ha.step hb, h.passive a (ha.live h) b (s.binds_subset a hb)⟩

end Store

namespace Machine

variable {s t : Store}

/-- Whatever `m` answers from `s` satisfies `Q`, and the store proceeds accurately. -/
def Gives (s : Store) (m : Machine α) (Q : α → Store → Prop) : Prop :=
  ∀ ⦃a t⦄, m s = some (a, t) → s.Proceeds t ∧ Q a t

namespace Gives

theorem bind {m : Machine α} {f : α → Machine β} {Q : α → Store → Prop} {Q' : β → Store → Prop}
    (hm : Gives s m Q) (hf : ∀ a t, s.Proceeds t → Q a t → Gives t (f a) Q') :
    Gives s (m >>= f) Q' := by
  intro b u h
  obtain ⟨a, t, ha, hb⟩ := bind_eq_some.1 h
  obtain ⟨hp, hq⟩ := hm ha
  obtain ⟨hp', hq'⟩ := hf a t hp hq hb
  exact ⟨hp.trans hp', hq'⟩

theorem of_eq {m : Machine α} {Q : α → Store → Prop} {a : α} (h : m s = some (a, t))
    (hp : s.Proceeds t) (hq : Q a t) : Gives s m Q := by
  intro b u hb
  obtain ⟨rfl, rfl⟩ : a = b ∧ t = u := by simpa [h] using hb
  exact ⟨hp, hq⟩

theorem bind_of_eq {m : Machine α} {f : α → Machine β} {Q : β → Store → Prop} {a : α}
    (h : m s = some (a, s)) (hf : Gives s (f a) Q) : Gives s (m >>= f) Q := by
  intro b u hb
  obtain ⟨a', t, ha, hb⟩ := bind_eq_some.1 hb
  obtain ⟨rfl, rfl⟩ : a = a' ∧ s = t := by simpa [h] using ha
  exact hf hb

theorem pure {Q : α → Store → Prop} {a : α} (hs : s.Accurate) (hq : Q a s) :
    Gives s (Pure.pure a) Q := of_eq rfl (.refl hs) hq

theorem mono {m : Machine α} {Q Q' : α → Store → Prop} (h : Gives s m Q)
    (hq : ∀ a t, s.Proceeds t → Q a t → Q' a t) : Gives s m Q' := by
  intro a t ha
  obtain ⟨hp, hQ⟩ := h ha
  exact ⟨hp, hq a t hp hQ⟩

end Gives

end Machine

end HotSwap
