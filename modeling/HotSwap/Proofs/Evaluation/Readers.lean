import HotSwap.Proofs.Evaluation.Steady
/-!
# Who reads, and what lives on

A subscription is lost only by the reader itself: it is unsubscribed, or it is let go. What a thing
holds that lives on lives on with it, and so does what a running computation holds.
-/

namespace HotSwap

open Machine

theorem OrderedMap.find?_keep {κ υ : Type} [DecidableEq κ] (f : υ → Option υ) {k : κ}
    {es : List (κ × υ)} (hd : (es.map Prod.fst).Nodup) :
    find? k (keep f es) = (find? k es).bind f := by
  induction es with
  | nil => rfl
  | cons e rest ih =>
    obtain ⟨l, v⟩ := e
    obtain ⟨hl, hd⟩ := List.nodup_cons.1 hd
    have hrest : k = l → find? k rest = none := by
      rintro rfl
      exact Option.not_isSome_iff_eq_none.1 (mt (find?_isSome_iff k rest).1 hl)
    by_cases h : l = k
    · subst h
      cases hv : f v <;> simp [keep, find?, hv, ih hd, hrest rfl]
    · cases hv : f v <;> simp [keep, find?, hv, h, ih hd]

theorem OrderedMap.get?_restrict {κ υ : Type} [DecidableEq κ] (f : υ → Option υ)
    (m : OrderedMap κ υ) (k : κ) : (m.restrict f).get? k = (m.get? k).bind f :=
  find?_keep f m.nodup

namespace Edges

variable (e : Edges) {source reader n : NodeId}

theorem mem_readers_unsubscribe :
    n ∈ readers (unsubscribe e reader) source ↔ n ∈ readers e source ∧ n ≠ reader := by
  rw [readers, readers, unsubscribe, OrderedMap.get?_restrict]
  cases e.get? source with
  | none => simp
  | some rs =>
    have hmem : n ∈ rs.filter (fun r => decide (r ≠ reader)) ↔ n ∈ rs ∧ n ≠ reader := by simp
    rw [Option.bind_some, Option.getD_some, ← hmem, without]
    split
    · rename_i hnil
      rw [hnil]
      rfl
    · rfl

theorem mem_readers_unsubscribeAll (rs : List NodeId) :
    n ∈ readers (rs.foldl unsubscribe e) source ↔ n ∈ readers e source ∧ n ∉ rs := by
  induction rs generalizing e with
  | nil => simp
  | cons r rs ih =>
    rw [List.foldl_cons, ih, mem_readers_unsubscribe, List.mem_cons, not_or, and_assoc]

theorem mem_readers_subscribe (other : NodeId) (h : n ∈ readers e source) :
    n ∈ readers (subscribe e other reader) source := by
  by_cases ho : source = other
  · subst ho
    rw [readers_subscribe_self]
    split
    · exact h
    · exact List.mem_append_left _ h
  · rwa [readers_subscribe_of_ne e ho]

theorem mem_readers_subscribe_self : reader ∈ readers (subscribe e source reader) source := by
  rw [readers_subscribe_self]
  split
  · assumption
  · simp

end Edges

namespace Store

theorem mem_lost {live left : List Handle} {n : NodeId} :
    n ∈ lost live left ↔ .node n ∈ live ∧ .node n ∉ left := by
  simp only [lost, List.mem_filterMap]
  constructor
  · rintro ⟨h, hh, he⟩
    cases h with
    | node m =>
      dsimp only at he
      split at he
      · cases he
      · cases he
        exact ⟨hh, ‹_›⟩
    | _ => cases he
  · rintro ⟨hl, hn⟩
    exact ⟨_, hl, by simp [hn]⟩

theorem mem_readers_collect (s : Store) {n source : NodeId}
    (h : n ∈ Edges.readers s.edges source) (hn : .node n ∈ s.collect.live) :
    n ∈ Edges.readers s.collect.edges source :=
  (Edges.mem_readers_unsubscribeAll _ _).2 ⟨h, fun hl => (mem_lost.1 hl).2 hn⟩

theorem mem_heldBy {s : Store} {live : List Handle} {h h' : Handle} (hh : h ∈ live)
    (hc : h' ∈ s.contents h) (hl : h' ∈ live) : h' ∈ s.heldBy live := by
  refine List.mem_filter.2 ⟨hl, decide_eq_true ?_⟩
  exact List.mem_append_right _ (List.mem_flatMap.2 ⟨h, hh, hc⟩)

theorem mem_settle {s : Store} {h h' : Handle} (hc : h' ∈ s.contents h) (fuel : Nat)
    {live : List Handle} (hl : h' ∈ live) (hs : h ∈ s.settle fuel live) :
    h' ∈ s.settle fuel live := by
  induction fuel generalizing live with
  | zero => exact hl
  | succ fuel ih =>
    simp only [settle] at hs ⊢
    split at hs
    · rwa [if_pos ‹_›]
    · rw [if_neg ‹_›]
      have hh := (List.mem_filter.1 (s.settle_subset _ _ hs)).1
      exact ih (mem_heldBy hh hc hl) hs

theorem mem_live_collect {s : Store} {h h' : Handle} (hc : h' ∈ s.contents h) (hl : h' ∈ s.live)
    (hs : h ∈ s.collect.live) : h' ∈ s.collect.live := mem_settle hc _ hl hs

theorem mem_settle_of_held {s : Store} {h : Handle} (hh : h ∈ s.roots ++ s.pinned) (fuel : Nat)
    {live : List Handle} (hl : h ∈ live) : h ∈ s.settle fuel live := by
  induction fuel generalizing live with
  | zero => exact hl
  | succ fuel ih =>
    simp only [settle]
    split
    · exact hl
    · exact ih (List.mem_filter.2 ⟨hl, decide_eq_true (List.mem_append_left _ hh)⟩)

theorem mem_settle_of_pinned {s : Store} {h : Handle} (hp : h ∈ s.pinned) (fuel : Nat)
    {live : List Handle} (hl : h ∈ live) : h ∈ s.settle fuel live :=
  mem_settle_of_held (List.mem_append_right _ hp) fuel hl

/-- Nothing is left to drop among the survivors, if the fuel is enough. -/
theorem heldBy_settle {s : Store} (fuel : Nat) {live : List Handle} (hf : live.length ≤ fuel) :
    s.heldBy (s.settle fuel live) = s.settle fuel live := by
  have fixed {l : List Handle} (hl : (s.heldBy l).length = l.length) : s.heldBy l = l :=
    List.filter_sublist.eq_of_length hl
  induction fuel generalizing live with
  | zero => rw [List.length_eq_zero_iff.1 (Nat.le_zero.1 hf), settle, heldBy, List.filter_nil]
  | succ fuel ih =>
    simp only [settle]
    split
    · exact fixed ‹_›
    · have hlt := Nat.lt_of_le_of_ne List.filter_sublist.length_le ‹_›
      exact ih (Nat.le_of_lt_succ (Nat.lt_of_lt_of_le hlt hf))

theorem held_of_mem_survivors {s : Store} {h : Handle} (hs : h ∈ s.survivors) :
    h ∈ s.roots ++ s.pinned ∨ ∃ h' ∈ s.survivors, h ∈ s.contents h' := by
  have hfix : s.heldBy s.survivors = s.survivors := heldBy_settle _ (Nat.le_refl _)
  rw [← hfix, heldBy] at hs
  simpa [or_assoc] using of_decide_eq_true (List.mem_filter.1 hs).2

structure Shelters (s t : Store) : Prop where
  pinned : t.pinned = s.pinned
  live : ∀ {h}, h ∈ s.pinned → h ∈ s.live → h ∈ t.live

theorem Shelters.refl (s : Store) : s.Shelters s := ⟨rfl, fun _ => id⟩

theorem indifferent_shelters : Indifferent Shelters where
  refl := .refl
  trans _ _ _ h h' := ⟨h'.pinned.trans h.pinned, fun hp hl => h'.live (h.pinned ▸ hp) (h.live hp hl)⟩
  emit s _ := { Shelters.refl s with }
  addMemo _ := ⟨rfl, fun _ => List.mem_cons_of_mem _⟩
  signal _ _ := ⟨rfl, fun _ => id⟩
  mark _ := ⟨rfl, fun _ => id⟩
  effect _ _ _ _ := ⟨rfl, fun _ => id⟩
  track _ _ := ⟨rfl, fun _ => id⟩
  unsubscribe _ := ⟨rfl, fun _ => id⟩
  collect _ := ⟨rfl, fun hp hl => mem_settle_of_pinned hp _ hl⟩
  roots s _ := { Shelters.refl s with }
  frame _ h := ⟨h.pinned, h.live⟩
  providing _ h := ⟨h.pinned, h.live⟩
  scope _ h := ⟨h.pinned, h.live⟩
  pinned hs h := ⟨rfl, fun hp => h.live (hs hp)⟩
  edges s _ := { Shelters.refl s with }
  settle _ _ := ⟨rfl, fun _ => id⟩

end Store

end HotSwap
