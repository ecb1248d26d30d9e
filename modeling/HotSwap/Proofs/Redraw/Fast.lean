import HotSwap.Proofs.Evaluation.Reading
import HotSwap.Proofs.Evaluation.Readers
/-!
# What is held fast

An effect that is held from outside, and what its body holds, are let go by no collection. Where only
such nodes read a source, its readers change by subscribing and unsubscribing alone, and their order
is known.
-/

namespace HotSwap

namespace Store

/-- A node that lives, and is held from outside or by an effect that is. -/
def Fast (s : Store) (n : NodeId) : Prop :=
  .node n ∈ s.live ∧ (.node n ∈ s.roots ∨ ∃ l e, .node l ∈ s.roots ∧ .node l ∈ s.live ∧
    s.nodes[l]? = some (.effect e) ∧ .node n ∈ e.body.handles)

/-- Where all readers of a source are held fast, `g` says which ones there are afterwards. -/
structure Rewires (g : NodeId → List NodeId → List NodeId) (s t : Store) : Prop where
  fast : ∀ {n : NodeId}, s.Fast n → t.Fast n
  readers : ∀ {x : NodeId}, (∀ r ∈ Edges.readers s.edges x, s.Fast r) →
    Edges.readers t.edges x = g x (Edges.readers s.edges x) ∧
      ∀ r ∈ Edges.readers t.edges x, t.Fast r

variable {s t u : Store} {g g' : NodeId → List NodeId → List NodeId}

namespace Rewires

theorem of_same (fast : ∀ {n : NodeId}, s.Fast n → t.Fast n) (edges : t.edges = s.edges) :
    s.Rewires (fun _ => id) t where
  fast := fast
  readers h := ⟨by rw [edges]; rfl, fun r hr => fast (h r (edges ▸ hr))⟩

theorem trans (h : s.Rewires g t) (h' : t.Rewires g' u) :
    s.Rewires (fun x => g' x ∘ g x) u where
  fast hn := h'.fast (h.fast hn)
  readers hx := by
    obtain ⟨ht, hfast⟩ := h.readers hx
    obtain ⟨hu, hfast'⟩ := h'.readers hfast
    exact ⟨by rw [hu, ht]; rfl, hfast'⟩

theorem mono (h : s.Rewires g t) (hg : ∀ x rs, g x rs = g' x rs) : s.Rewires g' t where
  fast := h.fast
  readers hx := by
    rw [← hg]
    exact h.readers hx

theorem besides (h : s.Rewires g t) (fast : ∀ {n : NodeId}, t.Fast n → u.Fast n)
    (edges : u.edges = t.edges) : s.Rewires g u :=
  (h.trans (.of_same fast edges)).mono fun _ _ => rfl

end Rewires

theorem Fast.congr {n : NodeId} (h : s.Fast n) (live : ∀ l, s.Fast l → .node l ∈ t.live)
    (roots : s.roots ⊆ t.roots) (effect : ∀ {l : NodeId} {e : Effect},
      s.nodes[l]? = some (.effect e) → ∃ e', t.nodes[l]? = some (.effect e') ∧ e'.body = e.body) :
    t.Fast n := by
  refine ⟨live n h, ?_⟩
  rcases h.2 with hn | ⟨l, e, hroot, hl, he, hn⟩
  · exact .inl (roots hn)
  · obtain ⟨e', he', hbody⟩ := effect he
    exact .inr ⟨l, e', roots hroot, live l ⟨hl, .inl hroot⟩, he', hbody ▸ hn⟩

theorem Fast.survives {n : NodeId} (h : s.Fast n) : .node n ∈ s.collect.live := by
  rcases h with ⟨hn, hroot | ⟨l, e, hroot, hl, he, hmem⟩⟩
  · exact mem_settle_of_held (List.mem_append_left _ hroot) _ hn
  · refine mem_live_collect (h := .node l) ?_ hn
      (mem_settle_of_held (List.mem_append_left _ hroot) _ hl)
    simpa [contents, he, Node.handles] using hmem

end Store

theorem filter_ne_of_notMem {r : NodeId} {rs : List NodeId} (h : r ∉ rs) :
    rs.filter (fun l => decide (l ≠ r)) = rs := by
  rw [List.filter_eq_self]
  intro l hl
  exact decide_eq_true fun e => h (e ▸ hl)

theorem Edges.readers_unsubscribe (e : Edges) (source reader : NodeId) :
    readers (unsubscribe e reader) source = (readers e source).filter fun r => decide (r ≠ reader) := by
  rw [readers, readers, unsubscribe, OrderedMap.get?_restrict]
  cases e.get? source with
  | none => rfl
  | some rs =>
    rw [Option.bind_some, Option.getD_some, without]
    split
    · rename_i hnil
      rw [hnil]
      rfl
    · rfl

theorem Edges.readers_unsubscribeAll {e : Edges} {source : NodeId} {rs : List NodeId}
    (h : ∀ r ∈ readers e source, r ∉ rs) : readers (rs.foldl unsubscribe e) source = readers e source := by
  induction rs generalizing e with
  | nil => rfl
  | cons r rs ih =>
    have hkeep : readers (unsubscribe e r) source = readers e source := by
      rw [readers_unsubscribe, filter_ne_of_notMem]
      exact fun hr => h r hr List.mem_cons_self
    rw [List.foldl_cons, ih, hkeep]
    intro l hl hmem
    exact h l (hkeep ▸ hl) (List.mem_cons_of_mem _ hmem)

namespace Store

variable {s t u : Store}

theorem rewires_collect (s : Store) : s.Rewires (fun _ => id) s.collect where
  fast h := h.congr (fun _ => Fast.survives) (List.Subset.refl _) fun he => ⟨_, he, rfl⟩
  readers {x} h := by
    have hkeep : Edges.readers s.collect.edges x = Edges.readers s.edges x :=
      Edges.readers_unsubscribeAll fun r hr hlost => (mem_lost.1 hlost).2 (h r hr).survives
    refine ⟨hkeep, fun r hr => ?_⟩
    exact (h r (hkeep ▸ hr)).congr (fun _ => Fast.survives) (List.Subset.refl _)
      fun he => ⟨_, he, rfl⟩

theorem rewires_setNode {n : NodeId} {x : Node} (h : ∀ e, s.nodes[n]? = some (.effect e) →
    ∃ e', x = .effect e' ∧ e'.body = e.body) :
    s.Rewires (fun _ => id) { s with nodes := s.nodes.set n x } := by
  refine .of_same (fun hn => hn.congr (fun _ hl => hl.1) (List.Subset.refl _) fun {l e} he => ?_) rfl
  by_cases hl : l = n
  · subst hl
    obtain ⟨e', rfl, hbody⟩ := h e he
    exact ⟨e', List.getElem?_set_self (List.getElem?_eq_some_iff.1 he).1, hbody⟩
  · exact ⟨e, (List.getElem?_set_ne (Ne.symm hl)).trans he, rfl⟩

theorem rewires_settled {n : NodeId} {m : Memo} (hn : s.nodes[n]? = some (.memo m)) (x : Content) :
    s.Rewires (fun _ => id) (s.settled n x) := by
  have hfill : s.Rewires (fun _ => id) (s.filled n m x) :=
    rewires_setNode fun e he => by simp [hn] at he
  rcases settled_cases hn x with h | h
  · exact h ▸ hfill
  · exact h ▸ (hfill.trans (rewires_collect _)).mono fun _ _ => rfl

def relink (reader source x : NodeId) (rs : List NodeId) : List NodeId :=
  let left := rs.filter fun r => decide (r ≠ reader)
  if x = source then left ++ [reader] else left

theorem rewires_relink {reader : NodeId} (h : s.Fast reader) (source : NodeId) :
    s.Rewires (relink reader source)
      { s with edges := Edges.subscribe (Edges.unsubscribe s.edges reader) source reader } where
  fast := id
  readers {x} hx := by
    have hleft := Edges.readers_unsubscribe s.edges x reader
    have hrelink : Edges.readers (Edges.subscribe (Edges.unsubscribe s.edges reader) source reader) x =
        relink reader source x (Edges.readers s.edges x) := by
      by_cases he : x = source
      · subst he
        rw [Edges.readers_subscribe_self, if_neg, hleft, relink, if_pos rfl]
        simp [hleft]
      · rw [Edges.readers_subscribe_of_ne _ he, hleft, relink, if_neg he]
    refine ⟨hrelink, fun r hr => ?_⟩
    have hmem : r ∈ Edges.readers s.edges x ∨ r = reader := by
      rw [show _ = _ from hrelink, relink] at hr
      split at hr
      · rcases List.mem_append.1 hr with hr | hr
        · exact .inl (List.mem_filter.1 hr).1
        · exact .inr (List.mem_singleton.1 hr)
      · exact .inl (List.mem_filter.1 hr).1
    rcases hmem with hr | rfl
    · exact hx r hr
    · exact h

end Store

end HotSwap
