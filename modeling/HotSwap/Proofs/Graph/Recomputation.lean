import HotSwap.Proofs.Graph.Fresh
import HotSwap.Proofs.Graph.Marking
/-!
# When memos are computed

A program makes signals and memos, sets signals and reads. `Logged` are the stores that it sees
between operations, each with what has happened so far. In all of them a memo is due exactly if the
log says that it is stale; so a read computes a memo if it was never computed, or if a signal was
set that its last computation read, directly or through memos, and otherwise it does not.
-/

namespace HotSwap

open Machine Log

namespace Operation

/-- What a program does with a graph of signals and memos. -/
def Plain (s : Store) : Operation → Prop
  | .signal _ | .memo _ _ => True
  | .set x _ => ∃ v, s.nodes[x]? = some (.signal v)
  | .read n => n < s.nodes.length
  | _ => False

def noted : Operation → Log
  | .set x _ => [.set x]
  | _ => []

end Operation

namespace Store

variable {l : Log} {s t : Store} {j k n x : NodeId} {v w : Json} {d : Nat}

/-- A program has made the store out of the empty one, and `l` is what happened. -/
inductive Logged : Log → Store → Prop
  | start : Logged [] {}
  | step {l : Log} {s t : Store} (o : Operation) (d : Nat) (new : List Event) : Logged l s →
    o.Allowed s → o.Plain s → o.run (calls d) s = some ((), t) → t.trace = new ++ s.trace →
      Logged (new.map .event ++ o.noted ++ l) t

theorem ne_of_memoAt (hx : s.nodes[x]? = some (.signal w)) (hm : s.memoAt k ≠ none) : x ≠ k := by
  rintro rfl
  simp [memoAt, hx] at hm

theorem Rests.new (h : s.Rests l n) (hs : s.memoAt n = none)
    (hdue : t.memoAt n ≠ none → ¬t.Fresh ∅ n) : t.Rests l n where
  idle := h.idle
  plain _ := h.plain hs
  stale hm := iff_of_true (stale_of_basis (h.plain hs)) (hdue hm)
  sums hm hf := absurd hf (hdue hm)

/-- The log accounts for a graph of signals and memos in which nothing runs. -/
structure Balanced (s : Store) (l : Log) : Prop extends s.Accounted l where
  reached : Reached s
  pure : ∀ {n : NodeId} {e : Effect}, s.nodes[n]? ≠ some (.effect e)
  live : ∀ {n : NodeId}, n < s.nodes.length → .node n ∈ s.live

namespace Balanced

theorem at_rest (h : s.Balanced l) (k : NodeId) : s.Rests l k :=
  h.rests (by simp [h.reached.calm.2])

theorem graph (h : s.Balanced l) : s.Graph := h.reached.calm.1.sound.graph

theorem memo_of_reader (h : s.Balanced l) (hk : k ∈ Edges.readers s.edges j) :
    s.memoAt k ≠ none := by
  obtain ⟨body, hb, _⟩ := h.graph.edges hk
  obtain ⟨x, hx, hxb⟩ := body?_eq_some.1 hb
  cases x with
  | memo m => simp [memoAt_eq_some.2 hx]
  | effect e => exact absurd hx h.pure
  | _ => cases hxb

theorem not_fresh (h : s.Balanced l) (hs : Stale k l) (hm : s.memoAt k ≠ none) : ¬s.Fresh ∅ k :=
  ((h.at_rest k).stale hm).1 hs

theorem grounds_of_signal (h : s.Balanced l) (hx : s.nodes[x]? = some (.signal v)) :
    grounds x l = [x] := by
  rw [grounds, (h.at_rest x).plain (by simp [memoAt, hx]), Option.getD_none]

theorem markable (h : s.Balanced l) (hx : s.nodes[x]? = some (.signal w)) (v : Json) :
    Markable {k | s.Fresh ∅ k → x ∈ grounds k l}
      { s with nodes := s.nodes.set x (.signal v) } where
  memo {k j} hk := by
    have hm := h.memo_of_reader hk
    rwa [memoAt_congr (List.getElem?_set_ne (ne_of_memoAt hx hm))]
  closed {k j} hj hk hf := by
    have hsums := (h.at_rest k).sums (h.memo_of_reader hk) hf
    exact (hsums.mem x).2 ⟨j, hk, hj (hsums.fresh hk)⟩

variable (h : s.Balanced l) (hx : s.nodes[x]? = some (.signal w))
  (hmarks : Marks {k | s.Fresh ∅ k → x ∈ grounds k l}
    { s with nodes := s.nodes.set x (.signal v) } t)

include h hx hmarks

theorem stays (hf : s.Fresh ∅ k) (hk : x ∉ grounds k l) : t.nodes[k]? = s.nodes[k]? := by
  refine (hmarks.outside fun hmem => hk (hmem hf)).trans (List.getElem?_set_ne ?_)
  rintro rfl
  simp [h.grounds_of_signal hx] at hk

theorem marked (hreaders : ∀ k ∈ s.targets x, ¬t.Fresh ∅ k) :
    s.memoAt k ≠ none → s.Fresh ∅ k → x ∈ grounds k l → ¬t.Fresh ∅ k := by
  induction k using Nat.strongRecOn with
  | ind k ih =>
    intro hm hf hk
    obtain ⟨y, hy, hxy⟩ := ((h.at_rest k).sums hm hf).mem x |>.1 hk
    have hlive : .node k ∈ s.live := by
      obtain ⟨body, hb, _⟩ := h.graph.edges hy
      exact h.live (lt_of_body? hb)
    have hfy := ((h.at_rest k).sums hm hf).fresh hy
    by_cases hmy : s.memoAt y = none
    · rw [grounds, (h.at_rest y).plain hmy, Option.getD_none, List.mem_singleton] at hxy
      exact hreaders k (mem_targets.2 ⟨hxy ▸ hy, hlive⟩)
    · have hdue := ih y (h.graph.lt_of_feeds (h.graph.edges hy)) hmy hfy hxy
      exact hmarks.told (hfy.congr (List.getElem?_set_ne (ne_of_memoAt hx hmy))) hdue k
        (mem_targets.2 ⟨hy, hlive⟩)

omit h in
theorem memos_set (k : NodeId) : t.memoAt k = none ↔ s.memoAt k = none := by
  rw [hmarks.memoAt]
  by_cases hkx : x = k
  · subst hkx
    simp only [memoAt, hx, List.getElem?_set_self (List.getElem?_eq_some_iff.1 hx).1]
  · rw [memoAt_congr (List.getElem?_set_ne hkx)]

theorem fresh_set_iff (hreaders : ∀ k ∈ s.targets x, ¬t.Fresh ∅ k) (hm : s.memoAt k ≠ none) :
    t.Fresh ∅ k ↔ s.Fresh ∅ k ∧ x ∉ grounds k l := by
  constructor
  · intro hf
    have hs : s.Fresh ∅ k := by
      by_contra hs
      exact hmarks.due (mt (·.congr (List.getElem?_set_ne (ne_of_memoAt hx hm)).symm) hs) hf
    exact ⟨hs, fun hk => h.marked hx hmarks hreaders hm hs hk hf⟩
  · exact fun ⟨hs, hk⟩ => hs.congr (h.stays hx hmarks hs hk)

/-- Once a signal is set, exactly those memos are due that the log says are stale. -/
theorem rests_set (hreaders : ∀ k ∈ s.targets x, ¬t.Fresh ∅ k) (k : NodeId) :
    t.Rests (.set x :: l) k := by
  have hr := h.at_rest k
  have hmemo := memos_set hx hmarks k
  refine ⟨gathered_set.trans hr.idle, fun hm => basis_set.trans (hr.plain (hmemo.1 hm)),
    fun hm => ?_, fun hm hf => ?_⟩
  · replace hm := mt hmemo.2 hm
    rw [stale_set, h.fresh_set_iff hx hmarks hreaders hm, hr.stale hm]
    by_cases hs : s.Fresh ∅ k
    · cases hb : basis k l with
      | none => exact absurd hs (h.not_fresh (stale_of_basis hb) hm)
      | some ys => simp [hs, grounds, hb]
    · simp [hs]
  · replace hm := mt hmemo.2 hm
    obtain ⟨hs, hk⟩ := (h.fresh_set_iff hx hmarks hreaders hm).1 hf
    have hsums := hr.sums hm hs
    rw [grounds, basis_set]
    refine hsums.keep (fun y => by rw [hmarks.edges]) fun y hy hfy => ?_
    have hxy : x ∉ grounds y l := fun hxy => hk ((hsums.mem x).2 ⟨y, hy, hxy⟩)
    exact ⟨hfy.congr (h.stays hx hmarks hfy hxy), by rw [grounds, basis_set, grounds]⟩

omit hx hmarks

theorem set (hx : s.nodes[x]? = some (.signal w)) (ht : write (calls d) x v s = some ((), t)) :
    t.Balanced (.set x :: l) ∧ t.trace = s.trace := by
  have hreached : Reached t := h.reached.step (.set x v) d trivial ht
  rw [write_of_signal _ hx] at ht
  obtain ⟨hmarks, hreaders⟩ := calls_marks d (h.markable hx v)
    (fun _ => by simp [h.grounds_of_signal hx]) ht
  have hrests := h.rests_set hx hmarks hreaders
  have hlength (k : NodeId) : k < t.nodes.length ↔ k < s.nodes.length := by
    rw [hmarks.lt_length, List.length_set]
  have hbalanced : t.Balanced (.set x :: l) :=
    { rests := fun {k} _ => hrests k
      known := fun hy => (hlength _).2 (h.known ((List.mem_cons.1 hy).resolve_left nofun))
      busy := fun hr => by simp [reader?, hreached.calm.2] at hr
      exact := (h.exact.mono fun _ => mt (memos_set hx hmarks _).2).cons (fun _ => rfl) nofun
      reached := hreached
      pure := fun {k e} he => by
        rcases hmarks.marked k with hk | ⟨m, _, hk⟩
        · rw [hk] at he
          by_cases hkx : x = k
          · subst hkx
            cases (List.getElem?_set_self (List.getElem?_eq_some_iff.1 hx).1).symm.trans he
          · exact h.pure ((List.getElem?_set_ne hkx).symm.trans he)
        · cases he.symm.trans hk
      live := fun hk => by
        rw [hmarks.same]
        exact h.live ((hlength _).1 hk) }
  exact ⟨hbalanced, by rw [hmarks.same]⟩

theorem read (hn : n < s.nodes.length) {y : Content} (ht : (calls d).read n s = some (y, t)) :
    ∃ new, t.trace = new ++ s.trace ∧ .read none n y ∈ new ∧
      (∀ k, t.memoAt k = none ↔ s.memoAt k = none) ∧ t.Balanced (new.map .event ++ l) := by
  obtain ⟨hcalm, hframes⟩ := h.reached.calm
  have hreached : Reached t := h.reached.step (.read n) d trivial (bind_eq_some.2 ⟨y, t, ht, rfl⟩)
  have hmay : s.MayRead n := fun r hr => by simp [reader?, hframes] at hr
  obtain ⟨-, hobs⟩ := calls_read hcalm.sound (fun _ _ hk => hk.elim) hmay ht
  obtain ⟨⟨l', hacc, hbypass⟩, told, htold⟩ := calls_logs d hcalm.sound hmay hn (by simp [hframes])
    h.toAccounted ht
  obtain ⟨new, htrace, rfl, -⟩ := hbypass.log
  have hnew : new = .read none n y :: told := by
    have hreader : s.reader? = none := by simp [reader?, hframes]
    exact List.append_cancel_right (htrace.symm.trans (hreader ▸ htold))
  have hnone {k : NodeId} (hk : s.memoAt k = none) : t.nodes[k]? = s.nodes[k]? :=
    hobs.same (fresh_of_memoAt_none hk)
  refine ⟨new, htrace, hnew ▸ List.mem_cons_self, hobs.memos,
    hacc, hreached, fun {k e} he => ?_, fun {k} hk => ?_⟩
  · have hm : s.memoAt k = none := (hobs.memos k).1 (by simp [memoAt, he])
    exact h.pure ((hnone hm).symm.trans he)
  · rw [hobs.live]
    refine h.live (Nat.lt_of_not_le fun hle => ?_)
    have hs : s.nodes[k]? = none := List.getElem?_eq_none hle
    have ht : t.nodes[k]? = none := (hnone (by simp [memoAt, hs])).trans hs
    exact absurd hk (Nat.not_lt.2 (List.getElem?_eq_none_iff.1 ht))

theorem added {z : Node} (hz : (∃ v, z = .signal v) ∨ ∃ m, z = .memo m ∧ m.value = none)
    (hreached : Reached t)
    (ht : t = { s.added z with roots := .node s.nodes.length :: s.roots }) : t.Balanced l := by
  have hself : t.nodes[s.nodes.length]? = some z := by rw [ht]; exact s.nodes_added_self z
  have hne {k : NodeId} (hk : k ≠ s.nodes.length) : t.nodes[k]? = s.nodes[k]? := by
    rw [ht]
    exact nodes_added_of_ne hk
  have hlength : t.nodes.length = s.nodes.length + 1 := by rw [ht]; exact List.length_append
  exact
    { rests := fun {k} _ => by
        by_cases hk : k = s.nodes.length
        · subst hk
          refine (h.at_rest _).new (by simp [memoAt]) fun hm hf => ?_
          rcases hz with ⟨v, rfl⟩ | ⟨m, rfl, hvalue⟩
          · simp [memoAt, hself] at hm
          · exact (hf m hself).2 hvalue
        · refine (h.at_rest k).keep (hne hk) rfl rfl .rfl fun ys hys =>
            hys.keep (fun y => by rw [ht]; rfl) fun y hy hf => ⟨hf.congr (hne ?_), rfl⟩
          obtain ⟨body, hb, _⟩ := h.graph.edges hy
          have hlt := h.graph.lt_of_feeds (h.graph.edges hy)
          exact Nat.ne_of_lt (Nat.lt_trans hlt (lt_of_body? hb))
      known := fun hy => hlength ▸ Nat.lt_succ_of_lt (h.known hy)
      busy := fun hr => by simp [reader?, hreached.calm.2] at hr
      exact := h.exact.mono fun hy hm => by
        rwa [memoAt_congr (hne (Nat.ne_of_lt (h.known hy)))] at hm
      reached := hreached
      pure := fun {k e} he => by
        by_cases hk : k = s.nodes.length
        · subst hk
          cases hself.symm.trans he
          rcases hz with ⟨v, hv⟩ | ⟨m, hm, _⟩
          · cases hv
          · cases hm
        · exact h.pure ((hne hk).symm.trans he)
      live := fun {k} hk => by
        rw [ht]
        rcases Nat.lt_succ_iff_lt_or_eq.1 (hlength ▸ hk) with hk | rfl
        · exact List.mem_cons_of_mem _ (h.live hk)
        · exact List.mem_cons_self }

end Balanced

theorem Logged.balanced (h : Logged l s) : s.Balanced l := by
  induction h with
  | start =>
    exact
      { rests := fun _ => ⟨rfl, fun _ => rfl, fun hm => absurd rfl hm, fun hm => absurd rfl hm⟩
        known := fun hx => absurd hx List.not_mem_nil
        busy := nofun
        exact := exact_nil
        reached := .refl
        pure := nofun
        live := fun hk => absurd hk (Nat.not_lt_zero _) }
  | @step l s t o d new _ ho hplain ht htrace ih =>
    have hreached : Reached t := ih.reached.step o d ho ht
    cases o with
    | signal v =>
      cases ht
      obtain rfl : new = [] := List.append_cancel_right (htrace.symm.trans (List.nil_append _).symm)
      exact ih.added (.inl ⟨v, rfl⟩) hreached rfl
    | memo name body =>
      cases ht
      obtain rfl : new = [] := List.append_cancel_right (htrace.symm.trans (List.nil_append _).symm)
      exact ih.added (.inr ⟨_, rfl, rfl⟩) hreached rfl
    | set x v =>
      obtain ⟨w, hx⟩ := hplain
      obtain ⟨hbalanced, hsame⟩ := ih.set hx ht
      rw [hsame] at htrace
      obtain rfl : new = [] := List.append_cancel_right (htrace.symm.trans (List.nil_append _).symm)
      exact hbalanced
    | read n =>
      obtain ⟨y, u, hu, ht⟩ := bind_eq_some.1 ht
      cases ht
      obtain ⟨new', htrace', -, -, hbalanced⟩ := ih.read hplain hu
      obtain rfl := List.append_cancel_right (htrace.symm.trans htrace')
      simpa only [Operation.noted, List.append_nil] using hbalanced
    | _ => cases hplain

/-- A read of a memo, by the program or by another memo, computes it if it was never computed or if
a signal was set since that its last computation read, directly or through memos, and otherwise it
does not. Nothing but a read computes it, and between two writes it is computed at most once. -/
theorem Logged.computes_exactly (h : Logged l s) :
    (∀ n d, n < s.nodes.length → n < d → ∃ v t new, (calls d).read n s = some (v, t) ∧
        t.trace = new ++ s.trace ∧ Logged (new.map .event ++ l) t ∧ .read none n v ∈ new ∧
        ∀ r x w, .read r x w ∈ new → s.memoAt x ≠ none →
          ((∃ e ∈ new, e.closes x = true) ↔ Stale x l)) ∧
      (∀ r x v c, .event (.read r x v) :: c <:+ l → s.memoAt x ≠ none →
        (computed x c = true ↔ Stale x (before x c))) ∧
      (∀ x o c, o :: c <:+ l → o.closes x = true → ∃ r v, .event (.read r x v) :: o :: c <:+ l) ∧
      ∀ x a b c, l = a ++ b ++ c → (∀ y, .set y ∉ b) → s.memoAt x ≠ none →
        b.countP (Occurrence.closes x) ≤ 1 := by
  have hb := h.balanced
  refine ⟨fun n d hn hd => ?_, fun r x v c hl hx => hb.exact.read hl hx,
    fun x o c hl ho => hb.exact.computed hl ho, fun x a b c hl hset hx => ?_⟩
  · obtain ⟨hcalm, hframes⟩ := hb.reached.calm
    obtain ⟨t, ht⟩ := (hcalm.sound.read_trusted hframes (fun _ hk => hk.elim) (hb.live hn)
      fun _ _ => Set.notMem_empty _).1 d hd
    obtain ⟨new, htrace, htold, hmemos, hbalanced⟩ := hb.read hn ht
    have hstep := h.step (.read n) d new trivial hn (bind_eq_some.2 ⟨_, t, ht, rfl⟩) htrace
    simp only [Operation.noted, List.append_nil] at hstep
    exact ⟨_, t, new, ht, htrace, hstep, htold, fun r x w hr hx =>
      hbalanced.exact.computes_iff (mt (hmemos x).1 hx) hr⟩
  · have hsuffix : b ++ c <:+ l := ⟨a, by rw [hl, List.append_assoc]⟩
    exact hb.exact.once hx hsuffix hset

def performed (s : Store) (o : Operation) : Store := ((o.run (calls 5) s).map Prod.snd).getD s

/-- Two signals, a memo that reads the second one if the first one is set, a memo that reads the
second one, and a memo that reads both memos. -/
def diamond : Store :=
  [.signal (.bool true), .signal (.bool true), .memo "a" (.cond (.get 0) (.get 1) (.literal .null)),
    .memo "b" (.get 1), .memo "c" (.list [.get 2, .get 3])].foldl performed {}

def firstRead : List Event :=
  [.read none 4 (.json (.array [.bool true, .bool true])),
    .memo 4 "c" (.array [.bool true, .bool true]), .read (some 4) 3 (.json (.bool true)),
    .memo 3 "b" (.bool true), .read (some 3) 1 (.json (.bool true)),
    .read (some 4) 2 (.json (.bool true)), .memo 2 "a" (.bool true),
    .read (some 2) 1 (.json (.bool true)), .read (some 2) 0 (.json (.bool true))]

def secondRead : List Event :=
  [.read none 4 (.json (.array [.null, .bool true])), .memo 4 "c" (.array [.null, .bool true]),
    .read (some 4) 3 (.json (.bool true)), .read (some 4) 2 (.json .null), .memo 2 "a" .null,
    .read (some 2) 0 (.json (.bool false))]

theorem logged_diamond : Logged [] diamond := by
  refine .step (.memo "c" (.list [.get 2, .get 3])) 5 [] (.step (.memo "b" (.get 1)) 5 []
      (.step (.memo "a" (.cond (.get 0) (.get 1) (.literal .null))) 5 []
        (.step (.signal (.bool true)) 5 [] (.step (.signal (.bool true)) 5 [] .start trivial trivial
          rfl rfl) trivial trivial rfl rfl) ?_ trivial rfl rfl)
        ?_ trivial rfl rfl) ?_ trivial rfl rfl
  · exact ⟨rfl, by decide⟩
  · exact ⟨rfl, by decide⟩
  · exact ⟨rfl, by decide⟩

def reset : Store := (diamond.performed (.read 4)).performed (.set 0 (.bool false))

theorem logged_reset : Logged (.set 0 :: firstRead.map .event) reset := by
  have hread : Logged (firstRead.map .event) (diamond.performed (.read 4)) :=
    .step (.read 4) 5 firstRead logged_diamond trivial
      (show 4 < diamond.nodes.length by decide) rfl rfl
  exact .step (.set 0 (.bool false)) 5 [] hread trivial ⟨_, rfl⟩ rfl rfl

/-- The memo behind the signal that was reset is stale and so is the one that reads both; they are
computed once more. The other memo is not, although it is read. -/
theorem computes_in_reset :
    (∃ t, (calls 5).read 4 reset = some (.json (.array [.null, .bool true]), t) ∧
      t.trace = secondRead ++ reset.trace) ∧
        Stale 2 (.set 0 :: firstRead.map .event) ∧ ¬Stale 3 (.set 0 :: firstRead.map .event) ∧
          Stale 4 (.set 0 :: firstRead.map .event) := by
  obtain ⟨v, t, new, ht, htrace, -, -, hexact⟩ := logged_reset.computes_exactly.1 4 5 (by decide)
    (by decide)
  have ht' : (calls 5).read 4 reset = some (.json (.array [.null, .bool true]), _) := rfl
  cases ht.symm.trans ht'
  obtain rfl : new = secondRead :=
    List.append_cancel_right (htrace.symm.trans (rfl : _ = secondRead ++ reset.trace))
  have hread2 : .read (some 4) 2 (.json .null) ∈ secondRead := by simp [secondRead]
  have hread3 : .read (some 4) 3 (.json (.bool true)) ∈ secondRead := by simp [secondRead]
  have hread4 : .read none 4 _ ∈ secondRead := List.mem_cons_self
  exact ⟨⟨_, ht, htrace⟩, (hexact _ 2 _ hread2 nofun).1 (by decide),
    mt (hexact _ 3 _ hread3 nofun).2 (by decide), (hexact _ 4 _ hread4 nofun).1 (by decide)⟩

end Store

end HotSwap
