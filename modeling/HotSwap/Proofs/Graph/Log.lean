import HotSwap.Proofs.Subscription.Run
/-!
# What a memo was computed from

A log says what happened to a graph: the events of its trace and, between them, which signals were
set. It tells which signals the last computation of a memo read, directly or through memos, and
whether one of them was set since. Nothing here mentions what a memo holds or whether it is clean:
this is what the marks of the graph are compared with.
-/

namespace HotSwap

inductive Occurrence
  | event (e : Event)
  | set (signal : NodeId)

abbrev Log := List Occurrence

def Occurrence.closes (n : NodeId) : Occurrence → Bool
  | .event e => e.closes n
  | .set _ => false

namespace Log

mutual

/-- The signals that the last computation of a memo read, directly or through memos. -/
def basis (n : NodeId) : Log → Option (List NodeId)
  | [] => none
  | .event e :: l => if e.closes n then some (gathered n l) else basis n l
  | .set _ :: l => basis n l

/-- The signals that a memo has read, directly or through memos, since its last computation ended. A
source that was never computed is a signal. -/
def gathered (n : NodeId) : Log → List NodeId
  | [] => []
  | .event e :: l =>
    if e.closes n then []
    else match e.sourceFor n with
      | some x => (basis x l).getD [x] ++ gathered n l
      | none => gathered n l
  | .set _ :: l => gathered n l

end

def grounds (x : NodeId) (l : Log) : List NodeId := (basis x l).getD [x]

def since (n : NodeId) (l : Log) : Log := l.takeWhile fun o => !o.closes n

/-- A memo was never computed, or a signal was set that its last computation read, directly or
through memos. -/
def Stale (n : NodeId) (l : Log) : Prop :=
  ∀ ys, basis n l = some ys → ∃ y ∈ ys, .set y ∈ since n l

def computed (x : NodeId) (l : Log) : Bool := (l.head?.map (Occurrence.closes x)).getD false

def before (x : NodeId) (l : Log) : Log := if computed x l then l.tail else l

variable {n x y : NodeId} {e : Event} {l l' : Log} {new : List Event}

theorem basis_closes (h : e.closes n = true) : basis n (.event e :: l) = some (gathered n l) := by
  simp [basis, h]

theorem basis_event (h : e.closes n = false) : basis n (.event e :: l) = basis n l := by
  simp [basis, h]

theorem basis_set : basis n (.set y :: l) = basis n l := by simp [basis]

theorem gathered_closes (h : e.closes n = true) : gathered n (.event e :: l) = [] := by
  simp [gathered, h]

theorem gathered_event (h : e.actor ≠ some n) : gathered n (.event e :: l) = gathered n l := by
  simp [gathered, Event.closes_of_ne h, Event.sourceFor_of_ne h]

theorem gathered_read (v : Content) :
    gathered n (.event (.read (some n) x v) :: l) = grounds x l ++ gathered n l := by
  simp [gathered, Event.closes, Event.sourceFor, grounds]

theorem gathered_set : gathered n (.set y :: l) = gathered n l := by simp [gathered]

theorem not_stale_closes (h : e.closes n = true) : ¬Stale n (.event e :: l) := by
  intro hs
  obtain ⟨y, _, hy⟩ := hs _ (basis_closes h)
  simp [since, Occurrence.closes, h] at hy

theorem stale_event (h : e.closes n = false) : Stale n (.event e :: l) ↔ Stale n l := by
  simp [Stale, basis_event h, since, Occurrence.closes, h]

theorem stale_set : Stale n (.set y :: l) ↔ Stale n l ∨ ∃ ys, basis n l = some ys ∧ y ∈ ys := by
  have hsince : since n (.set y :: l) = .set y :: since n l := by simp [since, Occurrence.closes]
  simp only [Stale, basis_set, hsince]
  constructor
  · intro h
    by_cases hy : ∃ ys, basis n l = some ys ∧ y ∈ ys
    · exact .inr hy
    · refine .inl fun ys hys => ?_
      obtain ⟨z, hz, hset⟩ := h ys hys
      refine ⟨z, hz, (List.mem_cons.1 hset).resolve_left ?_⟩
      rintro ⟨⟩
      exact hy ⟨ys, hys, hz⟩
  · rintro (h | ⟨ys, hys, hy⟩) zs hzs
    · obtain ⟨z, hz, hset⟩ := h zs hzs
      exact ⟨z, hz, List.mem_cons_of_mem _ hset⟩
    · cases hys.symm.trans hzs
      exact ⟨y, hy, List.mem_cons_self⟩

theorem stale_of_basis (h : basis n l = none) : Stale n l := by simp [Stale, h]

theorem basis_append (h : ∀ e ∈ new, e.actor ≠ some n) :
    basis n (new.map .event ++ l) = basis n l := by
  induction new with
  | nil => rfl
  | cons e new ih =>
    rw [List.forall_mem_cons] at h
    exact (basis_event (Event.closes_of_ne h.1)).trans (ih h.2)

theorem gathered_append (h : ∀ e ∈ new, e.actor ≠ some n) :
    gathered n (new.map .event ++ l) = gathered n l := by
  induction new with
  | nil => rfl
  | cons e new ih =>
    rw [List.forall_mem_cons] at h
    exact (gathered_event h.1).trans (ih h.2)

theorem stale_append {b : Log} (hclose : ∀ o ∈ b, o.closes n = false) (hset : ∀ y, .set y ∉ b) :
    Stale n (b ++ l) ↔ Stale n l := by
  induction b with
  | nil => rfl
  | cons o b ih =>
    rw [List.forall_mem_cons] at hclose
    have hb := ih hclose.2 fun y hy => hset y (List.mem_cons_of_mem _ hy)
    cases o with
    | event e => exact (stale_event hclose.1).trans hb
    | set y => exact absurd List.mem_cons_self (hset y)

theorem stale_events (h : ∀ e ∈ new, e.closes n = false) :
    Stale n (new.map .event ++ l) ↔ Stale n l := by
  refine stale_append (fun o ho => ?_) fun y hy => ?_
  · obtain ⟨e, he, rfl⟩ := List.mem_map.1 ho
    exact h e he
  · obtain ⟨e, _, he⟩ := List.mem_map.1 hy
    cases he

theorem not_stale_append {b : Log} {o : Occurrence} (ho : o ∈ b) (hclose : o.closes n = true)
    (hset : ∀ y, .set y ∉ b) : ¬Stale n (b ++ l) := by
  induction b with
  | nil => cases ho
  | cons o' b ih =>
    cases o' with
    | set y => exact absurd List.mem_cons_self (hset y)
    | event e =>
      cases he : e.closes n with
      | true => exact not_stale_closes he
      | false =>
        have hb : o ∈ b := (List.mem_cons.1 ho).resolve_left fun heq => by
          simp [heq, Occurrence.closes, he] at hclose
        rw [List.cons_append, stale_event he]
        exact ih hb fun y hy => hset y (List.mem_cons_of_mem _ hy)

theorem not_stale_of_computed (h : computed n l = true) : ¬Stale n l := by
  cases l with
  | nil => cases h
  | cons o l =>
    cases o with
    | set y => cases h
    | event e => exact not_stale_closes h

/-- Each read of one of the memos has computed it if it was stale, and only then; and each
computation was done by a read. -/
structure Exact (memo : NodeId → Prop) (l : Log) : Prop where
  read : ∀ {c : Log} {r : Option NodeId} {x : NodeId} {v : Content},
    .event (.read r x v) :: c <:+ l → memo x → (computed x c = true ↔ Stale x (before x c))
  computed : ∀ {c : Log} {o : Occurrence} {x : NodeId}, o :: c <:+ l → o.closes x = true →
    ∃ r v, .event (.read r x v) :: o :: c <:+ l

variable {memo memo' : NodeId → Prop}

theorem exact_nil : Exact memo [] := ⟨by simp, by simp⟩

namespace Exact

theorem mono (h : Exact memo l)
    (hmemo : ∀ {r x v}, .event (.read r x v) ∈ l → memo' x → memo x) : Exact memo' l :=
  ⟨fun hl hx => h.read hl (hmemo (hl.subset List.mem_cons_self) hx), h.computed⟩

theorem computed_eq_false (h : Exact memo l) (x : NodeId) : l.computed x = false := by
  cases l with
  | nil => rfl
  | cons o l =>
    rw [← Bool.not_eq_true]
    intro ho
    obtain ⟨r, v, hsuffix⟩ := h.computed (List.suffix_refl _) ho
    exact absurd hsuffix.length_le (Nat.not_succ_le_self _)

theorem cons (h : Exact memo l) {o : Occurrence} (hclose : ∀ x, o.closes x = false)
    (hread : ∀ r x v, o = .event (.read r x v) → ¬memo x) : Exact memo (o :: l) where
  read {c r x v} hl hx := by
    rcases List.suffix_cons_iff.1 hl with hc | hl
    · cases hc
      exact absurd hx (hread r x v rfl)
    · exact h.read hl hx
  computed {c o' x} hl ho := by
    rcases List.suffix_cons_iff.1 hl with hc | hl
    · cases hc
      simp [hclose] at ho
    · obtain ⟨r, v, hsuffix⟩ := h.computed hl ho
      exact ⟨r, v, hsuffix.trans (List.suffix_cons _ _)⟩

theorem cons_read (h : Exact memo l) (hx : memo x → ¬Stale x l) (r : Option NodeId) (v : Content) :
    Exact memo (.event (.read r x v) :: l) where
  read {c r' x' v'} hl hx' := by
    rcases List.suffix_cons_iff.1 hl with hc | hl
    · cases hc
      simp [before, h.computed_eq_false, hx hx']
    · exact h.read hl hx'
  computed {c o x'} hl ho := by
    rcases List.suffix_cons_iff.1 hl with hc | hl
    · cases hc
      cases ho
    · obtain ⟨r', v', hsuffix⟩ := h.computed hl ho
      exact ⟨r', v', hsuffix.trans (List.suffix_cons _ _)⟩

theorem cons_computed (h : Exact memo l) (hx : Stale x l) (r : Option NodeId) (v : Content)
    (name : String) (w : Json) :
    Exact memo (.event (.read r x v) :: .event (.memo x name w) :: l) where
  read {c r' x' v'} hl hx' := by
    rcases List.suffix_cons_iff.1 hl with hc | hl
    · cases hc
      simp [before, Log.computed, Occurrence.closes, Event.closes, hx]
    · rcases List.suffix_cons_iff.1 hl with hc | hl
      · cases hc
      · exact h.read hl hx'
  computed {c o x'} hl ho := by
    rcases List.suffix_cons_iff.1 hl with hc | hl
    · cases hc
      cases ho
    · rcases List.suffix_cons_iff.1 hl with hc | hl
      · cases hc
        obtain rfl : x = x' := of_decide_eq_true ho
        exact ⟨r, v, List.suffix_refl _⟩
      · obtain ⟨r', v', hsuffix⟩ := h.computed hl ho
        exact ⟨r', v', hsuffix.trans ((List.suffix_cons _ _).trans (List.suffix_cons _ _))⟩

theorem stale_of_closes (h : Exact memo l) {o : Occurrence} (hl : o :: l' <:+ l)
    (ho : o.closes x = true) (hx : memo x) : Stale x l' := by
  obtain ⟨r, v, hsuffix⟩ := h.computed hl ho
  have hcomputed : Log.computed x (o :: l') = true := by simp [Log.computed, ho]
  simpa [before, hcomputed] using (h.read hsuffix hx).1 hcomputed

/-- Between two writes each memo is computed at most once. -/
theorem once (h : Exact memo l) (hx : memo x) {b c : Log} (hl : b ++ c <:+ l)
    (hset : ∀ y, .set y ∉ b) : b.countP (Occurrence.closes x) ≤ 1 := by
  induction b with
  | nil => simp
  | cons o b ih =>
    have hb : b ++ c <:+ l := (List.suffix_cons o (b ++ c)).trans hl
    have hset' : ∀ y, .set y ∉ b := fun y hy => hset y (List.mem_cons_of_mem _ hy)
    cases ho : o.closes x with
    | false => simpa [List.countP_cons, ho] using ih hb hset'
    | true =>
      have hstale := h.stale_of_closes hl ho hx
      have hzero : b.countP (Occurrence.closes x) = 0 :=
        List.countP_eq_zero.2 fun o' ho' hclose => not_stale_append ho' hclose hset' hstale
      simp [ho, hzero]

/-- As long as no signal is set, a memo that is read is computed if it was stale before. -/
theorem computes_iff (h : Exact memo (new.map .event ++ l)) (hx : memo x) {r : Option NodeId}
    {v : Content} (hr : .read r x v ∈ new) : (∃ e ∈ new, e.closes x = true) ↔ Stale x l := by
  have hset {b : List Event} (y : NodeId) : .set y ∉ b.map Occurrence.event := by simp
  constructor
  · rintro ⟨e, he, hclose⟩
    obtain ⟨b, c, rfl⟩ := List.append_of_mem he
    rw [List.map_append, List.map_cons, List.append_assoc, List.cons_append] at h
    have hstale := h.stale_of_closes (List.suffix_append _ _) (o := .event e) hclose hx
    refine (stale_append (fun o ho => ?_) hset).1 hstale
    rw [← Bool.not_eq_true]
    exact fun ho' => not_stale_append ho ho' hset hstale
  · intro hstale
    refine Classical.byContradiction fun hnone => ?_
    have hclose : ∀ e ∈ new, e.closes x = false := fun e he => by
      rw [← Bool.not_eq_true]
      exact fun hc => hnone ⟨e, he, hc⟩
    obtain ⟨b, c, rfl⟩ := List.append_of_mem hr
    rw [List.map_append, List.map_cons, List.append_assoc, List.cons_append] at h
    have hc : ∀ e ∈ c, e.closes x = false := fun e he =>
      hclose e (List.mem_append_right _ (List.mem_cons_of_mem _ he))
    have hstale' : Stale x (c.map .event ++ l) := (stale_events hc).2 hstale
    have hcomputed : Log.computed x (c.map .event ++ l) = false := by
      rw [← Bool.not_eq_true]
      exact fun hc => not_stale_of_computed hc hstale'
    have hread := h.read (List.suffix_append _ _) hx
    simp [before, hcomputed, hstale'] at hread

end Exact

end Log

end HotSwap
