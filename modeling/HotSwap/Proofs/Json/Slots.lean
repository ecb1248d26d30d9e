import HotSwap.Proofs.Json.Shapes
/-!
# The slots of a record

A known member fills a slot that must be empty. So it does not matter in which order the members
come, and none of them comes twice.
-/

namespace HotSwap.Json

open Reader

variable {α β σ : Type} {b v : List Char} {o : Option α} {r : Reader α} {name key : String}
  {ms : List (String × List Char)}

def outcome (r : Reader α) (v : List Char) : Option α :=
  match r v with
  | .ok (a, _) => some a
  | .error _ => none

theorem Reads.outcome_eq (h : Reads r v o) : outcome r v = o := by
  have hv := h [] [] .nil (by simp [Ends])
  rw [List.nil_append, List.append_nil] at hv
  cases o with
  | none =>
    obtain ⟨f, hf⟩ := hv
    rw [outcome, hf]
  | some a => rw [outcome, show r v = .ok (a, []) from hv]

theorem Settles.reads (h : Settles r v) : Reads r v (outcome r v) := by
  obtain ⟨o, ho⟩ := h
  rwa [ho.outcome_eq]

theorem reads_once (name : String) (h : Reads r v o) (slot : Option α) (hb : Blanks b) :
    Reads (once name slot r) (':' :: (b ++ v)) (if slot.isSome then none else o) := by
  cases slot with
  | some a => exact fun _ _ _ _ => ⟨_, rfl⟩
  | none =>
    intro b₀ rest hb₀ hrest
    have hcolon : colon (b₀ ++ ':' :: (b ++ (v ++ rest))) = .ok ((), b ++ (v ++ rest)) := by
      rw [colon, peek_blanks hb₀ rfl]
      rfl
    have hread := (bind_of_ok (f := fun _ => r) hcolon).symm ▸ h b rest hb hrest
    simpa [once] using hread

def fill (slot : Option α) (r : Reader α) (v : List Char) (put : α → σ) : Option σ :=
  if slot.isSome then none else (outcome r v).map put

theorem reads_fill (h : Settles r v) (slot : Option α) (hb : Blanks b) (put : α → σ) :
    Reads (once name slot r >>= fun a => pure (put a)) (':' :: (b ++ v)) (fill slot r v put) := by
  have hput := (reads_once name h.reads slot hb).map put
  unfold fill
  split <;> simpa [*] using hput

theorem reads_ignored (h : Wellformed v) (hb : Blanks b) :
    Reads ignored (':' :: (b ++ v)) (some ()) := by
  have hskip := reads_once "" (reads_skip h) none hb
  exact hskip

def under (key : String) (ms : List (String × List Char)) : List (String × List Char) :=
  ms.filter fun m => m.1 = key

variable {step : σ → String × List Char → Option σ} {slot : σ → Option α}
  {holds : List Char → Option α} {known : List String} {s t : σ}

/-- A member of this name fills an empty slot with what it holds, and no other member touches it. -/
structure Slot (step : σ → String × List Char → Option σ) (key : String) (slot : σ → Option α)
    (holds : List Char → Option α) : Prop where
  own : ∀ s v t, step s (key, v) = some t → slot s = none ∧ ∃ a, holds v = some a ∧ slot t = some a
  other : ∀ s m t, m.1 ≠ key → step s m = some t → slot t = slot s

theorem fill_eq_some {slot : Option α} {put : α → σ} (h : fill slot r v put = some t) :
    slot = none ∧ ∃ a, outcome r v = some a ∧ t = put a := by
  cases slot with
  | some b => cases h
  | none =>
    obtain ⟨a, ha, rfl⟩ := Option.map_eq_some_iff.1 h
    exact ⟨rfl, a, ha, rfl⟩

theorem Slot.of_fill {put : σ → α → σ}
    (hown : ∀ s v, step s (key, v) = fill (slot s) r v (put s))
    (hput : ∀ s a, slot (put s a) = some a)
    (hother : ∀ s m t, m.1 ≠ key → step s m = some t → slot t = slot s) :
    Slot step key slot (outcome r) where
  own s v t h := by
    obtain ⟨hs, a, ha, rfl⟩ := fill_eq_some ((hown s v).symm.trans h)
    exact ⟨hs, a, ha, hput s a⟩
  other := hother

theorem Slot.filled (h : Slot step key slot holds) (hfold : ms.foldlM step s = some t) :
    (under key ms = [] ∧ slot t = slot s) ∨
      ∃ v, under key ms = [(key, v)] ∧ slot s = none ∧ ∃ a, holds v = some a ∧ slot t = some a := by
  induction ms generalizing s with
  | nil =>
    obtain rfl := Option.some.inj hfold
    exact .inl ⟨rfl, rfl⟩
  | cons m ms ih =>
    rw [List.foldlM_cons] at hfold
    obtain ⟨u, hu, hrest⟩ := Option.bind_eq_some_iff.1 hfold
    by_cases hm : m.1 = key
    · obtain ⟨k, v⟩ := m
      obtain rfl : k = key := hm
      obtain ⟨hs, a, ha, hua⟩ := h.own s v u hu
      obtain ⟨hnone, ht⟩ | ⟨w, -, hnone, -⟩ := ih hrest
      · exact .inr ⟨v, by simpa [under] using hnone, hs, a, ha, ht.trans hua⟩
      · rw [hua] at hnone
        cases hnone
    · have hunder : under key (m :: ms) = under key ms :=
        List.filter_cons_of_neg (by simpa using hm)
      rw [hunder, ← h.other s m u hm hu]
      exact ih hrest

theorem Slot.refuses (h : Slot step key slot holds) (htwice : 1 < (under key ms).length) :
    ms.foldlM step s = none := by
  cases hfold : ms.foldlM step s with
  | none => rfl
  | some t =>
    obtain ⟨hnone, -⟩ | ⟨v, hone, -⟩ := h.filled hfold
    · rw [hnone] at htwice
      cases htwice
    · rw [hone] at htwice
      cases htwice with
      | step h => cases h

theorem Slot.refuses_value (h : Slot step key slot holds) {m : String × List Char} (hm : m ∈ ms)
    (hk : m.1 = key) (hnone : holds m.2 = none) : ms.foldlM step s = none := by
  have hmem : m ∈ under key ms := List.mem_filter.2 ⟨hm, by simpa using hk⟩
  cases hfold : ms.foldlM step s with
  | none => rfl
  | some t =>
    obtain ⟨hno, -⟩ | ⟨v, hone, -, a, ha, -⟩ := h.filled hfold
    · rw [hno] at hmem
      cases hmem
    · rw [hone] at hmem
      obtain rfl := List.mem_singleton.1 hmem
      rw [hnone] at ha
      cases ha

/-- A state can take a member whose slot is empty, and that leaves the other slots as they are. -/
def Admits (step : σ → String × List Char → Option σ) (known : List String)
    (free : σ → String → Prop) (m : String × List Char) : Prop :=
  ∀ s, free s m.1 → ∃ t, step s m = some t ∧ ∀ k, k ≠ m.1 ∨ k ∉ known → free s k → free t k

theorem foldlM_takes {free : σ → String → Prop} (hms : ∀ m ∈ ms, Admits step known free m)
    (hone : ∀ k ∈ known, (under k ms).length ≤ 1) (hfree : ∀ m ∈ ms, free s m.1) :
    ∃ t, ms.foldlM step s = some t := by
  induction ms generalizing s with
  | nil => exact ⟨s, rfl⟩
  | cons m ms ih =>
    obtain ⟨hm, hms⟩ := List.forall_mem_cons.1 hms
    obtain ⟨hfm, hfree⟩ := List.forall_mem_cons.1 hfree
    obtain ⟨u, hu, hkeep⟩ := hm s hfm
    have hlen (k : String) : (under k ms).length ≤ (under k (m :: ms)).length :=
      ((List.sublist_cons_self m ms).filter _).length_le
    obtain ⟨t, ht⟩ := ih hms (fun k hk => Nat.le_trans (hlen k) (hone k hk)) fun n hn => by
      refine hkeep n.1 ?_ (hfree n hn)
      -- Of a known name there is no second member behind the first.
      by_contra hboth
      push Not at hboth
      obtain ⟨hname, hknown⟩ := hboth
      have htwo := hone n.1 hknown
      have hn : n ∈ under n.1 ms := List.mem_filter.2 ⟨hn, by simp⟩
      have hpos := List.length_pos_of_mem hn
      have hcons : under n.1 (m :: ms) = m :: under n.1 ms :=
        List.filter_cons_of_pos (by simp [hname])
      rw [hcons, List.length_cons] at htwo
      omega
    exact ⟨t, by rw [List.foldlM_cons, hu]; exact ht⟩

def Holds (ms : List (String × List Char)) (key : String) (writes : List Char → Prop) : Prop :=
  ∃ v, under key ms = [(key, v)] ∧ writes v

def HoldsOptional (ms : List (String × List Char)) (key : String)
    (writes : α → List Char → Prop) : Option α → Prop
  | none => under key ms = [] ∨ Holds ms key fun v => v = ['n', 'u', 'l', 'l']
  | some a => Holds ms key (writes a)

def Repeated (known : List String) (ms : List (String × List Char)) : Prop :=
  ∃ k ∈ known, 1 < (under k ms).length

theorem Slot.eq_some {writes : List Char → Prop} {a : α} (h : Slot step key slot holds)
    (hfold : ms.foldlM step s = some t) (hms : Holds ms key writes)
    (hw : ∀ v, writes v → holds v = some a) : slot t = some a := by
  obtain ⟨v, hone, hv⟩ := hms
  obtain ⟨hnone, -⟩ | ⟨w, hw', -, b, hb, ht⟩ := h.filled hfold
  · rw [hone] at hnone
    cases hnone
  · obtain rfl : v = w := by
      rw [hone] at hw'
      simpa using hw'
    rw [ht, ← hb, hw v hv]

theorem Slot.join_eq {slot : σ → Option (Option α)} {holds : List Char → Option (Option α)}
    {writes : α → List Char → Prop} {o : Option α} (h : Slot step key slot holds)
    (hfold : ms.foldlM step s = some t) (hs : slot s = none) (hms : HoldsOptional ms key writes o)
    (hnull : holds ['n', 'u', 'l', 'l'] = some none)
    (hw : ∀ a v, writes a v → holds v = some (some a)) : (slot t).join = o := by
  cases o with
  | some a => rw [h.eq_some hfold hms (hw a), Option.join_some]
  | none =>
    obtain hnone | hms := hms
    · obtain ⟨-, ht⟩ | ⟨v, hone, -⟩ := h.filled hfold
      · rw [ht, hs]
        rfl
      · rw [hone] at hnone
        cases hnone
    · rw [h.eq_some hfold hms (fun v hv => hv ▸ hnull), Option.join_some]

variable {m : String × List Char} {writes : List Char → Prop}

theorem Holds.length_le (h : Holds ms key writes) : (under key ms).length ≤ 1 := by
  obtain ⟨v, hone, -⟩ := h
  rw [hone]
  exact Nat.le_refl 1

theorem Holds.of_mem (h : Holds ms key writes) (hm : m ∈ ms) (hk : m.1 = key) : writes m.2 := by
  obtain ⟨v, hone, hv⟩ := h
  have hmem : m ∈ under key ms := List.mem_filter.2 ⟨hm, by simpa using hk⟩
  rw [hone] at hmem
  obtain rfl := List.mem_singleton.1 hmem
  exact hv

theorem HoldsOptional.length_le {writes : α → List Char → Prop}
    (h : HoldsOptional ms key writes o) : (under key ms).length ≤ 1 := by
  cases o with
  | some a => exact Holds.length_le h
  | none =>
    obtain h | h := h
    · simp [h]
    · exact h.length_le

theorem HoldsOptional.of_mem {writes : α → List Char → Prop} (h : HoldsOptional ms key writes o)
    (hm : m ∈ ms) (hk : m.1 = key) : m.2 = ['n', 'u', 'l', 'l'] ∨ ∃ a, writes a m.2 := by
  cases o with
  | some a => exact .inr ⟨a, Holds.of_mem h hm hk⟩
  | none =>
    obtain h | h := h
    · have hmem : m ∈ under key ms := List.mem_filter.2 ⟨hm, by simpa using hk⟩
      rw [h] at hmem
      cases hmem
    · exact .inl (h.of_mem hm hk)

theorem fill_takes {a : α} (h : outcome r v = some a) (put : α → σ) :
    fill none r v put = some (put a) := by
  rw [fill, h]
  rfl

theorem Quotes.wellformed {s : String} (h : Quotes s v) : Wellformed v := by
  obtain ⟨raw, hraw, rfl⟩ := h
  exact .string hraw.literal

theorem ArrayOf.wellformed {writes : α → List Char → Prop} {xs : List α} (h : ArrayOf writes xs v)
    (hw : ∀ a v, writes a v → Wellformed v) : Wellformed v := by
  obtain ⟨ts, hts, hv⟩ := h
  refine .array (fun t ht => ?_) hv
  obtain ⟨a, -, ha⟩ := forall₂_mem_right hts ht
  exact hw a t ha

theorem Object.wellformed (h : Object ms v) (hms : ∀ m ∈ ms, Wellformed m.2) : Wellformed v := by
  obtain ⟨ts, hts, hv⟩ := h
  obtain ⟨ns, hns⟩ : ∃ ns : List (List Char × List Char),
      List.Forall₂ (fun t n => Literal n.1 ∧ Wellformed n.2 ∧ MemberText n.1 n.2 t) ts ns := by
    refine exists_forall₂ fun t ht => ?_
    obtain ⟨m, hm, raw, hraw, hmt⟩ := forall₂_mem_right hts ht
    exact ⟨(raw, m.2), hraw.literal, hms m hm, hmt⟩
  have hn : ∀ n ∈ ns, Literal n.1 ∧ Wellformed n.2 := fun n hmem => by
    obtain ⟨t, -, hl, hw, -⟩ := forall₂_mem_right hns hmem
    exact ⟨hl, hw⟩
  exact .object (fun n hm => (hn n hm).1) (fun n hm => (hn n hm).2)
    (hns.imp fun _ _ h => h.2.2).flip hv

theorem ArrayOf.reads {writes : α → List Char → Prop} {xs : List α} (h : ArrayOf writes xs v)
    (hw : ∀ a v, writes a v → Reads r v (some a)) (hwf : ∀ a v, writes a v → Wellformed v) :
    Reads (list r) v (some xs) := by
  obtain ⟨ts, hts, hv⟩ := h
  have hreads : List.Forall₂ (Reads r) ts (xs.map some) := by
    rw [List.forall₂_map_right_iff]
    exact (hts.imp fun a t ht => hw a t ht).flip
  have hall : (xs.map some).mapM id = some xs := by
    rw [List.mapM_map]
    simpa using List.mapM_pure (m := Option) (l := xs) (f := id)
  rw [← hall]
  refine reads_list hreads (fun t ht => ?_) hv
  obtain ⟨a, -, ha⟩ := forall₂_mem_right hts ht
  exact (hwf a t ha).starts

end HotSwap.Json
