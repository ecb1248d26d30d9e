import HotSwap.Proofs.Json.Skipping
/-!
# Arrays and objects of a known shape

A list is read if each of its items is, and a record by what its members make of its slots one after
the other. On a value of another shape the readers report a fault, so they settle on every value.
-/

namespace HotSwap.Json

open Reader

variable {α β σ μ : Type} {b v w rest raw cs : List Char} {ts : List (List Char)} {o : Option α}
  {r item : Reader α} {c : Char} {first : Bool} {n : Nat}

theorem Wellformed.by_head (h : Wellformed (c :: cs)) :
    (c = 'n' → cs = ['u', 'l', 'l']) ∧
    (c = '"' → ∃ raw, Literal raw ∧ c :: cs = inQuotes raw) ∧
    (c = '[' → ∃ ts, (∀ t ∈ ts, Wellformed t) ∧ Listing ']' true ts cs) ∧
    (c = '{' → ∃ (ms : List (List Char × List Char)) (ts : List (List Char)),
      (∀ m ∈ ms, Literal m.1) ∧ (∀ m ∈ ms, Wellformed m.2) ∧
      List.Forall₂ (fun m t => MemberText m.1 m.2 t) ms ts ∧ Listing '}' true ts cs) := by
  generalize hv : c :: cs = v at h
  cases h with
  | null | yes | no | negative =>
    obtain ⟨rfl, rfl⟩ := List.cons.inj hv
    simp
  | @string raw h =>
    obtain ⟨rfl, rfl⟩ := List.cons.inj hv
    exact ⟨by simp, fun _ => ⟨raw, h, rfl⟩, by simp, by simp⟩
  | number h =>
    subst hv
    obtain ⟨d, ds, hd, hdigit⟩ := h.head
    obtain rfl := (List.cons.inj hd).1
    refine ⟨?_, ?_, ?_, ?_⟩ <;> (rintro rfl; exact absurd hdigit (by decide))
  | array h hcs =>
    obtain ⟨ds, hds, rfl⟩ := hcs
    obtain ⟨rfl, rfl⟩ := List.cons.inj hv
    exact ⟨by simp, by simp, fun _ => ⟨_, h, hds⟩, by simp⟩
  | object hk h ht hcs =>
    obtain ⟨ds, hds, rfl⟩ := hcs
    obtain ⟨rfl, rfl⟩ := List.cons.inj hv
    exact ⟨by simp, by simp, by simp, fun _ => ⟨_, _, hk, h, ht, hds⟩⟩

theorem moreItems_nil (h : Listing ']' first [] cs) (rest : List Char) :
    moreItems first (cs ++ rest) = .ok (false, ']' :: rest) := by
  obtain ⟨hb⟩ := h
  rw [List.append_assoc, moreItems, List.singleton_append, peek_blanks hb rfl]
  rfl

theorem moreItems_cons {t : List Char} (h : Listing ']' first (t :: ts) cs) (ht : Starts ']' t) :
    ∃ ds, Listing ']' false ts ds ∧ t.length + ds.length ≤ cs.length ∧
      ∀ rest, moreItems first (cs ++ rest) = .ok (true, t ++ (ds ++ rest)) := by
  obtain ⟨c, t, rfl, hc, hne⟩ := ht
  cases h with
  | first hb h =>
    refine ⟨_, h, by simp only [List.length_append]; omega, fun rest => ?_⟩
    rw [List.append_assoc, List.append_assoc, moreItems, List.cons_append, peek_blanks hb hc]
    simp only [hne, if_false, if_true]
    rfl
  | later hb hb' h =>
    refine ⟨_, h, by simp only [List.length_append, List.length_cons]; omega, fun rest => ?_⟩
    have hcomma : (',' : Char) ≠ ']' := by decide
    rw [List.append_assoc, List.cons_append, moreItems, peek_blanks hb rfl]
    simp only [hcomma, Bool.false_eq_true, if_false, if_true]
    rw [advance_bind, List.append_assoc, List.append_assoc, List.cons_append, peek_blanks hb' hc]
    simp only [hne, if_false]
    rfl

theorem leaves_items {os : List (Option α)} (h : List.Forall₂ (Reads item) ts os)
    (hs : ∀ t ∈ ts, Starts ']' t) (hcs : Listing ']' first ts cs) (hn : cs.length < n)
    (rest : List Char) : Leaves (']' :: rest) (os.mapM id) (items item n first (cs ++ rest)) := by
  induction h generalizing first cs n with
  | nil =>
    obtain ⟨n, rfl⟩ : ∃ k, n = k + 1 := ⟨n - 1, by omega⟩
    rw [items, bind_of_ok (moreItems_nil hcs rest)]
    rfl
  | @cons t o ts os ht h ih =>
    obtain ⟨n, rfl⟩ : ∃ k, n = k + 1 := ⟨n - 1, by omega⟩
    obtain ⟨hst, hs⟩ := List.forall_mem_cons.1 hs
    obtain ⟨ds, hds, hlen, hmore⟩ := moreItems_cons hcs hst
    have hpos : 0 < t.length := by
      obtain ⟨c, t, rfl, -⟩ := hst
      exact Nat.succ_pos _
    have hitem := ht [] (ds ++ rest) .nil (hds.ends (by decide) rest)
    rw [items, bind_of_ok (hmore rest), List.mapM_cons]
    have hrest := ih hs hds (n := n) (by omega)
    exact hitem.bind fun a _ => hrest.bind fun _ _ => rfl

theorem reads_list {os : List (Option α)} (h : List.Forall₂ (Reads item) ts os)
    (hs : ∀ t ∈ ts, Starts ']' t) (hv : InBrackets ts v) : Reads (list item) v (os.mapM id) := by
  obtain ⟨cs, hcs, rfl⟩ := hv
  refine reads_peek rfl fun rest _ => ?_
  have hitems := leaves_items h hs hcs (n := (cs ++ rest).length + 1)
    (by simp only [List.length_append]; omega) rest
  simp only [if_true]
  rw [advance_bind, ← Option.bind_fun_some (os.mapM id)]
  exact Leaves.bind (r := fuelled fun n => items item n true) hitems fun _ _ => rfl

theorem settles_otherwise (mark : Char) {expected : String} {k : Option Char → Reader α}
    (hv : Wellformed v) (hk : ∀ c, c ≠ mark → k (some c) = wrongKind expected)
    (h : ∀ cs, v = mark :: cs → Settles (peek >>= k) v) : Settles (peek >>= k) v := by
  obtain ⟨c, cs, rfl, hc, -⟩ := hv.starts
  by_cases hm : c = mark
  · exact h cs (by rw [hm])
  · refine ⟨none, reads_peek hc fun rest _ => ?_⟩
    rw [hk c hm]
    exact wrongKind_fails expected _

theorem mapM_id_eq_none {os : List (Option α)} (h : none ∈ os) : os.mapM id = none := by
  induction os with
  | nil => cases h
  | cons o os ih =>
    rw [List.mapM_cons]
    cases o with
    | none => rfl
    | some a => rw [ih ((List.mem_cons.1 h).resolve_left nofun)]; rfl

theorem exists_forall₂ {R : α → β → Prop} {xs : List α} (h : ∀ x ∈ xs, ∃ y, R x y) :
    ∃ ys, List.Forall₂ R xs ys := by
  induction xs with
  | nil => exact ⟨[], .nil⟩
  | cons x xs ih =>
    obtain ⟨⟨y, hy⟩, hxs⟩ := List.forall_mem_cons.1 h
    obtain ⟨ys, hys⟩ := ih hxs
    exact ⟨y :: ys, .cons hy hys⟩

theorem list_settles (hitem : ∀ t, Wellformed t → Settles item t) (hv : Wellformed v) :
    Settles (list item) v := by
  refine settles_otherwise '[' hv (fun c hc => if_neg hc) ?_
  rintro cs rfl
  obtain ⟨ts, hts, hcs⟩ := hv.by_head.2.2.1 rfl
  obtain ⟨os, hos⟩ := exists_forall₂ fun t ht => hitem t (hts t ht)
  exact ⟨_, reads_list hos (fun t ht => (hts t ht).starts) ⟨cs, hcs, rfl⟩⟩

theorem stringAs_settles (expected : String) (hv : Wellformed v) :
    Settles (stringAs expected) v := by
  refine settles_otherwise '"' hv (fun c hc => if_neg hc) ?_
  rintro cs rfl
  obtain ⟨raw, hraw, h⟩ := hv.by_head.2.1 rfl
  rw [h]
  exact literal_settles hraw expected

theorem reads_option_null : Reads (Reader.option r) ['n', 'u', 'l', 'l'] (some none) :=
  reads_peek rfl fun _ _ => rfl

theorem reads_option (h : Reads r (c :: cs) o) (hc : isBlank c = false) (hne : c ≠ 'n') :
    Reads (Reader.option r) (c :: cs) (o.map some) := by
  refine reads_peek hc fun rest hrest => ?_
  simp only [hne, if_false]
  exact (h [] rest .nil hrest).map some

theorem option_settles (hv : Wellformed v) (h : Settles r v) : Settles (Reader.option r) v := by
  obtain ⟨o, ho⟩ := h
  obtain ⟨c, cs, rfl, hc, -⟩ := hv.starts
  by_cases hnull : c = 'n'
  · subst hnull
    obtain rfl := hv.by_head.1 rfl
    exact ⟨_, reads_option_null⟩
  · exact ⟨_, reads_option ho hc hnull⟩

theorem moreMembers_nil (h : Listing '}' first [] cs) (rest : List Char) :
    moreMembers first (cs ++ rest) = .ok (false, '}' :: rest) := by
  obtain ⟨hb⟩ := h
  rw [List.append_assoc, moreMembers, List.singleton_append, peek_blanks hb rfl]
  rfl

theorem moreMembers_cons {t : List Char} (h : Listing '}' first (('"' :: t) :: ts) cs) :
    ∃ ds, Listing '}' false ts ds ∧ t.length + ds.length < cs.length ∧
      ∀ rest, moreMembers first (cs ++ rest) = .ok (true, '"' :: t ++ (ds ++ rest)) := by
  cases h with
  | first hb h =>
    refine ⟨_, h, by simp only [List.length_append, List.length_cons]; omega, fun rest => ?_⟩
    rw [List.append_assoc, List.append_assoc, moreMembers, List.cons_append, peek_blanks hb rfl]
    rfl
  | later hb hb' h =>
    refine ⟨_, h, by simp only [List.length_append, List.length_cons]; omega, fun rest => ?_⟩
    have hcomma : (',' : Char) ≠ '}' := by decide
    rw [List.append_assoc, List.cons_append, moreMembers, peek_blanks hb rfl]
    simp only [hcomma, Bool.false_eq_true, if_false, if_true]
    rw [advance_bind, List.append_assoc, List.append_assoc, List.cons_append, peek_blanks hb' rfl]
    rfl

theorem MemberText.eq_cons {t : List Char} (h : MemberText raw v t) : ∃ ds, t = '"' :: ds := by
  obtain ⟨-, -⟩ := h
  exact ⟨_, rfl⟩

theorem leaves_members {member : σ → Reader σ} {step : σ → μ → Option σ} {ms : List μ}
    (h : List.Forall₂ (fun m t => (∃ ds, t = '"' :: ds) ∧ ∀ s, Reads (member s) t (step s m)) ms ts)
    (hcs : Listing '}' first ts cs) (hn : cs.length < n) (s : σ) (rest : List Char) :
    Leaves ('}' :: rest) (ms.foldlM step s) (members member n first s (cs ++ rest)) := by
  induction h generalizing first cs n s with
  | nil =>
    obtain ⟨n, rfl⟩ : ∃ k, n = k + 1 := ⟨n - 1, by omega⟩
    rw [members, bind_of_ok (moreMembers_nil hcs rest)]
    rfl
  | @cons m t ms ts ht h ih =>
    obtain ⟨n, rfl⟩ : ∃ k, n = k + 1 := ⟨n - 1, by omega⟩
    obtain ⟨⟨t, rfl⟩, ht⟩ := ht
    obtain ⟨ds, hds, hlen, hmore⟩ := moreMembers_cons hcs
    have hmember := ht s [] (ds ++ rest) .nil (hds.ends (by decide) rest)
    rw [members, bind_of_ok (hmore rest), List.foldlM_cons]
    exact hmember.bind fun u _ => ih hds (by omega) u

theorem reads_member {key : String} {t : List Char} {read : String → Reader α}
    (hraw : Spelled key.toList raw) (ht : MemberText raw v t)
    (h : ∀ b, Blanks b → Reads (read key) (':' :: (b ++ v)) o) :
    Reads (Reader.string >>= read) t o := by
  obtain ⟨hb, hb'⟩ := ht
  have hkey : Reads Reader.string (inQuotes raw) (some key) := reads_quotes ⟨raw, hraw, rfl⟩
  have hread := hkey.bind (f := read) (p := fun _ => o) hb (w := ':' :: (_ ++ v))
    (fun rest => ends_cons (by decide) _) fun k hk => by
      obtain rfl := Option.some.inj hk
      exact h _ hb'
  simpa [inQuotes] using hread

variable {name : String} {start : σ} {member : String → σ → Reader σ} {finish : σ → Reader α}
  {positional : Reader α} {fin : σ → Option α}

theorem leaves_fields (loop : σ → Reader σ) (step : σ → μ → Option σ) {ms : List μ}
    (h : List.Forall₂ (fun m t => (∃ ds, t = '"' :: ds) ∧ ∀ s, Reads (loop s) t (step s m)) ms ts)
    (hcs : Listing '}' true ts cs) (hfin : ∀ s rest, Leaves rest (fin s) (finish s rest))
    (rest : List Char) :
    Leaves rest ((ms.foldlM step start).bind fin)
      ((do
        let s ← fuelled fun n => members loop n true start
        let a ← finish s
        closeObject
        return a : Reader α) (cs ++ rest)) := by
  have hms := leaves_members h hcs (n := (cs ++ rest).length + 1)
    (by simp only [List.length_append]; omega) start rest
  refine Leaves.bind (r := fuelled fun n => members loop n true start) hms fun s _ => ?_
  rw [← Option.bind_fun_some (fin s)]
  exact (hfin s _).bind fun _ _ => rfl

theorem reads_record {step : σ → String × List Char → Option σ} {ms : List (String × List Char)}
    (h : ∀ m ∈ ms, ∀ s b, Blanks b → Reads (member m.1 s) (':' :: (b ++ m.2)) (step s m))
    (hfin : ∀ s rest, Leaves rest (fin s) (finish s rest)) (hv : Object ms v) :
    Reads (record name start member finish positional) v ((ms.foldlM step start).bind fin) := by
  obtain ⟨ts, hts, cs, hcs, rfl⟩ := hv
  refine reads_peek rfl fun rest _ => ?_
  refine leaves_fields (fun s => Reader.string >>= fun key => member key s) step ?_ hcs hfin rest
  clear hcs
  induction hts with
  | nil => exact .nil
  | @cons m t ms ts hmt _ ih =>
    obtain ⟨raw, hraw, ht⟩ := hmt
    obtain ⟨hm, hms⟩ := List.forall_mem_cons.1 h
    exact .cons ⟨ht.eq_cons, fun s => reads_member hraw ht fun b hb => hm s b hb⟩ (ih hms)

/-- Somewhere in an array the reader takes some of the items and leaves the others, or it reports a
fault, and that whatever comes after the array. -/
def Definite (first : Bool) (r : Reader α) : Prop :=
  ∀ ts cs, (∀ t ∈ ts, Wellformed t) → Listing ']' first ts cs →
    (∀ rest, ∃ f, r (cs ++ rest) = .error f) ∨
      ∃ a us ds, (∀ t ∈ us, Wellformed t) ∧ Listing ']' false us ds ∧
        ∀ rest, r (cs ++ rest) = .ok (a, ds ++ rest)

theorem Definite.pure (a : α) : Definite false (pure a) :=
  fun ts cs hts hcs => .inr ⟨a, ts, cs, hts, hcs, fun _ => rfl⟩

theorem bind_of_error {f : α → Reader β} {e : Fault} (h : r cs = .error e) :
    (r >>= f) cs = .error e := by
  change (r cs >>= fun q => f q.1 q.2) = _
  rw [h]
  rfl

theorem Definite.bind {f : α → Reader β} (h : Definite first r) (h' : ∀ a, Definite false (f a)) :
    Definite first (r >>= f) := by
  intro ts cs hts hcs
  obtain h | ⟨a, us, ds, hus, hds, h⟩ := h ts cs hts hcs
  · refine .inl fun rest => ?_
    obtain ⟨e, he⟩ := h rest
    exact ⟨e, bind_of_error he⟩
  · simp only [bind_of_ok (h _)]
    exact h' a us ds hus hds

theorem definite_item {absent : Reader α} (hr : ∀ t, Wellformed t → Settles r t)
    (habsent : (∃ a, absent = Pure.pure a) ∨ ∃ m, absent = mismatch m) :
    Definite first (Reader.item first r absent) := by
  intro ts cs hts hcs
  cases ts with
  | nil =>
    simp only [Reader.item, bind_of_ok (moreItems_nil hcs _)]
    obtain ⟨a, rfl⟩ | ⟨m, rfl⟩ := habsent
    · exact .inr ⟨a, [], [']'], hts, .nil (b := []) .nil, fun _ => rfl⟩
    · exact .inl fun _ => ⟨_, rfl⟩
  | cons t ts =>
    obtain ⟨ht, hts⟩ := List.forall_mem_cons.1 hts
    obtain ⟨ds, hds, -, hmore⟩ := moreItems_cons hcs ht.starts
    obtain ⟨o, ho⟩ := hr t ht
    have hread (rest : List Char) := ho [] (ds ++ rest) .nil (hds.ends (by decide) rest)
    simp only [Reader.item, bind_of_ok (hmore _)]
    cases o with
    | none => exact .inl hread
    | some a => exact .inr ⟨a, ts, ds, hts, hds, hread⟩

theorem Definite.closed {f : α → β} (h : Definite true r) (hts : ∀ t ∈ ts, Wellformed t)
    (hcs : Listing ']' true ts cs) :
    ∃ o, ∀ rest, Leaves rest o ((do
      let a ← r
      closeArray
      return f a : Reader β) (cs ++ rest)) := by
  obtain h | ⟨a, us, ds, -, hds, h⟩ := h ts cs hts hcs
  · refine ⟨none, fun rest => ?_⟩
    obtain ⟨e, he⟩ := h rest
    exact ⟨e, bind_of_error he⟩
  · cases hds with
    | nil hb =>
      refine ⟨some (f a), fun rest => ?_⟩
      rw [bind_of_ok (h rest), List.append_assoc, List.singleton_append, closeArray, bind_assoc,
        peek_blanks hb rfl]
      rfl
    | later hb =>
      refine ⟨none, fun rest => ⟨.malformed, ?_⟩⟩
      rw [bind_of_ok (h rest), List.append_assoc, List.cons_append, closeArray, bind_assoc,
        peek_blanks hb rfl]
      rfl

theorem member_settles {t : List Char} (read : String → Reader α) (hraw : Literal raw)
    (ht : MemberText raw v t)
    (h : ∀ key, ∃ o, ∀ b, Blanks b → Reads (read key) (':' :: (b ++ v)) o) :
    Settles (Reader.string >>= read) t := by
  obtain ⟨hb, hb'⟩ := ht
  obtain ⟨k, hk⟩ : Settles Reader.string (inQuotes raw) := literal_settles hraw "a string"
  choose o ho using h
  have hread := hk.bind (f := read) (p := o) hb (w := ':' :: (_ ++ v))
    (fun rest => ends_cons (by decide) _) fun key _ => ho key _ hb'
  exact ⟨k.bind o, by simpa [inQuotes] using hread⟩

theorem record_settles (hv : Wellformed v)
    (hmember : ∀ key v s, Wellformed v →
      ∃ o, ∀ b, Blanks b → Reads (member key s) (':' :: (b ++ v)) o)
    (hfin : ∀ s rest, Leaves rest (fin s) (finish s rest)) (hpos : Definite true positional) :
    Settles (record name start member finish positional) v := by
  obtain ⟨c, cs, rfl, hc, -⟩ := hv.starts
  by_cases harr : c = '['
  · subst harr
    obtain ⟨ts, hts, hcs⟩ := hv.by_head.2.2.1 rfl
    obtain ⟨o, ho⟩ := hpos.closed (f := id) hts hcs
    exact ⟨o, reads_peek rfl fun rest _ => ho rest⟩
  by_cases hobj : c = '{'
  · subst hobj
    obtain ⟨ms, ts, hk, hms, hts, hcs⟩ := hv.by_head.2.2.2 rfl
    have hsteps : ∀ t ∈ ts, ∃ step : σ → Option σ, (∃ ds, t = '"' :: ds) ∧
        ∀ s, Reads (Reader.string >>= fun key => member key s) t (step s) := by
      intro t ht
      obtain ⟨m, hm, hmt⟩ := forall₂_mem_right hts ht
      have hstep (s : σ) := member_settles (fun key => member key s) (hk m hm) hmt
        fun key => hmember key m.2 s (hms m hm)
      choose step hstep using hstep
      exact ⟨step, hmt.eq_cons, hstep⟩
    obtain ⟨steps, hsteps⟩ := exists_forall₂ hsteps
    let apply (s : σ) (step : σ → Option σ) : Option σ := step s
    refine ⟨(steps.foldlM apply start).bind fin, reads_peek rfl fun rest _ => ?_⟩
    exact leaves_fields _ apply hsteps.flip hcs hfin rest
  · refine ⟨none, reads_peek hc fun rest _ => ?_⟩
    simp only [harr, hobj, if_false]
    exact wrongKind_fails _ _

end HotSwap.Json
