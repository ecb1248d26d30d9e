import HotSwap.Proofs.Json.Reading
/-!
# Values passed over

A value of any shape is passed over as a whole. The fuel is counted against the length of the text:
three turns at most go by without a character.
-/

namespace HotSwap.Json

open Reader

variable {b v rest raw cs ds : List Char} {ts : List (List Char)} {c : Char} {first : Bool}
  {fuel : Nat}

theorem skipScan_code {n : Nat} (hn : Code n cs) (high : Option Nat) (rest : List Char) :
    skipScan (.hex high 0 0) (cs ++ rest) = skipScan .plain rest := by
  obtain ⟨ha, hb, hc, hd⟩ := hn
  simp [skipScan, hexValue?_of_mem ha, hexValue?_of_mem hb, hexValue?_of_mem hc,
    hexValue?_of_mem hd]

theorem skipScan_literal (h : Literal raw) (rest : List Char) :
    skipScan .plain (raw ++ '"' :: rest) = .ok ((), rest) := by
  induction h with
  | nil => simp [skipScan]
  | plain hc _ ih => simp [skipScan, hc.2.1, hc.2.2, Nat.not_lt.2 hc.1, ih]
  | named hc _ ih => simp [skipScan, escapedBy?_of_mem hc, ih]
  | code hn _ ih => simp [skipScan, escapedBy?_u, skipScan_code hn, ih]

def Undigited (rest : List Char) : Prop := ∀ c ∈ rest.head?, isDigit c = false

theorem Ends.undigited (h : Ends rest) : Undigited rest := by
  intro c hc
  have hall : [' ', '\n', '\t', '\r', ',', ':', ']', '}'].all (!isDigit ·) = true := by decide
  simpa using List.all_eq_true.1 hall c (h c hc)

theorem isDigit_of_mem (h : Digits ds) (hc : c ∈ ds) : isDigit c = true := by
  simpa [isDigit] using h.2 c hc

theorem dropDigits_append (hds : ∀ c ∈ ds, isDigit c = true) (hrest : Undigited rest) :
    dropDigits (ds ++ rest) = rest := by
  rw [dropDigits, List.dropWhile_append_of_pos hds]
  cases rest with
  | nil => rfl
  | cons c rest => exact List.dropWhile_cons_of_neg (by simp [hrest c rfl])

theorem skipDigits_append (h : Digits ds) (hrest : Undigited rest) :
    skipDigits (ds ++ rest) = .ok ((), rest) := by
  obtain _ | ⟨d, ds⟩ := ds
  · exact absurd rfl h.1
  · have hd := isDigit_of_mem h List.mem_cons_self
    rw [List.cons_append, skipDigits, if_pos hd,
      dropDigits_append (fun c hc => isDigit_of_mem h (List.mem_cons_of_mem d hc)) hrest]

theorem isDigit_ne {s : Char} (hc : isDigit c = true) (hs : isDigit s = false) : c ≠ s := by
  rintro rfl
  exact absurd hc (by simp [hs])

theorem skipExponent_digits (h : Digits ds) (hrest : Undigited rest) :
    skipExponent (ds ++ rest) = .ok ((), rest) := by
  rw [← skipDigits_append h hrest]
  obtain _ | ⟨d, ds⟩ := ds
  · exact absurd rfl h.1
  · have hd := isDigit_of_mem h List.mem_cons_self
    have hplus : d ≠ '+' := isDigit_ne hd (by decide)
    have hminus : d ≠ '-' := isDigit_ne hd (by decide)
    rw [List.cons_append]
    unfold skipExponent
    split <;> simp_all

theorem skipExponent_signed {s : Char} (hs : s ∈ ['+', '-']) (h : Digits ds)
    (hrest : Undigited rest) : skipExponent (s :: (ds ++ rest)) = .ok ((), rest) := by
  simp only [List.mem_cons, List.not_mem_nil, or_false] at hs
  obtain rfl | rfl := hs <;> simp [skipExponent, skipDigits_append h hrest]

theorem Exponent.undigited {exp : List Char} (he : Exponent exp) (hrest : Undigited rest) :
    Undigited (exp ++ rest) := by
  have hall {e : Char} (h : e ∈ ['e', 'E']) : isDigit e = false := by
    obtain rfl | rfl : e = 'e' ∨ e = 'E' := by simpa using h
    all_goals rfl
  cases he with
  | none => exact hrest
  | plain he _ | signed he _ _ =>
    intro c hc
    obtain rfl := Option.some.inj hc
    exact hall he

theorem skipFraction_exponent {exp : List Char} (he : Exponent exp) (hrest : Ends rest) :
    skipFraction (exp ++ rest) = .ok ((), rest) := by
  cases he with
  | none =>
    rw [List.nil_append]
    unfold skipFraction
    split
    case h_1 => exact absurd (hrest _ rfl) (by decide)
    case h_2 => exact absurd (hrest _ rfl) (by decide)
    case h_3 => exact absurd (hrest _ rfl) (by decide)
    case h_4 => rfl
  | plain he h =>
    simp only [List.mem_cons, List.not_mem_nil, or_false] at he
    obtain rfl | rfl := he <;> exact skipExponent_digits h hrest.undigited
  | signed he hs h =>
    simp only [List.mem_cons, List.not_mem_nil, or_false] at he
    obtain rfl | rfl := he <;> exact skipExponent_signed hs h hrest.undigited

theorem skipFraction_append {frac exp : List Char} (hf : Fraction frac) (he : Exponent exp)
    (hrest : Ends rest) : skipFraction (frac ++ (exp ++ rest)) = .ok ((), rest) := by
  have hexp := skipFraction_exponent he hrest
  cases hf with
  | none => exact hexp
  | @some ds h =>
    have hhead : ∀ cs, exp ++ rest ≠ '.' :: cs := by
      intro cs hcs
      cases he with
      | none =>
        rw [List.nil_append] at hcs
        subst hcs
        exact absurd (hrest _ rfl) (by decide)
      | plain he _ | signed he _ _ =>
        obtain rfl := (List.cons.inj hcs).1
        exact absurd he (by decide)
    rw [List.cons_append, skipFraction, skipDigits_append h (he.undigited hrest.undigited)]
    clear hrest he
    generalize exp ++ rest = cs at hexp hhead
    cases cs with
    | nil => exact hexp
    | cons c cs =>
      have hdot : c ≠ '.' := fun e => hhead cs (by rw [e])
      by_cases hlower : c = 'e'
      · subst hlower
        exact hexp
      by_cases hupper : c = 'E'
      · subst hupper
        exact hexp
      simpa [bind, Except.bind, skipFraction, hdot, hlower, hupper] using hexp

theorem Fraction.undigited {frac : List Char} (hf : Fraction frac) (hrest : Undigited rest) :
    Undigited (frac ++ rest) := by
  cases hf with
  | none => exact hrest
  | some h =>
    intro c hc
    obtain rfl := Option.some.inj hc
    decide

theorem skipNumber_append (h : Numeral cs) (hrest : Ends rest) :
    skipNumber (cs ++ rest) = .ok ((), rest) := by
  obtain @⟨int, frac, exp, hi, hf, he⟩ := h
  have htail : Undigited (frac ++ (exp ++ rest)) := hf.undigited (he.undigited hrest.undigited)
  have hskip := skipFraction_append hf he hrest
  rw [List.append_assoc, List.append_assoc]
  generalize frac ++ (exp ++ rest) = tail at htail hskip
  obtain _ | ⟨d, ds⟩ := int
  · exact absurd rfl hi.1.1
  · have hd := isDigit_of_mem hi.1 List.mem_cons_self
    have hds : ∀ c ∈ ds, isDigit c = true := fun c hc =>
      isDigit_of_mem hi.1 (List.mem_cons_of_mem d hc)
    by_cases hzero : d = '0'
    · obtain rfl : ds = [] := (List.cons.inj (hi.2 (congrArg some hzero))).2
      subst hzero
      cases tail with
      | nil => exact hskip
      | cons c tail => exact (if_neg (by simp [htail c rfl])).trans hskip
    · have hnumber : skipNumber (d :: (ds ++ tail)) = skipFraction (dropDigits (ds ++ tail)) := by
        simp [skipNumber, hzero, hd]
      exact hnumber.trans ((dropDigits_append hds htail).symm ▸ hskip)

/-- With three turns for each character the reader takes `t` and leaves what follows. -/
def Passes (read : Nat → Reader Unit) (t : List Char) : Prop :=
  ∀ fuel b rest, 3 * t.length ≤ fuel → Blanks b → Ends rest →
    read fuel (b ++ (t ++ rest)) = .ok ((), rest)

def Turns (close : Char) (turn : Nat → Reader Unit) (loop : Nat → Bool → Reader Unit) : Prop :=
  ∀ n first, loop (n + 1) first = do
    match ← peek with
    | none => fail .unfinished
    | some c =>
      if c = close then advance
      else if first then turn n; loop n false
      else if c = ',' then advance; turn n; loop n false
      else fail .malformed

theorem turns_items : Turns ']' skipValue skipItems := fun _ _ => rfl

theorem turns_members : Turns '}' skipMember skipMembers := fun _ _ => rfl

variable {close : Char}

theorem isBlank_of_mem (h : close ∈ [',', ':', ']', '}']) : isBlank close = false := by
  have hall : [',', ':', ']', '}'].all (!isBlank ·) = true := by decide
  simpa using List.all_eq_true.1 hall close h

theorem Listing.ends (h : Listing close false ts cs) (hclose : close ∈ [']', '}'])
    (rest : List Char) : Ends (cs ++ rest) := by
  cases h with
  | nil hb =>
    rw [List.append_assoc]
    exact ends_blanks hb (ends_cons (List.mem_of_mem_drop (i := 2) hclose) rest)
  | later hb _ _ =>
    rw [List.append_assoc]
    exact ends_blanks hb (ends_cons (by decide) _)

theorem Listing.length_pos (h : Listing close first ts cs) (hne : first = false) :
    0 < cs.length := by
  cases h with
  | nil => simp
  | first => cases hne
  | later => simp only [List.length_append, List.length_cons]; omega

theorem passes_loop {turn : Nat → Reader Unit} {loop : Nat → Bool → Reader Unit}
    (hloop : Turns close turn loop) (hclose : close ∈ [']', '}'])
    (h : ∀ t ∈ ts, Passes turn t ∧ Starts close t) (hcs : Listing close first ts cs)
    (hfuel : 3 * cs.length ≤ fuel) (rest : List Char) :
    loop fuel first (cs ++ rest) = .ok ((), rest) := by
  have hmark : isBlank close = false := isBlank_of_mem (List.mem_of_mem_drop (i := 2) hclose)
  induction hcs generalizing fuel with
  | nil hb =>
    obtain ⟨n, rfl⟩ : ∃ n, fuel = n + 1 := ⟨fuel - 1, by simp at hfuel; omega⟩
    rw [hloop, List.append_assoc, List.singleton_append, peek_blanks hb hmark]
    simp only [if_true]
    rfl
  | @first b t cs ts hb hcs ih =>
    obtain ⟨⟨hpass, c, ds, rfl, hc, hne⟩, htail⟩ := List.forall_mem_cons.1 h
    have hpos := hcs.length_pos rfl
    simp only [List.length_append, List.length_cons] at hfuel
    obtain ⟨n, rfl⟩ : ∃ n, fuel = n + 1 := ⟨fuel - 1, by omega⟩
    have hturn := hpass n [] (cs ++ rest) (by simp only [List.length_cons]; omega) .nil
      (hcs.ends hclose rest)
    have hrest : loop n false (cs ++ rest) = .ok ((), rest) := ih htail (by omega)
    rw [hloop, List.append_assoc, List.append_assoc, List.cons_append, peek_blanks hb hc]
    simp only [hne, if_false, if_true]
    exact (bind_of_ok hturn).trans hrest
  | @later b b' t cs ts hb hb' hcs ih =>
    obtain ⟨⟨hpass, c, ds, rfl, hc, hne⟩, htail⟩ := List.forall_mem_cons.1 h
    have hpos := hcs.length_pos rfl
    simp only [List.length_append, List.length_cons] at hfuel
    obtain ⟨n, rfl⟩ : ∃ n, fuel = n + 1 := ⟨fuel - 1, by omega⟩
    have hturn := hpass n b' (cs ++ rest) (by simp only [List.length_cons]; omega) hb'
      (hcs.ends hclose rest)
    have hrest : loop n false (cs ++ rest) = .ok ((), rest) := ih htail (by omega)
    have hcomma : ',' ≠ close := by
      rintro rfl
      exact absurd hclose (by decide)
    rw [hloop, List.append_assoc, List.cons_append, peek_blanks hb rfl]
    simp only [hcomma, Bool.false_eq_true, if_false, if_true, List.append_assoc]
    rw [advance_bind, bind_of_ok hturn]
    exact hrest

theorem Numeral.head (h : Numeral cs) : ∃ c ds, cs = c :: ds ∧ isDigit c = true := by
  obtain @⟨int, frac, exp, hi, -, -⟩ := h
  obtain _ | ⟨d, ds⟩ := int
  · exact absurd rfl hi.1.1
  · exact ⟨d, _, rfl, isDigit_of_mem hi.1 List.mem_cons_self⟩

theorem isBlank_of_isDigit (hc : isDigit c = true) : isBlank c = false := by
  have hne (s : Char) (hs : isDigit s = false) : (c == s) = false :=
    beq_eq_false_iff_ne.2 (isDigit_ne hc hs)
  rw [isBlank, hne ' ' (by decide), hne '\n' (by decide), hne '\t' (by decide),
    hne '\r' (by decide)]
  rfl

theorem Wellformed.head (h : Wellformed v) :
    ∃ c ds, v = c :: ds ∧ (c ∈ ['n', 't', 'f', '"', '-', '[', '{'] ∨ isDigit c = true) := by
  cases h with
  | null | yes | no | string | negative => exact ⟨_, _, rfl, .inl (by decide)⟩
  | number h =>
    obtain ⟨c, ds, rfl, hc⟩ := h.head
    exact ⟨c, ds, rfl, .inr hc⟩
  | array _ hcs | object _ _ _ hcs =>
    obtain ⟨ds, -, rfl⟩ := hcs
    exact ⟨_, _, rfl, .inl (by decide)⟩

theorem Wellformed.starts (h : Wellformed v) : Starts ']' v := by
  obtain ⟨c, ds, rfl, hc⟩ := h.head
  refine ⟨c, ds, rfl, ?_, ?_⟩
  · obtain hc | hc := hc
    · have hall : ['n', 't', 'f', '"', '-', '[', '{'].all (!isBlank ·) = true := by decide
      simpa using List.all_eq_true.1 hall c hc
    · exact isBlank_of_isDigit hc
  · rintro rfl
    exact absurd hc (by decide)

theorem MemberText.starts {raw v t : List Char} (h : MemberText raw v t) : Starts '}' t := by
  obtain ⟨hb, hb'⟩ := h
  exact ⟨_, _, rfl, rfl, by decide⟩

theorem forall₂_mem_right {α β : Type} {R : α → β → Prop} {xs : List α} {ys : List β}
    (h : List.Forall₂ R xs ys) {y : β} (hy : y ∈ ys) : ∃ x ∈ xs, R x y := by
  induction h with
  | nil => cases hy
  | cons hxy _ ih =>
    obtain rfl | hy := List.mem_cons.1 hy
    · exact ⟨_, List.mem_cons_self, hxy⟩
    · obtain ⟨x, hx, hr⟩ := ih hy
      exact ⟨x, List.mem_cons_of_mem _ hx, hr⟩

theorem passes_member {t : List Char} (hraw : Literal raw) (ht : MemberText raw v t)
    (h : Passes skipValue v) : Passes skipMember t := by
  obtain @⟨b₁, b₂, hb₁, hb₂⟩ := ht
  intro fuel b rest hfuel hb hrest
  simp only [List.length_append, List.length_cons] at hfuel
  obtain ⟨n, rfl⟩ : ∃ n, fuel = n + 1 := ⟨fuel - 1, by omega⟩
  have hvalue := h n b₂ rest (by omega) hb₂ hrest
  simp only [List.cons_append, List.append_assoc]
  rw [skipMember, peek_blanks hb rfl]
  simp only [if_true]
  rw [advance_bind, bind_of_ok (skipScan_literal hraw _), peek_blanks hb₁ rfl]
  exact hvalue

theorem passes_number {n : Nat} (h : Numeral cs) (hb : Blanks b) (hrest : Ends rest) :
    skipValue (n + 1) (b ++ (cs ++ rest)) = .ok ((), rest) := by
  have hskip := skipNumber_append h hrest
  obtain ⟨c, ds, rfl, hc⟩ := h.head
  have hne (s : Char) (hs : isDigit s = false) : c ≠ s := isDigit_ne hc hs
  rw [skipValue, List.cons_append, peek_blanks hb (isBlank_of_isDigit hc)]
  simp only [hne 'n' (by decide), hne 't' (by decide), hne 'f' (by decide), hne '"' (by decide),
    hne '-' (by decide), hc, if_false, if_true]
  exact hskip

theorem passes_value (h : Wellformed v) : Passes skipValue v := by
  induction h with
  | null | yes | no =>
    intro fuel b rest hfuel hb _
    obtain ⟨n, rfl⟩ : ∃ n, fuel = n + 1 := ⟨fuel - 1, by simp at hfuel; omega⟩
    rw [skipValue, List.cons_append, peek_blanks hb rfl]
    rfl
  | @string raw h =>
    intro fuel b rest hfuel hb _
    obtain ⟨n, rfl⟩ : ∃ n, fuel = n + 1 := ⟨fuel - 1, by simp [inQuotes] at hfuel; omega⟩
    rw [skipValue, inQuotes, List.cons_append, peek_blanks hb rfl, List.append_assoc]
    exact skipScan_literal h rest
  | number h =>
    intro fuel b rest hfuel hb hrest
    obtain ⟨c, ds, rfl, -⟩ := h.head
    obtain ⟨n, rfl⟩ : ∃ n, fuel = n + 1 := ⟨fuel - 1, by simp at hfuel; omega⟩
    exact passes_number h hb hrest
  | negative h =>
    intro fuel b rest hfuel hb hrest
    obtain ⟨n, rfl⟩ : ∃ n, fuel = n + 1 := ⟨fuel - 1, by simp at hfuel; omega⟩
    rw [skipValue, List.cons_append, peek_blanks hb rfl]
    exact skipNumber_append h hrest
  | array h hcs ih =>
    intro fuel b rest hfuel hb hrest
    obtain ⟨ds, hds, rfl⟩ := hcs
    obtain ⟨n, rfl⟩ : ∃ n, fuel = n + 1 := ⟨fuel - 1, by simp at hfuel; omega⟩
    rw [skipValue, List.cons_append, peek_blanks hb rfl]
    exact passes_loop turns_items (by decide) (fun t ht => ⟨ih t ht, (h t ht).starts⟩) hds
      (by simp at hfuel; omega) rest
  | object hk h ht hcs ih =>
    intro fuel b rest hfuel hb hrest
    obtain ⟨ds, hds, rfl⟩ := hcs
    obtain ⟨n, rfl⟩ : ∃ n, fuel = n + 1 := ⟨fuel - 1, by simp at hfuel; omega⟩
    rw [skipValue, List.cons_append, peek_blanks hb rfl]
    refine passes_loop turns_members (by decide) (fun t hmem => ?_) hds
      (by simp at hfuel; omega) rest
    obtain ⟨m, hm, hmt⟩ := forall₂_mem_right ht hmem
    exact ⟨passes_member (hk m hm) hmt (ih m hm), hmt.starts⟩

theorem reads_skip (h : Wellformed v) : Reads skip v (some ()) := by
  intro b rest hb hrest
  refine passes_value h _ b rest ?_ hb hrest
  simp only [List.length_append]
  omega

end HotSwap.Json
