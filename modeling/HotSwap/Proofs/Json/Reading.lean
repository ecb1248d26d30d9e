import HotSwap.Proofs.Json.Grammar
import HotSwap.Proofs.Json.Records
/-!
# Reading what the grammar allows

What a reader makes of a value depends on the value alone. Blanks in front of it are passed over,
what comes after it is left, and if the value is refused it is refused whatever comes after it.
-/

namespace HotSwap.Json

open Reader

variable {α β σ μ : Type} {b v w rest raw cs : List Char} {ts : List (List Char)} {o : Option α}
  {r : Reader α} {c : Char} {first : Bool}

/-- What may come after a value: the end, a blank or a mark. -/
def Ends (rest : List Char) : Prop :=
  ∀ c ∈ rest.head?, c ∈ [' ', '\n', '\t', '\r', ',', ':', ']', '}']

/-- The outcome is `o`, with `rest` left over. No matter which fault is reported. -/
def Leaves (rest : List Char) : Option α → Except Fault (α × List Char) → Prop
  | some a, x => x = .ok (a, rest)
  | none, x => ∃ f, x = .error f

def Reads (r : Reader α) (v : List Char) (o : Option α) : Prop :=
  ∀ b rest, Blanks b → Ends rest → Leaves rest o (r (b ++ (v ++ rest)))

/-- The reader has one outcome on `v`, whatever stands around it. -/
def Settles (r : Reader α) (v : List Char) : Prop := ∃ o, Reads r v o

theorem Blanks.nil : Blanks [] := by simp [Blanks]

theorem Blanks.isBlank (hb : Blanks b) (hc : c ∈ b) : isBlank c = true := by
  have hall : [' ', '\n', '\t', '\r'].all Reader.isBlank = true := by decide
  exact List.all_eq_true.1 hall c (hb c hc)

theorem skipBlanks_append (hb : Blanks b) (hc : isBlank c = false) (cs : List Char) :
    skipBlanks (b ++ c :: cs) = c :: cs := by
  rw [skipBlanks, List.dropWhile_append_of_pos fun _ => hb.isBlank,
    List.dropWhile_cons_of_neg (by simp [hc])]

theorem skipBlanks_eq_nil (hb : Blanks b) : skipBlanks b = [] := by
  rw [skipBlanks, ← List.append_nil b, List.dropWhile_append_of_pos fun _ => hb.isBlank,
    List.dropWhile_nil]

theorem peek_blanks (hb : Blanks b) (hc : isBlank c = false) (k : Option Char → Reader α)
    (cs : List Char) : (peek >>= k) (b ++ c :: cs) = k (some c) (c :: cs) := by
  change peek (b ++ c :: cs) >>= (fun q => k q.1 q.2) = _
  rw [peek, skipBlanks_append hb hc]
  rfl

theorem ends_blanks (hb : Blanks b) (h : Ends rest) : Ends (b ++ rest) := by
  cases b with
  | nil => exact h
  | cons d b =>
    intro c hc
    obtain rfl : d = c := Option.some.inj hc
    have := hb d List.mem_cons_self
    simp only [List.mem_cons, List.not_mem_nil, or_false] at this ⊢
    grind

theorem ends_cons (h : c ∈ [',', ':', ']', '}']) (rest : List Char) : Ends (c :: rest) := by
  intro d hd
  obtain rfl : c = d := Option.some.inj hd
  simp only [List.mem_cons, List.not_mem_nil, or_false] at h ⊢
  grind

theorem bind_of_ok {r : Reader α} {f : α → Reader β} {a : α} {cs rest : List Char}
    (h : r cs = .ok (a, rest)) : (r >>= f) cs = f a rest := by
  change (r cs >>= fun q => f q.1 q.2) = _
  rw [h]
  rfl

theorem Leaves.bind {rest rest' : List Char} {f : α → Reader β} {p : α → Option β}
    (h : Leaves rest o (r cs)) (h' : ∀ a, o = some a → Leaves rest' (p a) (f a rest)) :
    Leaves rest' (o.bind p) ((r >>= f) cs) := by
  change Leaves rest' (o.bind p) (r cs >>= fun q => f q.1 q.2)
  cases o with
  | none =>
    obtain ⟨e, he⟩ := h
    rw [he]
    exact ⟨e, rfl⟩
  | some a =>
    rw [show r cs = .ok (a, rest) from h]
    exact h' a rfl

theorem Leaves.map (h : Leaves rest o (r cs)) (g : α → β) :
    Leaves rest (o.map g) ((r >>= fun a => pure (g a)) cs) := by
  rw [Option.map_eq_bind]
  exact h.bind fun _ _ => rfl

theorem Reads.bind {f : α → Reader β} {p : α → Option β} (h : Reads r v o) (hb : Blanks b)
    (hw : ∀ rest, Ends (w ++ rest)) (h' : ∀ a, o = some a → Reads (f a) w (p a)) :
    Reads (r >>= f) (v ++ (b ++ w)) (o.bind p) := by
  intro b₀ rest hb₀ hrest
  have hv := h b₀ (b ++ (w ++ rest)) hb₀ (ends_blanks hb (hw rest))
  simp only [List.append_assoc]
  exact hv.bind fun a ha => h' a ha b rest hb hrest

theorem Reads.map (h : Reads r v o) (g : α → β) :
    Reads (r >>= fun a => pure (g a)) v (o.map g) :=
  fun b rest hb hrest => (h b rest hb hrest).map g

theorem reads_peek {k : Option Char → Reader α} (hc : isBlank c = false)
    (h : ∀ rest, Ends rest → Leaves rest o (k (some c) (c :: (cs ++ rest)))) :
    Reads (peek >>= k) (c :: cs) o := by
  intro b rest hb hrest
  rw [List.cons_append, peek_blanks hb hc]
  exact h rest hrest

theorem wrongKind_fails (expected : String) (cs : List Char) :
    ∃ f, (wrongKind expected : Reader α) cs = .error f := by
  have bind_fails {γ : Type} (x : Except Fault γ) {g : γ → Except Fault (α × List Char)}
      (hg : ∀ y, ∃ f, g y = .error f) : ∃ f, (x >>= g) = .error f := by
    cases x with
    | error f => exact ⟨f, rfl⟩
    | ok y => exact hg y
  unfold wrongKind
  split
  case h_8 => split <;> first | exact ⟨_, rfl⟩ | exact bind_fails _ fun _ => ⟨_, rfl⟩
  case h_9 => exact ⟨_, rfl⟩
  case h_5 => exact ⟨_, rfl⟩
  case h_6 => exact ⟨_, rfl⟩
  all_goals exact bind_fails _ fun _ => ⟨_, rfl⟩

theorem escapedBy?_of_mem {c d : Char} (h : (c, d) ∈ namedEscapes) : escapedBy? d = some c := by
  have hall : ∀ e ∈ namedEscapes, escapedBy? e.2 = some e.1 := by decide
  exact hall _ h

theorem hexValue?_of_mem {c : Char} {n : Nat} (h : (c, n) ∈ hexDigits) : hexValue? c = some n := by
  have hall : ∀ e ∈ hexDigits, hexValue? e.1 = some e.2 := by decide
  exact hall _ h

theorem scan_plain (hc : IsPlain c) (cs : List Char) :
    scan .plain (c :: cs) = push c (scan .plain cs) := by
  obtain ⟨hlow, hquote, hslash⟩ := hc
  rw [scan, if_neg hquote, if_neg hslash, if_neg (Nat.not_lt.2 hlow)]

theorem scan_named {d : Char} (hc : (c, d) ∈ namedEscapes) (cs : List Char) :
    scan .plain ('\\' :: d :: cs) = push c (scan .plain cs) := by
  simp [scan, escapedBy?_of_mem hc]

def afterCode (high : Option Nat) (n : Nat) : Reader (List Char) := fun rest =>
  match Quad.of high n with
  | .char x => push x (scan .plain rest)
  | .high h => scan (.second h) rest
  | .lone => .error .malformed

theorem scan_code {n : Nat} (hn : Code n cs) (high : Option Nat) (rest : List Char) :
    scan (.hex high 0 0) (cs ++ rest) = afterCode high n rest := by
  obtain ⟨ha, hb, hc, hd⟩ := hn
  simp only [List.cons_append, List.nil_append, scan, hexValue?_of_mem ha, hexValue?_of_mem hb,
    hexValue?_of_mem hc, hexValue?_of_mem hd, Nat.reduceLT, Nat.reduceAdd, if_true, if_false,
    Nat.mul_zero, Nat.zero_add]
  rfl

theorem scan_escape (cs : List Char) :
    scan .plain ('\\' :: 'u' :: cs) = scan (.hex none 0 0) cs := by
  simp [scan, escapedBy?_u]

theorem scan_second (high : Nat) (cs : List Char) :
    scan (.second high) ('\\' :: 'u' :: cs) = scan (.hex (some high) 0 0) cs := by
  simp [scan]

theorem scan_spelled {s : List Char} (h : Spelled s raw) (rest : List Char) :
    scan .plain (raw ++ '"' :: rest) = .ok (s, rest) := by
  induction h with
  | nil => simp [scan]
  | plain hc _ ih => rw [List.cons_append, scan_plain hc, ih]; rfl
  | named hc _ ih => rw [List.cons_append, List.cons_append, scan_named hc, ih]; rfl
  | @code n cs s raw hn hhigh hlow _ ih =>
    have hquad : Quad.of none n = .char (Char.ofNat n) := by
      unfold IsHigh at hhigh
      unfold IsLow at hlow
      simp [Quad.of, hhigh, hlow]
    rw [List.cons_append, List.cons_append, scan_escape, List.append_assoc, scan_code hn, afterCode,
      hquad, ih]
    rfl
  | @pair m n cs ds s raw hm hhigh hn hlow _ ih =>
    have hfirst : Quad.of none m = .high m := by
      have : ¬(0xdc00 ≤ m ∧ m ≤ 0xdfff) := by unfold IsHigh at hhigh; omega
      simp_all [Quad.of, IsHigh]
    have hsecond : Quad.of (some m) n =
        .char (Char.ofNat ((m - 0xd800) * 0x400 + (n - 0xdc00) + 0x10000)) := by
      simp_all [Quad.of, IsLow]
    simp only [List.cons_append, List.append_assoc]
    rw [scan_escape, scan_code hm, afterCode, hfirst]
    simp only
    rw [scan_second, scan_code hn, afterCode, hsecond, ih]
    rfl

def Scans (p : Place) (raw : List Char) : Prop :=
  ∃ o, ∀ rest, Leaves rest o (scan p (raw ++ '"' :: rest))

theorem leaves_push {o : Option (List Char)} {x : Except Fault (List Char × List Char)}
    (h : Leaves rest o x) (c : Char) : Leaves rest (o.map (c :: ·)) (push c x) := by
  cases o with
  | none => obtain ⟨f, rfl⟩ := h; exact ⟨f, rfl⟩
  | some s => obtain rfl : x = .ok (s, rest) := h; rfl

theorem scans_code {n : Nat} {high : Option Nat} (hn : Code n cs) (h : Scans .plain raw)
    (h' : ∀ m, Scans (.second m) raw) : Scans (.hex high 0 0) (cs ++ raw) := by
  simp only [Scans, List.append_assoc, scan_code hn, afterCode]
  cases Quad.of high n with
  | char x =>
    obtain ⟨o, ho⟩ := h
    exact ⟨o.map (x :: ·), fun rest => leaves_push (ho rest) x⟩
  | high m => exact h' m
  | lone => exact ⟨none, fun _ => ⟨_, rfl⟩⟩

theorem scans_literal (h : Literal raw) :
    Scans .plain raw ∧ ∀ m, Scans (.second m) raw := by
  have fails {p : Place} {raw : List Char}
      (hp : ∀ rest, scan p (raw ++ '"' :: rest) = .error .malformed) : Scans p raw :=
    ⟨none, fun rest => ⟨_, hp rest⟩⟩
  induction h with
  | nil =>
    exact ⟨⟨some [], fun rest => by simp [scan, Leaves]⟩, fun m => fails fun _ => by simp [scan]⟩
  | @plain c raw hc h ih =>
    obtain ⟨⟨o, ho⟩, -⟩ := ih
    refine ⟨⟨o.map (c :: ·), fun rest => ?_⟩, fun m => fails fun rest => ?_⟩
    · rw [List.cons_append, scan_plain hc]
      exact leaves_push (ho rest) c
    · rw [List.cons_append, scan, if_neg hc.2.2]
  | @named c d raw hc h ih =>
    obtain ⟨⟨o, ho⟩, -⟩ := ih
    have hu : d ≠ 'u' := by
      rintro rfl
      exact absurd (escapedBy?_of_mem hc) (by simp [escapedBy?_u])
    refine ⟨⟨o.map (c :: ·), fun rest => ?_⟩, fun m => fails fun rest => ?_⟩
    · rw [List.cons_append, List.cons_append, scan_named hc]
      exact leaves_push (ho rest) c
    · simp [scan, hu]
  | code hn h ih =>
    refine ⟨?_, fun m => ?_⟩
    · simpa only [Scans, List.cons_append, scan_escape] using scans_code hn ih.1 ih.2
    · simpa only [Scans, List.cons_append, scan_second] using scans_code hn ih.1 ih.2

theorem reads_quotes {s expected : String} (h : Quotes s v) :
    Reads (stringAs expected) v (some s) := by
  obtain ⟨raw, hraw, rfl⟩ := h
  refine reads_peek rfl fun rest _ => ?_
  change (scan .plain (raw ++ ['"'] ++ rest) >>= fun q => Except.ok (String.ofList q.1, q.2)) = _
  rw [List.append_assoc, List.singleton_append, scan_spelled hraw, ← s.ofList_toList]
  rw [String.toList_ofList]
  rfl

theorem literal_settles (h : Literal raw) (expected : String) :
    Settles (stringAs expected) (inQuotes raw) := by
  obtain ⟨⟨o, ho⟩, -⟩ := scans_literal h
  refine ⟨o.map String.ofList, reads_peek rfl fun rest _ => ?_⟩
  have hscan := (ho rest).map String.ofList
  rw [← List.singleton_append, ← List.append_assoc] at hscan
  exact hscan

end HotSwap.Json
