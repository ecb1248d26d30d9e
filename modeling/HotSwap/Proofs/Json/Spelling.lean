import HotSwap.Json.Decode
import HotSwap.Json.Writer
import HotSwap.Proofs.Coding.Basic
/-!
# What the JSON writer writes

Strings, lists and records spell what they were written for, and where a text breaks off the reader
says so.
-/

namespace HotSwap.Json

open Reader

variable {α β : Type} {c d : Char} {cs : List Char} {a : α}

theorem peek_bind (hc : isBlank c = false) (k : Option Char → Reader α) (cs : List Char) :
    (peek >>= k) (c :: cs) = k (some c) (c :: cs) := by
  have hpeek : peek (c :: cs) = .ok (some c, c :: cs) := by simp [peek, skipBlanks, hc]
  change peek (c :: cs) >>= (fun q => k q.1 q.2) = _
  rw [hpeek]
  rfl

theorem advance_bind (k : Unit → Reader α) (c : Char) (cs : List Char) :
    (advance >>= k) (c :: cs) = k () cs := rfl

theorem spells_peek {k : Option Char → Reader α} {r : Reader α} (hc : isBlank c = false)
    (h : Spells r cs a) (hk : ∀ cs, k (some c) (c :: cs) = r cs)
    (hn : k none [] = .error .unfinished) : Spells (peek >>= k) (c :: cs) a where
  whole rest := ((peek_bind hc k _).trans (hk _)).trans (h.whole rest)
  broken p hp hne := by
    cases p with
    | nil => exact hn
    | cons d p =>
      obtain ⟨rfl, hp'⟩ := List.cons_prefix_cons.1 hp
      exact ((peek_bind hc k p).trans (hk p)).trans (h.broken p hp' fun e => hne (e ▸ rfl))

theorem spells_look {k : Option Char → Reader α} {r : Reader α} (hc : isBlank c = false)
    (h : Spells r (c :: cs) a) (hk : ∀ cs, k (some c) (c :: cs) = r (c :: cs))
    (hn : k none [] = .error .unfinished) : Spells (peek >>= k) (c :: cs) a where
  whole rest := ((peek_bind hc k _).trans (hk _)).trans (h.whole rest)
  broken p hp hne := by
    cases p with
    | nil => exact hn
    | cons d p =>
      obtain ⟨rfl, -⟩ := List.cons_prefix_cons.1 hp
      exact ((peek_bind hc k p).trans (hk p)).trans (h.broken _ hp hne)

theorem spells_exactly (cs : List Char) : Spells (exactly cs) cs () := by
  induction cs with
  | nil => exact .pure ()
  | cons c cs ih =>
    refine ⟨fun rest => ?_, fun p hp hne => ?_⟩
    · simp only [exactly, List.cons_append, if_true]
      exact ih.whole rest
    · cases p with
      | nil => rfl
      | cons d p =>
        obtain ⟨rfl, hp'⟩ := List.cons_prefix_cons.1 hp
        simp only [exactly, if_true]
        exact ih.broken p hp' fun e => hne (e ▸ rfl)

/-- Inside a string `cs` stands for one more character. -/
structure Pushes (cs : List Char) (c : Char) : Prop where
  whole : ∀ rest, scan .plain (cs ++ rest) = push c (scan .plain rest)
  broken : ∀ p, p <+: cs → p ≠ cs → scan .plain p = .error .unfinished

theorem escapedBy?_of_escapeLetter? (h : escapeLetter? c = some d) : escapedBy? d = some c := by
  obtain ⟨e, he, rfl⟩ := Option.map_eq_some_iff.1 h
  have hmem := List.mem_of_find?_eq_some he
  obtain rfl : e.1 = c := by simpa using List.find?_some he
  simpa [h] using escapedBy?_escapeLetter? e hmem

theorem hexValue?_hexDigit (n : Nat) : hexValue? (hexDigit n) = some (n % 16) := by
  have hall : ∀ d < 16, hexValue? (hexDigit d) = some d := by decide
  have hmod : hexDigit n = hexDigit (n % 16) := by simp [hexDigit]
  rw [hmod, hall _ (Nat.mod_lt n (by decide))]

theorem escapedBy?_u : escapedBy? 'u' = none := by decide

theorem hexValue?_zero : hexValue? '0' = some 0 := by decide

theorem pushes_letter (h : escapedBy? d = some c) : Pushes ['\\', d] c where
  whole rest := by simp [scan, h]
  broken p hp hne := by
    simp only [List.prefix_cons_iff, List.prefix_nil] at hp
    obtain rfl | ⟨_, rfl, rfl | ⟨_, rfl, rfl⟩⟩ := hp
    · rfl
    · rfl
    · exact absurd rfl hne

theorem pushes_hex (h : c.toNat < 32) :
    Pushes ['\\', 'u', '0', '0', hexDigit (c.toNat / 16), hexDigit c.toNat] c where
  whole rest := by
    have hval : 16 * (c.toNat / 16 % 16) + c.toNat % 16 = c.toNat := by omega
    have hquad : Quad.of none c.toNat = .char c := by
      have hlow : ¬0xdc00 ≤ c.toNat := by omega
      have hhigh : ¬0xd800 ≤ c.toNat := by omega
      simp [Quad.of, hlow, hhigh]
    simp [scan, escapedBy?_u, hexValue?_zero, hexValue?_hexDigit, hval, hquad]
  broken p hp hne := by
    simp only [List.prefix_cons_iff, List.prefix_nil] at hp
    obtain rfl | ⟨_, rfl, rfl | ⟨_, rfl, rfl | ⟨_, rfl, rfl | ⟨_, rfl, rfl | ⟨_, rfl, rfl |
      ⟨_, rfl, rfl⟩⟩⟩⟩⟩⟩ := hp
    · rfl
    · rfl
    · rfl
    · rfl
    · rfl
    · simp [scan, escapedBy?_u, hexValue?_zero, hexValue?_hexDigit]
    · exact absurd rfl hne

theorem pushes_self (h : escapeLetter? c = none) (h' : ¬c.toNat < 32) : Pushes [c] c where
  whole rest := by
    have hquote : c ≠ '"' := by
      rintro rfl
      cases h
    have hslash : c ≠ '\\' := by
      rintro rfl
      cases h
    simp [scan, hquote, hslash, h']
  broken p hp hne := by
    simp only [List.prefix_cons_iff, List.prefix_nil] at hp
    obtain rfl | ⟨_, rfl, rfl⟩ := hp
    · rfl
    · exact absurd rfl hne

theorem pushes_escape (c : Char) : Pushes (escape c) c := by
  unfold escape
  split
  · exact pushes_letter (escapedBy?_of_escapeLetter? ‹_›)
  · split
    · exact pushes_hex ‹_›
    · exact pushes_self ‹_› ‹_›

theorem spells_scan (cs : List Char) : Spells (scan .plain) (cs.flatMap escape ++ ['"']) cs := by
  induction cs with
  | nil =>
    refine ⟨fun rest => by simp [scan]; rfl, fun p hp hne => ?_⟩
    simp only [List.flatMap_nil, List.nil_append, List.prefix_cons_iff, List.prefix_nil] at hp
    obtain rfl | ⟨_, rfl, rfl⟩ := hp
    · rfl
    · exact absurd rfl hne
  | cons c cs ih =>
    obtain ⟨hwhole, hbroken⟩ := pushes_escape c
    rw [List.flatMap_cons, List.append_assoc]
    refine ⟨fun rest => ?_, fun p hp hne => ?_⟩
    · rw [List.append_assoc, hwhole, ih.whole]
      rfl
    · rcases prefix_append_cases hp with ⟨hp, hne⟩ | ⟨q, rfl, hq⟩
      · exact hbroken p hp hne
      · rw [hwhole, ih.broken q hq fun e => hne (e ▸ rfl)]
        rfl

theorem spells_stringTail (s : String) :
    Spells stringTail (s.toList.flatMap escape ++ ['"']) s := by
  have h := (spells_scan s.toList).map String.ofList
  rwa [String.ofList_toList] at h

theorem spells_stringAs (expected : String) (s : String) :
    Spells (stringAs expected) (quoted s) s :=
  spells_peek rfl (spells_stringTail s) (fun _ => rfl) rfl

theorem spells_bool (b : Bool) : Spells Reader.bool (compact (.bool b)) b := by
  cases b with
  | true =>
    have htail := (spells_exactly ['r', 'u', 'e']).map fun _ => true
    exact spells_peek rfl htail (fun _ => rfl) rfl
  | false =>
    have htail := (spells_exactly ['a', 'l', 's', 'e']).map fun _ => false
    exact spells_peek rfl htail (fun _ => rfl) rfl

theorem spells_option {read : Reader α} (h : Spells read (c :: cs) a) (hc : isBlank c = false)
    (hnull : c ≠ 'n') : Spells (Reader.option read) (c :: cs) (some a) := by
  refine spells_look hc (h.map some) (fun rest => ?_) ?_
  · simp only [hnull, if_false]
  · exact (h.map some).broken [] List.nil_prefix (List.cons_ne_nil c cs).symm

theorem spells_variant {variants : List (String × α)} {name : String}
    (h : variants.lookup name = some a) : Spells (variant variants) (quoted name) a := by
  have hname := (spells_stringAs "a string" name).ends (f := variantName variants) (b := a)
    (by rw [variantName, h])
  exact spells_look rfl hname (fun _ => rfl) rfl

theorem parse_of_spells {read : Reader α} (h : Spells read cs a) :
    parse read (String.ofList cs) = .ok a := by
  have hread : read cs = .ok (a, []) := List.append_nil cs ▸ h.whole []
  rw [parse, String.toList_ofList, hread]
  rfl

end HotSwap.Json
