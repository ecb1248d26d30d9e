import HotSwap.MessagePack.Reader
import HotSwap.MessagePack.Writer
import HotSwap.Proofs.Coding.Basic
/-!
# What the MessagePack writer writes

Headers, strings, arrays and records spell what they were written for, as long as a header can hold
their lengths.
-/

namespace HotSwap.MessagePack

open Decoder

variable {n : Nat} {bs : List UInt8}

@[simp] theorem toNat_byte (n : Nat) : (byte n).toNat = n % 0x100 := UInt8.toNat_ofNat'

theorem spells_take (bs : List UInt8) : Spells (take bs.length) bs bs where
  whole rest := by simp [take]
  broken p hp hne := by
    have hlt : p.length < bs.length :=
      Nat.lt_of_le_of_ne hp.length_le fun e => hne (hp.eq_of_length e)
    have hmin : ¬min bs.length p.length = bs.length := by omega
    simp [take, hmin]
    rfl

theorem spells_natural (bs : List UInt8) (h : bs.foldl (fun a b => 256 * a + b.toNat) 0 = n) :
    Spells (natural bs.length) bs n := h ▸ (spells_take bs).map _

theorem spells_byte (h : n < 0x100) : Spells (natural 1) [byte n] n := by
  refine spells_natural [byte n] ?_
  simp only [List.foldl_cons, List.foldl_nil, toNat_byte]
  omega

theorem spells_big16 (h : n < 0x10000) : Spells (natural 2) (big16 n) n := by
  refine spells_natural (big16 n) ?_
  simp only [big16, List.foldl_cons, List.foldl_nil, toNat_byte]
  omega

theorem spells_big32 (h : n < 0x100000000) : Spells (natural 4) (big32 n) n := by
  refine spells_natural (big32 n) ?_
  simp only [big32, List.foldl_cons, List.foldl_nil, toNat_byte]
  omega

theorem take_one_bind (f : List UInt8 → Decoder α) (b : UInt8) (rest : List UInt8) :
    (take 1 >>= f) (b :: rest) = f [b] rest := by
  have htake : take 1 (b :: rest) = some ([b], rest) := by simp [take]
  change (take 1 (b :: rest)).bind (fun q => f q.1 q.2) = _
  rw [htake, Option.bind_some]

theorem header_nil : header [] = none := by
  simp [header]
  rfl

theorem spells_header {b : UInt8} {r : Decoder Header} {a : Header} (h : Spells r bs a)
    (hb : ∀ rest, header (b :: rest) = r rest) : Spells header (b :: bs) a where
  whole rest := (hb _).trans (h.whole rest)
  broken p hp hne := by
    cases p with
    | nil => exact header_nil
    | cons c p =>
      obtain ⟨rfl, hp'⟩ := List.cons_prefix_cons.1 hp
      exact (hb p).trans (h.broken p hp' fun e => hne (e ▸ rfl))

theorem header_map (h : n < 16) (rest : List UInt8) :
    header (byte (0x80 + n) :: rest) = some (.map n, rest) := by
  have hb : (byte (0x80 + n)).toNat = 0x80 + n := by rw [toNat_byte]; omega
  rw [header, take_one_bind]
  simp only [List.headD_cons, hb]
  rw [if_neg (by omega), if_pos (by omega), Nat.add_sub_cancel_left]
  rfl

theorem header_array (h : n < 16) (rest : List UInt8) :
    header (byte (0x90 + n) :: rest) = some (.array n, rest) := by
  have hb : (byte (0x90 + n)).toNat = 0x90 + n := by rw [toNat_byte]; omega
  rw [header, take_one_bind]
  simp only [List.headD_cons, hb]
  rw [if_neg (by omega), if_neg (by omega), if_pos (by omega), Nat.add_sub_cancel_left]
  rfl

theorem header_text (h : n < 32) (rest : List UInt8) :
    header (byte (0xa0 + n) :: rest) = some (.text n, rest) := by
  have hb : (byte (0xa0 + n)).toNat = 0xa0 + n := by rw [toNat_byte]; omega
  rw [header, take_one_bind]
  simp only [List.headD_cons, hb]
  rw [if_neg (by omega), if_neg (by omega), if_neg (by omega), if_pos (by omega),
    Nat.add_sub_cancel_left]
  rfl

theorem spells_stringHeader (h : n < 0x100000000) : Spells header (stringHeader n) (.text n) := by
  unfold stringHeader
  split
  · exact spells_header (.pure _) (header_text ‹_›)
  · split
    · exact spells_header ((spells_byte ‹_›).map Header.text) fun rest => take_one_bind _ _ rest
    · split
      · exact spells_header ((spells_big16 ‹_›).map Header.text) fun rest => take_one_bind _ _ rest
      · exact spells_header ((spells_big32 h).map Header.text) fun rest => take_one_bind _ _ rest

theorem spells_arrayHeader (h : n < 0x100000000) : Spells header (arrayHeader n) (.array n) := by
  unfold arrayHeader
  split
  · exact spells_header (.pure _) (header_array ‹_›)
  · split
    · exact spells_header ((spells_big16 ‹_›).map Header.array) fun rest => take_one_bind _ _ rest
    · exact spells_header ((spells_big32 h).map Header.array) fun rest => take_one_bind _ _ rest

theorem spells_mapHeader (h : n < 0x100000000) : Spells header (mapHeader n) (.map n) := by
  unfold mapHeader
  split
  · exact spells_header (.pure _) (header_map ‹_›)
  · split
    · exact spells_header ((spells_big16 ‹_›).map Header.map) fun rest => take_one_bind _ _ rest
    · exact spells_header ((spells_big32 h).map Header.map) fun rest => take_one_bind _ _ rest

/-- The text is short enough for a header. -/
def Fits (s : String) : Prop := s.utf8ByteSize < 0x100000000

instance (s : String) : Decidable (Fits s) := inferInstanceAs (Decidable (_ < _))

def FitsAll (ss : List String) : Prop := ss.length < 0x100000000 ∧ ∀ s ∈ ss, Fits s

instance (ss : List String) : Decidable (FitsAll ss) := inferInstanceAs (Decidable (_ ∧ _))

theorem length_utf8 (s : String) : (utf8 s).length = s.utf8ByteSize := by simp [utf8]

theorem Fits.bytes {s : String} (h : Fits s) : (utf8 s).length < 0x100000000 := length_utf8 s ▸ h

theorem fromUTF8?_utf8 (s : String) : String.fromUTF8? (utf8 s).toByteArray = some s := by
  have hbytes : (utf8 s).toByteArray = s.toUTF8 := ByteArray.ext (by simp [utf8])
  simp [hbytes, String.fromUTF8?, String.fromUTF8, s.isValidUTF8]

theorem spells_utf8 (s : String) : Spells (Decoder.utf8 (utf8 s).length) (utf8 s) s :=
  (spells_take (utf8 s)).ends (by simp only [fromUTF8?_utf8])

theorem spells_string {s : String} (h : Fits s) : Spells Decoder.string (string s) s :=
  (spells_stringHeader h.bytes).bind (spells_utf8 s)

theorem spells_key {s : String} (h : Fits s) : Spells key (string s) (.name s) :=
  (spells_stringHeader h.bytes).bind ((spells_take (utf8 s)).ends (by rw [fromUTF8?_utf8]; rfl))

variable {α σ : Type} {read : Decoder α} {write : α → List UInt8} {a : α}

theorem spells_times {xs : List α} (h : ∀ x ∈ xs, Spells read (write x) x) :
    Spells (times read xs.length) (xs.map write).flatten xs := by
  induction xs with
  | nil => exact .pure []
  | cons x xs ih =>
    have hx := h x List.mem_cons_self
    exact hx.bind ((ih fun y hy => h y (List.mem_cons_of_mem x hy)).map (x :: ·))

theorem spells_array {xs : List α} (hl : xs.length < 0x100000000)
    (h : ∀ x ∈ xs, Spells read (write x) x) :
    Spells (Decoder.list read) (array (xs.map write)) xs := by
  rw [array, List.length_map]
  exact (spells_arrayHeader hl).bind (spells_times h)

theorem spells_strings {ss : List String} (h : FitsAll ss) :
    Spells (Decoder.list Decoder.string) (strings ss) ss :=
  spells_array h.1 fun s hs => spells_string (h.2 s hs)

theorem spells_option {f : Header → Decoder α} (h : Spells (header >>= f) bs a)
    (hf : f .nil = fail) : Spells (Decoder.option (header >>= f)) bs (some a) := by
  have hempty : (header >>= f) [] = none := by
    change (header []).bind (fun q => f q.1 q.2) = none
    rw [header_nil, Option.bind_none]
  have hnil (rest : List UInt8) : (header >>= f) (0xc0 :: rest) = none := by
    have hheader : header (0xc0 :: rest) = some (.nil, rest) := by
      rw [header, take_one_bind]
      rfl
    change (header (0xc0 :: rest)).bind (fun q => f q.1 q.2) = none
    rw [hheader, Option.bind_some, hf]
    rfl
  have hcons {b : UInt8} (hb : b ≠ 0xc0) (rest : List UInt8) :
      Decoder.option (header >>= f) (b :: rest) =
        ((header >>= f) >>= fun a => pure (some a)) (b :: rest) := by
    unfold Decoder.option
    split
    · exact absurd (List.cons.inj ‹_›).1 hb
    · rfl
  obtain _ | ⟨b, bs⟩ := bs
  · cases hempty.symm.trans (h.whole [])
  have hb : b ≠ 0xc0 := by
    rintro rfl
    cases (hnil _).symm.trans (h.whole [])
  refine ⟨fun rest => (hcons hb _).trans ((h.map some).whole rest), fun p hp hne => ?_⟩
  cases p with
  | nil => exact (h.map some).broken [] hp hne
  | cons c p =>
    obtain ⟨rfl, -⟩ := List.cons_prefix_cons.1 hp
    exact (hcons hb p).trans ((h.map some).broken _ hp hne)

section

variable {names : List String} {depth : Nat} {member : String → σ → Decoder σ}
  {finish : σ → Decoder α} {positional : Nat → Decoder α} {fields fields' : List (List UInt8)}
  {s t u : σ}

/-- These fields, one after the other, take a record from `s` to `t`. -/
def Fills (names : List String) (depth : Nat) (member : String → σ → Decoder σ)
    (fields : List (List UInt8)) (s t : σ) : Prop :=
  ∀ n b bs, Spells (members names depth member n t) bs b →
    Spells (members names depth member (fields.length + n) s) (fields.flatten ++ bs) b

theorem Fills.nil (s : σ) : Fills names depth member [] s s := by
  intro n b bs h
  simpa using h

theorem Fills.append (h : Fills names depth member fields s t)
    (h' : Fills names depth member fields' t u) :
    Fills names depth member (fields ++ fields') s u := by
  intro n b bs hb
  have hs := h _ _ _ (h' _ _ _ hb)
  rwa [← Nat.add_assoc, ← List.length_append, ← List.append_assoc, ← List.flatten_append] at hs

theorem Fills.field {name : String} {value : List UInt8} (hk : Fits name) (hn : name ∈ names)
    (h : Spells (member name s) value t) : Fills names depth member [field name value] s t := by
  intro n b bs hb
  have hfield : Spells (members names depth member (n + 1) s) (string name ++ (value ++ bs)) b := by
    refine (spells_key hk).bind ?_
    simp only [Key.field?, hn, if_true]
    exact h.bind hb
  simpa [MessagePack.field, Nat.add_comm] using hfield

theorem spells_record (hl : fields.length < 0x100000000) (h : Fills names depth member fields s t)
    (hf : Spells (finish t) [] a) :
    Spells (record names depth s member finish positional) (map fields) a := by
  have hs := h 0 t [] (.pure t)
  refine (spells_mapHeader hl).bind ?_
  simpa using hs.bind hf

end

end HotSwap.MessagePack
