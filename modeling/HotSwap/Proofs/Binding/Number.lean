import Mathlib
import HotSwap.Dependency
/-!
# Numbers by their words

A binary64 number is kept as a word of 64 bits, and two words are compared without arithmetic. The
comparison comes to what the numbers themselves say: they are equal, or neither is a number.
-/

namespace HotSwap

open Float.Model (Format UnpackedFloat)
open Float.Model.UnpackedFloat

abbrev Word := BitVec Format.binary64.numBits

namespace Word

def sign (w : Word) : Sign := .ofBitVec (unpackSign w)

def exponent (w : Word) : Nat := w.toNat / 2 ^ 52 % 2 ^ 11

def mantissa (w : Word) : Nat := w.toNat % 2 ^ 52

theorem exponent_lt (w : Word) : w.exponent < 2 ^ 11 := Nat.mod_lt _ (by decide)

theorem mantissa_lt (w : Word) : w.mantissa < 2 ^ 52 := Nat.mod_lt _ (by decide)

theorem toNat_unpackExponent (w : Word) : (unpackExponent w).toNat = w.exponent := by
  simp [unpackExponent, exponent, BitVec.extractLsb, Nat.shiftRight_eq_div_pow]

theorem toNat_unpackMantissa (w : Word) : (unpackMantissa w).toNat = w.mantissa := by
  simp [unpackMantissa, mantissa, BitVec.extractLsb]

theorem toNat_implicit (m : BitVec 52) : (1#1 ++ m).toNat = 2 ^ 52 + m.toNat := by
  rw [BitVec.toNat_append, ← Nat.shiftLeft_add_eq_or_of_lt m.isLt]
  simp [Nat.shiftLeft_eq]

inductive Denotes (w : Word) : UnpackedFloat → Prop
  | infinity (he : w.exponent = 2047) (hm : w.mantissa = 0) : w.Denotes (.infinity w.sign)
  | notANumber (he : w.exponent = 2047) (hm : w.mantissa ≠ 0) : w.Denotes .notANumber
  | zero (he : w.exponent = 0) (hm : w.mantissa = 0) : w.Denotes (.zero w.sign)
  | subnormal (he : w.exponent = 0) (hm : 0 < w.mantissa) :
    w.Denotes (.finite w.sign w.mantissa (-1074) hm)
  | normal (he : w.exponent ≠ 2047) (he' : w.exponent ≠ 0) (hm : 0 < 2 ^ 52 + w.mantissa) :
    w.Denotes (.finite w.sign (2 ^ 52 + w.mantissa) (w.exponent - 1075) hm)

theorem denotes_unpack (w : Word) : w.Denotes (unpack .binary64 w) := by
  have hexp (n : Nat) (hn : n < 2 ^ 11) :
      unpackExponent w = BitVec.ofNat 11 n ↔ w.exponent = n := by
    rw [← BitVec.toNat_inj, toNat_unpackExponent, BitVec.toNat_ofNat, Nat.mod_eq_of_lt hn]
  have hmant : unpackMantissa w = 0#52 ↔ w.mantissa = 0 := by
    rw [← BitVec.toNat_inj, toNat_unpackMantissa, BitVec.toNat_ofNat]
    simp
  have hfull := hexp 2047 (by decide)
  have hnone := hexp 0 (by decide)
  unfold unpack
  dsimp only
  split
  · have he := hfull.1 ‹_›
    split
    · exact .infinity he (hmant.1 ‹_›)
    · exact .notANumber he (mt hmant.2 ‹_›)
  · rename_i hfin
    split
    · have he := hnone.1 ‹_›
      split
      · exact .zero he (hmant.1 ‹_›)
      · rename_i hm
        have h := Denotes.subnormal he (Nat.pos_of_ne_zero (mt hmant.2 hm))
        convert h using 2
        · rfl
        · exact toNat_unpackMantissa w
        · rw [toNat_unpackExponent, he]
          rfl
    · rename_i hnorm
      have h := Denotes.normal (mt hfull.2 hfin) (mt hnone.2 hnorm) (by omega)
      convert h using 2
      · rfl
      · exact (toNat_implicit _).trans (by rw [toNat_unpackMantissa])
      · rw [toNat_unpackExponent]
        rfl

theorem unpack_eq_notANumber_iff (w : Word) :
    unpack .binary64 w = .notANumber ↔ w.exponent = 2047 ∧ w.mantissa ≠ 0 := by
  have hd := w.denotes_unpack
  generalize unpack .binary64 w = x at hd
  cases hd <;> simp [*]

theorem unpack_eq_zero_iff (w : Word) :
    (∃ s, unpack .binary64 w = .zero s) ↔ w.exponent = 0 ∧ w.mantissa = 0 := by
  have hd := w.denotes_unpack
  generalize unpack .binary64 w = x at hd
  cases hd with
  | subnormal he hm => simp [Nat.ne_of_gt hm]
  | _ => simp [*]

theorem packComponents_unpack (w : Word) :
    packComponents .binary64 w.sign (unpackExponent w) (unpackMantissa w) = w := by
  have hsign (s : BitVec 1) : (Sign.ofBitVec s).toBitVec = s := by revert s; decide
  simp only [packComponents, sign, hsign, unpackSign, unpackExponent, unpackMantissa,
    BitVec.extractLsb]
  ext i hi
  grind

theorem packComponents_eq {w : Word} {e : BitVec 11} {m : BitVec 52} (he : e.toNat = w.exponent)
    (hm : m.toNat = w.mantissa) : packComponents .binary64 w.sign e m = w := by
  obtain rfl : e = unpackExponent w :=
    BitVec.eq_of_toNat_eq (he.trans w.toNat_unpackExponent.symm)
  obtain rfl : m = unpackMantissa w :=
    BitVec.eq_of_toNat_eq (hm.trans w.toNat_unpackMantissa.symm)
  exact packComponents_unpack w

/-- Every word, the NaNs apart, is the one that is written for what it stands for. -/
theorem pack_unpack {w : Word} (h : unpack .binary64 w ≠ .notANumber) :
    pack .binary64 (unpack .binary64 w) = w := by
  have hm := w.mantissa_lt
  have he := w.exponent_lt
  have hd := w.denotes_unpack
  generalize unpack .binary64 w = x at h hd
  cases hd with
  | infinity he hm => exact packComponents_eq (by rw [he]; rfl) (by rw [hm]; rfl)
  | notANumber he hm => exact absurd rfl h
  | zero he hm => exact packComponents_eq (by rw [he]; rfl) (by rw [hm]; rfl)
  | subnormal he hpos =>
    have hlog : ¬w.mantissa.log2 + 1 = 53 := by
      have := (Nat.log2_lt (Nat.ne_of_gt hpos)).2 hm
      omega
    refine Eq.trans (if_neg hlog)
      (packComponents_eq (e := 0#11) (m := BitVec.ofNat 52 w.mantissa) (by rw [he]; rfl) ?_)
    rw [BitVec.toNat_ofNat, Nat.mod_eq_of_lt hm]
  | normal hfin hnorm hpos =>
    have hlog : (2 ^ 52 + w.mantissa).log2 + 1 = 53 := by
      have : (2 ^ 52 + w.mantissa).log2 = 52 := by rw [Nat.log2_eq_iff] <;> omega
      omega
    have hbias : ((w.exponent : Int) - 1075 + (Format.binary64.exponentBias : Nat) +
        (Format.binary64.mantissaBitsWithoutImplicit : Nat)).toNat = w.exponent := by
      show ((w.exponent : Int) - 1075 + (1023 : Nat) + (52 : Nat)).toNat = w.exponent
      omega
    have hlow : ¬2 ^ Format.binary64.exponentBits ≤ w.exponent + 1 := by
      show ¬2 ^ 11 ≤ w.exponent + 1
      omega
    -- The leading one is cut off again when the mantissa is put into its 52 bits.
    refine Eq.trans ?_ (packComponents_eq (e := BitVec.ofNat 11 w.exponent)
      (m := BitVec.ofNat 52 (2 ^ 52 + w.mantissa)) ?_ ?_)
    · simp only [pack, hbias]
      rw [if_neg hlow]
      exact if_pos hlog
    · rw [BitVec.toNat_ofNat, Nat.mod_eq_of_lt he]
    · rw [BitVec.toNat_ofNat, Nat.add_mod_left, Nat.mod_eq_of_lt hm]

theorem unpack_inj {v w : Word} (h : unpack .binary64 v ≠ .notANumber) :
    unpack .binary64 v = unpack .binary64 w ↔ v = w :=
  ⟨fun he => by rw [← pack_unpack h, he, pack_unpack (he ▸ h)], fun he => he ▸ rfl⟩

theorem compare_eq_some_eq {x y : UnpackedFloat} :
    x.compare y = some .eq ↔ (x = y ∧ x ≠ .notANumber) ∨ ∃ s t, x = .zero s ∧ y = .zero t := by
  have hs (s : Sign) : compare s s = .eq := by cases s <;> rfl
  rcases x with (_ | _) | _ | (_ | _) | ⟨_ | _, _, _, _⟩ <;>
    rcases y with (_ | _) | _ | (_ | _) | ⟨_ | _, _, _, _⟩ <;>
    simp [UnpackedFloat.compare, Ordering.then_eq_eq, and_comm, hs]

end Word

theorem unpack_ofBits (a : UInt64) :
    (Float.ofBits a).toModel.unpack = unpack .binary64 a.toBitVec := by
  show unpack .binary64 (pack .binary64 (unpack .binary64 a.toBitVec)) = _
  by_cases h : unpack .binary64 a.toBitVec = .notANumber
  · rw [h]
    rfl
  · rw [Word.pack_unpack h]

theorem isNaN_iff (a : UInt64) : isNaN a = true ↔ unpack .binary64 a.toBitVec = .notANumber := by
  have ha := a.toNat_lt
  rw [Word.unpack_eq_notANumber_iff, Word.exponent, Word.mantissa]
  simp only [isNaN, decide_eq_true_eq, UInt64.toNat_toBitVec]
  omega

theorem isZero_iff (a : UInt64) :
    isZero a = true ↔ ∃ s, unpack .binary64 a.toBitVec = .zero s := by
  have ha := a.toNat_lt
  rw [Word.unpack_eq_zero_iff, Word.exponent, Word.mantissa]
  simp only [isZero, beq_iff_eq, UInt64.toNat_toBitVec]
  omega

theorem isNaN_eq_false_of_isZero {a : UInt64} (h : isZero a = true) : isNaN a = false := by
  simp only [isZero, isNaN, beq_iff_eq, decide_eq_false_iff_not] at *
  omega

theorem isNaN_ofBits (a : UInt64) : (Float.ofBits a).isNaN = isNaN a := by
  rw [Bool.eq_iff_iff, isNaN_iff, ← unpack_ofBits]
  show (Float.ofBits a).toModel.unpack.isNaN = true ↔ _
  cases (Float.ofBits a).toModel.unpack <;> simp [UnpackedFloat.isNaN]

theorem ofBits_beq_iff (a b : UInt64) :
    (Float.ofBits a == Float.ofBits b) = true ↔
      (a = b ∧ isNaN a = false) ∨ (isZero a = true ∧ isZero b = true) := by
  have hbeq : (Float.ofBits a == Float.ofBits b) = true ↔
      (unpack .binary64 a.toBitVec).compare (unpack .binary64 b.toBitVec) = some .eq := by
    rw [← unpack_ofBits, ← unpack_ofBits]
    show UnpackedFloat.beq _ _ = true ↔ _
    simp [UnpackedFloat.beq]
  rw [hbeq, Word.compare_eq_some_eq, isZero_iff, isZero_iff, ← Bool.not_eq_true, isNaN_iff]
  refine or_congr (and_congr_left fun h => ?_) (by simp)
  rw [Word.unpack_inj h, UInt64.toBitVec_inj]

theorem Binding.sameNumber_iff (a b : UInt64) :
    sameNumber a b = true ↔ (Float.ofBits a == Float.ofBits b) = true ∨
      ((Float.ofBits a).isNaN = true ∧ (Float.ofBits b).isNaN = true) := by
  rw [ofBits_beq_iff, isNaN_ofBits, isNaN_ofBits]
  have hz := @isNaN_eq_false_of_isZero
  unfold sameNumber
  cases ha : isNaN a with
  | true => cases hb : isNaN b <;> grind
  | false => cases hb : isNaN b <;> grind

end HotSwap
