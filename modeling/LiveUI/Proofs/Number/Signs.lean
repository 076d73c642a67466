import Mathlib
import LiveUI.Number.Numeral

/-! # The sign of a double

Negation turns the sign bit and nothing else. A double equals itself unless it is not a number, and
neither a numeral nor the negation of a number is that. -/

namespace LiveUI.Number

open Float.Model Float.Model.UnpackedFloat

theorem neg_neg_sign (s : Sign) : - -s = s := by
  cases s <;> rfl

theorem toNat_pos_of_ne {n : Nat} {m : BitVec n} (h : m ≠ 0#_) : 0 < m.toNat :=
  Nat.pos_of_ne_zero fun hzero => h (BitVec.eq_of_toNat_eq hzero)

theorem toNat_one_append_pos {n : Nat} (m : BitVec n) : 0 < (1#1 ++ m).toNat := by
  simp

theorem unpack_packComponents {spec : Format} (s : Sign) (e m) :
    unpack spec (packComponents spec s e m) =
      if e = -1#_ then if m = 0#_ then .infinity s else .notANumber
      else if e = 0#_ then
        if h : m = 0#_ then .zero s
        else .finite s m.toNat ((e.toNat : Int) - (spec.exponentBias + spec.mantissaBitsWithoutImplicit) + 1)
          (toNat_pos_of_ne h)
      else .finite s (1#1 ++ m).toNat
        ((e.toNat : Int) - (spec.exponentBias + spec.mantissaBitsWithoutImplicit))
        (toNat_one_append_pos m) := by
  simp only [UnpackedFloat.unpack, unpackExponent_packComponents, unpackMantissa_packComponents,
    unpackSign_packComponents, Sign.ofBitVec_toBitVec]

theorem neg_unpack {spec : Format} (s : Sign) (e m) :
    (unpack spec (packComponents spec s e m)).neg = unpack spec (packComponents spec (-s) e m) := by
  rw [unpack_packComponents, unpack_packComponents]
  split
  · split <;> rfl
  · split
    · split <;> rfl
    · rfl

/-- Numbers are packed as they were before. -/
theorem pack_unpack_packComponents (s : Sign) (e : BitVec Format.binary64.exponentBits)
    (m : BitVec Format.binary64.mantissaBitsWithoutImplicit) (h : e = -1#_ → m = 0#_) :
    pack Format.binary64 (unpack Format.binary64 (packComponents Format.binary64 s e m)) =
      packComponents Format.binary64 s e m := by
  rw [pack_unpack, if_neg]
  simpa [isNaNBits] using h

/-! ## Negation -/

/-- The bit pattern of a double. -/
def pattern (x : Float) : BitVec Format.binary64.numBits :=
  x.toModel.toBits.toBitVec

theorem pattern_inj {x y : Float} (h : pattern x = pattern y) : x = y :=
  Float.toBits_inj.1 (UInt64.toBitVec_inj.1 h)

theorem pattern_neg (x : Float) :
    pattern (-x) = pack Format.binary64 (unpack Format.binary64 (pattern x)).neg :=
  rfl

theorem neg_nan : -Float.nan = Float.nan :=
  pattern_inj rfl

/-- A double is not a number, or has a sign, an exponent and a mantissa. -/
theorem nan_or_fields (x : Float) :
    x = Float.nan ∨
      ∃ s e m, (e = -1#_ → m = 0#_) ∧ pattern x = packComponents Format.binary64 s e m := by
  have hfields := packComponents_unpackSign_unpackExponent_unpackMantissa (pattern x)
  by_cases h : unpackExponent (pattern x) = -1#_ → unpackMantissa (pattern x) = 0#_
  · exact .inr ⟨_, _, _, h, hfields.symm⟩
  · obtain ⟨hinf, hm⟩ := Classical.not_imp.1 h
    exact .inl (pattern_inj (x.toModel.valid.eq_packedNaN hinf hm))

theorem neg_neg (x : Float) : - -x = x := by
  rcases nan_or_fields x with rfl | ⟨s, e, m, hnumber, hx⟩
  · rw [neg_nan, neg_nan]
  · refine pattern_inj ?_
    rw [pattern_neg, pattern_neg, hx, neg_unpack, pack_unpack_packComponents _ _ _ hnumber,
      neg_unpack, pack_unpack_packComponents _ _ _ hnumber, neg_neg_sign]

/-- Whether a double has its sign bit set. -/
def isNegative (x : Float) : Bool :=
  Nat.pow 2 63 ≤ x.toBits.toNat

/-! ## Numbers equal themselves -/

theorem neg_beq_self {x : Float} (h : (x == x) = true) : (-x == -x) = true := by
  rw [Float.beq_self_iff] at h ⊢
  intro hneg
  refine h ?_
  rw [← neg_neg x, hneg, neg_nan]

/-- The double of a magnitude that is at most the infinite one. -/
theorem ofMagnitude_beq_self {bits : Nat} (h : bits ≤ (Nat.pow 2 11 - 1) * Nat.pow 2 52) :
    (ofMagnitude false bits == ofMagnitude false bits) = true := by
  let b : BitVec Format.binary64.numBits := (UInt64.ofNat (0 + bits)).toBitVec
  have hpattern : pattern (ofMagnitude false bits) =
      pack Format.binary64 (unpack Format.binary64 b) := rfl
  have hb : b.toNat = bits := by
    change (UInt64.ofNat (0 + bits)).toNat = bits
    rw [Nat.zero_add, UInt64.toNat_ofNat_of_lt' (Nat.lt_of_le_of_lt h (by decide))]
  have he : (unpackExponent b).toNat = bits / 2 ^ 52 % 2 ^ 11 := by
    simp [unpackExponent, hb, Nat.shiftRight_eq_div_pow]
  have hm : (unpackMantissa b).toNat = bits % 2 ^ 52 := by
    simp [unpackMantissa, hb]
  have hnumber : ¬isNaNBits b = true := by
    simp only [isNaNBits, decide_eq_true_eq, not_and, not_not]
    intro hinf
    refine BitVec.eq_of_toNat_eq (hm.trans ?_)
    have he' : bits / 2 ^ 52 % 2 ^ 11 = 2047 := by rw [← he, hinf]; rfl
    have h' : bits ≤ 2047 * 2 ^ 52 := h
    change bits % 2 ^ 52 = 0
    omega
  rw [pack_unpack, if_neg hnumber] at hpattern
  rw [Float.beq_self_iff]
  intro hnan
  refine hnumber ?_
  rw [← hpattern, hnan]
  exact isNaNBits_packedNaN

theorem nearest_beq_self (num den : Nat) :
    (nearest false num den == nearest false num den) = true := by
  rw [nearest]
  split
  · exact ofMagnitude_beq_self (Nat.zero_le _)
  · exact ofMagnitude_beq_self (Nat.min_le_right _ _)

theorem decimalFloat_beq_self (digits : Nat) (exponent : Int) :
    (decimalFloat false digits exponent == decimalFloat false digits exponent) = true := by
  rw [decimalFloat]
  repeat' split
  all_goals exact nearest_beq_self _ _

end LiveUI.Number
