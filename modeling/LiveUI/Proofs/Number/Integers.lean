import Mathlib
import LiveUI.Number.Digits
import LiveUI.Number.Numeral

/-! # Integers, as digits and as words

An integer is written as an optional minus before digits, the first of which is a zero only if it is
the only one, and the digits are read back as the magnitude. It is read as a word of 64 bits just
where it is between the least and the greatest of them, and the word then stands for it. -/

namespace LiveUI.Number

/-! ## Decimal texts -/

theorem toList_toString (n : Int) :
    (toString n).toList = (if n < 0 then ['-'] else []) ++ Nat.toDigits 10 n.natAbs := by
  rw [Int.toString_eq_repr, Int.repr_eq_if]
  by_cases hn : n < 0
  · rw [if_neg (Int.not_le.2 hn), if_pos hn, String.toList_append, Nat.repr_eq_ofList_toDigits,
      show (-n).toNat = n.natAbs by omega]
    change ['-'] ++ _ = _
    rw [String.toList_ofList]
  · rw [if_pos (Int.not_lt.1 hn), if_neg hn, Nat.repr_eq_ofList_toDigits, String.toList_ofList,
      show n.toNat = n.natAbs by omega]
    rfl

theorem isDigit_of_mem_toDigits {n : Nat} {c : Char} (hc : c ∈ Nat.toDigits 10 n) :
    c.isDigit = true :=
  Nat.isDigit_of_mem_toDigits (by omega) (by omega) hc

/-- The digits of a number start with a zero only if they are one. -/
theorem head_toDigits {n : Nat} (hn : n ≠ 0) : (Nat.toDigits 10 n).head? ≠ some '0' := by
  induction n using Nat.strongRecOn with
  | ind n ih =>
      by_cases hsmall : n < 10
      · rw [Nat.toDigits_of_lt_base hsmall]
        match n, hn, hsmall with
        | 1, _, _ | 2, _, _ | 3, _, _ | 4, _, _ | 5, _, _ | 6, _, _ | 7, _, _ | 8, _, _
        | 9, _, _ => decide
      · rw [Nat.toDigits_of_base_le (by omega) (by omega), List.head?_append]
        have hhead := ih (n / 10) (by omega) (by omega)
        cases hdigits : Nat.toDigits 10 (n / 10) with
        | nil => exact absurd hdigits Nat.toDigits_ne_nil
        | cons c cs =>
            rw [hdigits] at hhead
            exact hhead

theorem digitsValue_toDigits (n : Nat) : digitsValue (Nat.toDigits 10 n) = n := by
  rw [digitsValue_eq_foldl]
  have h := Nat.ofDigitChars_ten_toDigits (n := n)
  rw [Nat.ofDigitChars_eq_foldl] at h
  exact h

theorem digitChar_digitValue {c : Char} (hc : c.isDigit = true) :
    digitValue c < 10 ∧ Nat.digitChar (digitValue c) = c := by
  obtain ⟨hzero, hnine⟩ := Char.isDigit_iff_toNat.1 hc
  rw [show '0'.toNat = 48 from rfl] at hzero
  rw [show '9'.toNat = 57 from rfl] at hnine
  have hvalue : digitValue c = c.toNat - 48 := rfl
  have hlt : digitValue c < 10 := by omega
  refine ⟨hlt, Char.toNat_inj.1 ?_⟩
  rw [Nat.toNat_digitChar_of_lt_ten hlt]
  omega

/-- Digits behind a positive number go on with its text. -/
theorem toDigits_foldl {n : Nat} {ds : List Char} (hn : 0 < n) (hds : ∀ c ∈ ds, c.isDigit = true) :
    Nat.toDigits 10 (ds.foldl (fun n c => 10 * n + digitValue c) n) = Nat.toDigits 10 n ++ ds := by
  induction ds generalizing n with
  | nil => rw [List.foldl_nil, List.append_nil]
  | cons c ds ih =>
      rw [List.forall_mem_cons] at hds
      obtain ⟨hlt, hchar⟩ := digitChar_digitValue hds.1
      rw [List.foldl_cons, ih (by omega) hds.2, ← Nat.toDigits_append_toDigits (by omega) hn hlt,
        Nat.toDigits_of_lt_base hlt, hchar, List.append_assoc, List.singleton_append]

theorem toDigits_digitsValue {c : Char} {ds : List Char} (hc : c ≠ '0')
    (hds : ∀ d ∈ c :: ds, d.isDigit = true) : Nat.toDigits 10 (digitsValue (c :: ds)) = c :: ds := by
  rw [List.forall_mem_cons] at hds
  obtain ⟨hlt, hchar⟩ := digitChar_digitValue hds.1
  have hpos : 0 < digitValue c := by
    refine Nat.pos_of_ne_zero fun hzero => hc ?_
    rw [← hchar, hzero]
    rfl
  rw [digitsValue_eq_foldl, List.foldl_cons, Nat.mul_zero, Nat.zero_add, toDigits_foldl hpos hds.2,
    Nat.toDigits_of_lt_base hlt, hchar, List.singleton_append]

/-! ## Words of 64 bits -/

/-- The integer is one of 64 bits. -/
def Fits (n : Int) : Prop :=
  -2 ^ 63 ≤ n ∧ n < 2 ^ 63

instance (n : Int) : Decidable (Fits n) :=
  inferInstanceAs (Decidable (_ ∧ _))

section Words

variable {n : Int} {v : Int64}

theorem fits_toInt (v : Int64) : Fits v.toInt :=
  ⟨v.le_toInt, v.toInt_lt⟩

theorem int64?_of_fits (h : Fits n) : int64? n = some (Int64.ofInt n) :=
  if_pos ⟨h.1, Int.le_of_lt_add_one h.2⟩

theorem int64?_eq_some_iff : int64? n = some v ↔ v.toInt = n := by
  constructor
  · intro h
    by_cases hn : Fits n
    · rw [int64?_of_fits hn] at h
      obtain rfl := Option.some.inj h
      exact Int64.toInt_ofInt_of_le hn.1 hn.2
    · rw [int64?, if_neg fun hrange => hn ⟨hrange.1, Int.lt_add_one_of_le hrange.2⟩] at h
      cases h
  · rintro rfl
    rw [int64?_of_fits (fits_toInt v), Int64.ofInt_toInt]

theorem int64?_eq_none_iff : int64? n = none ↔ ¬Fits n := by
  rw [Option.eq_none_iff_forall_ne_some]
  constructor
  · exact fun h hn => h _ (int64?_of_fits hn)
  · rintro hn v h
    rw [int64?_eq_some_iff] at h
    exact hn (h ▸ fits_toInt v)

/-! ### Words with a negative -/

/-- The word stands for an integer whose negative is one of 64 bits, too. -/
def Negatable (v : Int64) : Prop :=
  -(2 ^ 63 - 1) ≤ v.toInt ∧ v.toInt ≤ 2 ^ 63 - 1

theorem negatable_of_nonneg (h : 0 ≤ v.toInt) : Negatable v := by
  have := v.toInt_lt
  exact ⟨by omega, by omega⟩

namespace Negatable

theorem toInt_neg (h : Negatable v) : (-v).toInt = -v.toInt := by
  obtain ⟨hlow, hhigh⟩ := h
  rw [Int64.toInt_neg]
  exact Int.bmod_eq_of_le (by omega) (by omega)

theorem neg (h : Negatable v) : Negatable (-v) := by
  obtain ⟨hlow, hhigh⟩ := h
  rw [Negatable, toInt_neg ⟨hlow, hhigh⟩]
  omega

end Negatable

/-! ### Sums of words -/

variable {a b : Int64}

theorem toInt_add_of_fits (h : Fits (a.toInt + b.toInt)) : (a + b).toInt = a.toInt + b.toInt := by
  rw [Int64.toInt_add]
  exact Int.bmod_eq_of_le h.1 h.2

theorem toInt_sub_of_fits (h : Fits (a.toInt - b.toInt)) : (a - b).toInt = a.toInt - b.toInt := by
  rw [Int64.toInt_sub]
  exact Int.bmod_eq_of_le h.1 h.2

end Words

end LiveUI.Number
