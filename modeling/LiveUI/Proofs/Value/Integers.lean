import LiveUI.Proofs.Number.Integers
import LiveUI.Value.Call

/-! # Arithmetic on integers

The operators on integers and truth values come to the exact result, or they overflow. A quotient is
taken toward zero first and then put right by one where it is above the floor, and so is what the
quotient leaves, by the divisor, where it does not have its sign. Neither step leaves 64 bits. -/

namespace LiveUI.Value

open Number

/-! ## Exact results -/

section Exact

variable {n : Int} {v : Int64}

theorem exactly_eq_ok_iff : exactly n = .ok v ↔ v.toInt = n := by
  rw [← int64?_eq_some_iff, exactly]
  cases int64? n <;> simp

theorem exactly_eq_error_iff {e : EvalError} : exactly n = .error e ↔ e = .overflow ∧ ¬Fits n := by
  rw [← int64?_eq_none_iff, exactly]
  cases int64? n <;> simp [eq_comm]

theorem exactly_eq_overflow_iff : exactly n = .error .overflow ↔ ¬Fits n := by
  simp [exactly_eq_error_iff]

theorem exactly_of_toInt (h : v.toInt = n) : exactly n = .ok v :=
  exactly_eq_ok_iff.2 h

theorem exactly_of_not_fits (h : ¬Fits n) : exactly n = .error .overflow :=
  exactly_eq_overflow_iff.2 h

end Exact

/-! ## Rounding to the floor -/

/-- The quotient `q` of `a` by `b` is rounded to the floor, and `r` is what it leaves. -/
structure FloorDivides (a b q r : Int) : Prop where
  divisor : b ≠ 0
  floor : q = ⌊(a : ℚ) / b⌋
  leaves : a = q * b + r
  small : |r| < |b|
  sign : r = 0 ∨ r.sign = b.sign

section Floor

variable {a b n : Int}

theorem floor_div (a b : Int) : ⌊(a : ℚ) / b⌋ = a.fdiv b := by
  have hnonneg : ∀ (a : Int) {b : Int}, 0 ≤ b → ⌊(a : ℚ) / b⌋ = a.fdiv b := by
    intro a b hb
    rw [Int.floor_div_cast_of_nonneg hb, Int.floor_intCast, Int.fdiv_eq_ediv_of_nonneg a hb]
  rcases Int.le_total 0 b with hb | hb
  · exact hnonneg a hb
  · rw [← Int.neg_fdiv_neg, ← hnonneg (-a) (Int.neg_nonneg_of_nonpos hb), Int.cast_neg, Int.cast_neg,
      neg_div_neg_eq]

theorem fdiv_lt_iff_of_pos (hb : 0 < b) : a.fdiv b < n ↔ a < n * b := by
  rw [Int.fdiv_eq_ediv_of_nonneg a hb.le, Int.ediv_lt_iff_lt_mul hb]

theorem fdiv_lt_iff_of_neg (hb : b < 0) : a.fdiv b < n ↔ n * b < a := by
  rw [← Int.neg_fdiv_neg, fdiv_lt_iff_of_pos (Int.neg_pos_of_neg hb), mul_neg, neg_lt_neg_iff]

theorem fmod_of_neg (a : Int) (hb : b < 0) : b < a.fmod b ∧ a.fmod b ≤ 0 := by
  have hnonneg := Int.fmod_nonneg_of_pos (-a) (Int.neg_pos_of_neg hb)
  have hlt := Int.fmod_lt_of_pos (-a) (Int.neg_pos_of_neg hb)
  rw [Int.neg_fmod_neg] at hnonneg hlt
  omega

theorem floorDivides_fdiv (a : Int) (hb : b ≠ 0) : FloorDivides a b (a.fdiv b) (a.fmod b) := by
  refine ⟨hb, (floor_div a b).symm, (Int.fdiv_mul_add_fmod a b).symm, ?_, ?_⟩
  · rcases Int.lt_or_gt_of_ne hb with hneg | hpos
    · obtain ⟨hlt, hle⟩ := fmod_of_neg a hneg
      rw [abs_of_nonpos hle, abs_of_neg hneg]
      omega
    · rw [abs_of_nonneg (Int.fmod_nonneg_of_pos a hpos), abs_of_pos hpos]
      exact Int.fmod_lt_of_pos a hpos
  · refine or_iff_not_imp_left.2 fun hne => ?_
    rcases Int.lt_or_gt_of_ne hb with hneg | hpos
    · have hrest : a.fmod b < 0 := lt_of_le_of_ne (fmod_of_neg a hneg).2 hne
      rw [Int.sign_eq_neg_one_of_neg hneg, Int.sign_eq_neg_one_of_neg hrest]
    · have hrest : 0 < a.fmod b := lt_of_le_of_ne (Int.fmod_nonneg_of_pos a hpos) (Ne.symm hne)
      rw [Int.sign_eq_one_of_pos hpos, Int.sign_eq_one_of_pos hrest]

/-- The quotient of `a` by `b` is a fraction below zero. -/
def FallsShort (a b : Int) : Prop :=
  ¬b ∣ a ∧ (a < 0 ↔ ¬b < 0)

theorem fdiv_of_fallsShort (hb : b ≠ 0) (h : FallsShort a b) : a.fdiv b = a.tdiv b - 1 := by
  rw [Int.fdiv_eq_tdiv, if_neg h.1]
  have := h.2
  rcases Int.lt_or_gt_of_ne hb with hneg | hpos
  · rw [Int.sign_eq_neg_one_of_neg hneg]
    split_ifs <;> omega
  · rw [Int.sign_eq_one_of_pos hpos]
    split_ifs <;> omega

theorem fdiv_of_not_fallsShort (hb : b ≠ 0) (h : ¬FallsShort a b) : a.fdiv b = a.tdiv b := by
  rw [Int.fdiv_eq_tdiv]
  by_cases hdvd : b ∣ a
  · rw [if_pos hdvd, sub_zero]
  · have : ¬(a < 0 ↔ ¬b < 0) := fun hsign => h ⟨hdvd, hsign⟩
    rw [if_neg hdvd]
    rcases Int.lt_or_gt_of_ne hb with hneg | hpos
    · rw [Int.sign_eq_neg_one_of_neg hneg]
      split_ifs <;> omega
    · split_ifs <;> omega

theorem fmod_of_fallsShort (hb : b ≠ 0) (h : FallsShort a b) : a.fmod b = a.tmod b + b := by
  rw [Int.fmod_def, fdiv_of_fallsShort hb h, Int.tmod_def]
  ring

theorem fmod_of_not_fallsShort (hb : b ≠ 0) (h : ¬FallsShort a b) : a.fmod b = a.tmod b := by
  rw [Int.fmod_def, fdiv_of_not_fallsShort hb h, Int.tmod_def]

/-- The quotient to the floor is one of 64 bits, but for the least integer divided by minus one. -/
theorem fits_fdiv_iff (ha : Fits a) (hb : b ≠ 0) : Fits (a.fdiv b) ↔ ¬(a = -2 ^ 63 ∧ b = -1) := by
  obtain ⟨hlow, hhigh⟩ := ha
  rw [Fits, ← not_lt]
  rcases Int.lt_or_gt_of_ne hb with hneg | hpos
  · rw [fdiv_lt_iff_of_neg hneg, fdiv_lt_iff_of_neg hneg]
    omega
  · rw [fdiv_lt_iff_of_pos hpos, fdiv_lt_iff_of_pos hpos]
    omega

theorem fdiv_neg_of_fallsShort (hb : b ≠ 0) (h : FallsShort a b) : a.fdiv b < 0 := by
  have hne : a ≠ 0 := fun ha => h.1 (ha ▸ dvd_zero b)
  have := h.2
  rcases Int.lt_or_gt_of_ne hb with hneg | hpos
  · rw [fdiv_lt_iff_of_neg hneg]
    omega
  · rw [fdiv_lt_iff_of_pos hpos]
    omega

theorem fits_of_fallsShort (ha : Fits a) (hb : b ≠ 0) (h : FallsShort a b) :
    Fits (a.fdiv b) ∧ Fits (a.tdiv b) := by
  have hfits : Fits (a.fdiv b) := (fits_fdiv_iff ha hb).2 fun hmin => h.1 (hmin.2 ▸ by simp)
  have hneg := fdiv_neg_of_fallsShort hb h
  refine ⟨hfits, ?_⟩
  rw [fdiv_of_fallsShort hb h] at hfits hneg
  exact ⟨by have := hfits.1; omega, by omega⟩

/-- The quotient toward zero is one of 64 bits just where the one to the floor is. -/
theorem fits_tdiv_iff (ha : Fits a) (hb : b ≠ 0) : Fits (a.tdiv b) ↔ Fits (a.fdiv b) := by
  by_cases h : FallsShort a b
  · have := fits_of_fallsShort ha hb h
    tauto
  · rw [fdiv_of_not_fallsShort hb h]

/-- What the quotient to the floor leaves is always one of 64 bits. -/
theorem fits_fmod (a : Int) (hb : b ≠ 0) (hfits : Fits b) : Fits (a.fmod b) := by
  obtain ⟨hlow, hhigh⟩ := hfits
  rw [Fits]
  rcases Int.lt_or_gt_of_ne hb with hneg | hpos
  · have := fmod_of_neg a hneg
    omega
  · have := Int.fmod_nonneg_of_pos a hpos
    have := Int.fmod_lt_of_pos a hpos
    omega

end Floor

/-! ## Quotients and remainders -/

section Divisions

variable {a b q r : Int64}

theorem toInt_ne_zero (hb : b ≠ 0) : b.toInt ≠ 0 :=
  fun h => hb (Int64.toInt_inj.1 h)

theorem lt_zero_iff : a < 0 ↔ a.toInt < 0 :=
  Int64.lt_iff_toInt_lt

theorem rest_eq_zero_iff : a % b = 0 ↔ b.toInt ∣ a.toInt := by
  rw [← Int64.toInt_inj, Int64.toInt_mod, Int.dvd_iff_tmod_eq_zero]
  rfl

/-- What the quotient leaves, where it leaves something, has the sign of the dividend. -/
theorem rest_lt_zero_iff (h : ¬b.toInt ∣ a.toInt) : a % b < 0 ↔ a < 0 := by
  rw [lt_zero_iff, lt_zero_iff, Int64.toInt_mod, ← Int.sign_eq_neg_one_iff_neg, Int.sign_tmod,
    if_neg h, Int.sign_eq_neg_one_iff_neg]

theorem aboveFloor_iff : aboveFloor a b = true ↔ FallsShort a.toInt b.toInt := by
  rw [aboveFloor, FallsShort, Bool.and_eq_true, bne_iff_ne, bne_iff_ne, ne_eq, ne_eq,
    rest_eq_zero_iff, decide_eq_decide, lt_zero_iff, lt_zero_iff]
  tauto

/-- The rest is against the divisor just where the quotient is above the floor. -/
theorem againstDivisor_rest : againstDivisor (a % b) b = aboveFloor a b := by
  rw [againstDivisor, aboveFloor]
  by_cases h : a % b = 0
  · rw [h]
    rfl
  · rw [decide_eq_decide.2 (rest_lt_zero_iff (rest_eq_zero_iff.not.1 h))]

theorem restInt_eq_ok (h : restInt a b = .ok r) : r = a % b := by
  rw [restInt] at h
  cases hq : quotientInt a b with
  | error e => rw [hq] at h; cases h
  | ok q => rw [hq] at h; cases h; rfl

/-- A quotient that is above the floor has another one below it. -/
theorem fits_sub_one (hb : b ≠ 0) (hq : quotientInt a b = .ok q) (habove : aboveFloor a b = true) :
    Fits (q.toInt - 1) := by
  rw [aboveFloor_iff] at habove
  rw [exactly_eq_ok_iff.1 hq, ← fdiv_of_fallsShort (toInt_ne_zero hb) habove]
  exact (fits_of_fallsShort (fits_toInt a) (toInt_ne_zero hb) habove).1

theorem fits_add_divisor (hb : b ≠ 0) (hr : restInt a b = .ok r)
    (hagainst : againstDivisor r b = true) : Fits (r.toInt + b.toInt) := by
  obtain rfl := restInt_eq_ok hr
  rw [againstDivisor_rest, aboveFloor_iff] at hagainst
  rw [Int64.toInt_mod, ← fmod_of_fallsShort (toInt_ne_zero hb) hagainst]
  exact fits_fmod _ (toInt_ne_zero hb) (fits_toInt b)

theorem floorDivInt_eq (hb : b ≠ 0) : floorDivInt a b = exactly (a.toInt.fdiv b.toInt) := by
  have hb' := toInt_ne_zero hb
  rw [floorDivInt, if_neg hb]
  cases hq : quotientInt a b with
  | error e =>
      obtain ⟨rfl, hfits⟩ := exactly_eq_error_iff.1 hq
      rw [fits_tdiv_iff (fits_toInt a) hb'] at hfits
      exact (exactly_of_not_fits hfits).symm
  | ok q =>
      have hquotient := exactly_eq_ok_iff.1 hq
      refine (exactly_of_toInt ?_).symm
      split_ifs with habove
      · rw [toInt_sub_of_fits (fits_sub_one hb hq habove), hquotient,
          fdiv_of_fallsShort hb' (aboveFloor_iff.1 habove)]
        rfl
      · rw [hquotient, fdiv_of_not_fallsShort hb' (aboveFloor_iff.not.1 habove)]

theorem modInt_of_overflow (hb : b ≠ 0) (hfits : ¬Fits (a.toInt.fdiv b.toInt)) :
    modInt a b = .error .overflow := by
  rw [← fits_tdiv_iff (fits_toInt a) (toInt_ne_zero hb)] at hfits
  rw [modInt, if_neg hb, restInt, quotientInt, exactly_of_not_fits hfits]
  rfl

theorem modInt_of_fits (hb : b ≠ 0) (hfits : Fits (a.toInt.fdiv b.toInt)) :
    modInt a b = exactly (a.toInt.fmod b.toInt) := by
  have hb' := toInt_ne_zero hb
  rw [← fits_tdiv_iff (fits_toInt a) hb'] at hfits
  have hr : restInt a b = .ok (a % b) := by
    rw [restInt, quotientInt, exactly_of_toInt (Int64.toInt_ofInt_of_le hfits.1 hfits.2)]
    rfl
  rw [modInt, if_neg hb, hr]
  refine (exactly_of_toInt ?_).symm
  split_ifs with hagainst
  · have hshort := aboveFloor_iff.1 (againstDivisor_rest ▸ hagainst)
    rw [toInt_add_of_fits (fits_add_divisor hb hr hagainst), Int64.toInt_mod,
      fmod_of_fallsShort hb' hshort]
  · rw [againstDivisor_rest, aboveFloor_iff] at hagainst
    rw [Int64.toInt_mod, fmod_of_not_fallsShort hb' hagainst]

/-- Where the divisor is not zero, the quotient and the rest are those of the division to the floor, or
both overflow. -/
theorem divides_or_overflows (hb : b ≠ 0) :
    (∃ q r, floorDivInt a b = .ok q ∧ modInt a b = .ok r ∧
        FloorDivides a.toInt b.toInt q.toInt r.toInt) ∨
      (¬Fits (a.toInt.fdiv b.toInt) ∧ floorDivInt a b = .error .overflow ∧
        modInt a b = .error .overflow) := by
  by_cases hfits : Fits (a.toInt.fdiv b.toInt)
  · have hq := Int64.toInt_ofInt_of_le hfits.1 hfits.2
    have hrest := fits_fmod a.toInt (toInt_ne_zero hb) (fits_toInt b)
    have hr := Int64.toInt_ofInt_of_le hrest.1 hrest.2
    refine .inl ⟨_, _, (floorDivInt_eq hb).trans (exactly_of_toInt hq),
      (modInt_of_fits hb hfits).trans (exactly_of_toInt hr), ?_⟩
    rw [hq, hr]
    exact floorDivides_fdiv a.toInt (toInt_ne_zero hb)
  · exact .inr ⟨hfits, (floorDivInt_eq hb).trans (exactly_of_not_fits hfits),
      modInt_of_overflow hb hfits⟩

theorem modInt_eq_overflow_iff (hb : b ≠ 0) :
    modInt a b = .error .overflow ↔ a = Int64.minValue ∧ b = -1 := by
  have hleast : a.toInt = -2 ^ 63 ∧ b.toInt = -1 ↔ a = Int64.minValue ∧ b = -1 :=
    and_congr (Int64.toInt_inj (y := Int64.minValue)) (Int64.toInt_inj (y := -1))
  rw [← hleast, ← not_iff_not, ← fits_fdiv_iff (fits_toInt a) (toInt_ne_zero hb)]
  obtain ⟨q, r, hq, hr, -⟩ | ⟨hfits, -, hr⟩ := divides_or_overflows (a := a) hb
  · rw [hr]
    rw [floorDivInt_eq hb] at hq
    exact iff_of_true nofun (exactly_eq_ok_iff.1 hq ▸ fits_toInt q)
  · exact iff_of_false (not_not_intro hr) hfits

theorem rest_of_quotient (h : floorDivInt a b = .ok q) :
    ∃ r, modInt a b = .ok r ∧ FloorDivides a.toInt b.toInt q.toInt r.toInt := by
  by_cases hb : b = 0
  · rw [floorDivInt, if_pos hb] at h
    cases h
  · obtain ⟨q', r, hq, hr, hdivides⟩ | ⟨-, hq, -⟩ := divides_or_overflows (a := a) hb
    · cases h.symm.trans hq
      exact ⟨r, hr, hdivides⟩
    · cases h.symm.trans hq

theorem quotient_of_rest (h : modInt a b = .ok r) :
    ∃ q, floorDivInt a b = .ok q ∧ FloorDivides a.toInt b.toInt q.toInt r.toInt := by
  by_cases hb : b = 0
  · rw [modInt, if_pos hb] at h
    cases h
  · obtain ⟨q, r', hq, hr, hdivides⟩ | ⟨-, -, hr⟩ := divides_or_overflows (a := a) hb
    · cases h.symm.trans hr
      exact ⟨q, hq, hdivides⟩
    · cases h.symm.trans hr

theorem divides_by_zero_iff :
    (floorDivInt a b = .error .zeroDivision ↔ b = 0) ∧
      (modInt a b = .error .zeroDivision ↔ b = 0) := by
  by_cases hb : b = 0
  · rw [floorDivInt, modInt, if_pos hb, if_pos hb]
    exact ⟨iff_of_true rfl hb, iff_of_true rfl hb⟩
  · obtain ⟨q, r, hq, hr, -⟩ | ⟨-, hq, hr⟩ := divides_or_overflows (a := a) hb
    all_goals
      rw [hq, hr]
      exact ⟨iff_of_false nofun hb, iff_of_false nofun hb⟩

end Divisions

/-! ## Operators on values -/

section Operators

variable {x y : Value} {a b : Int64}

theorem add_of_ints (hx : x.asInt? = some a) (hy : y.asInt? = some b) :
    binary .add x y = int <$> exactly (a.toInt + b.toInt) := by
  cases x <;> cases y <;> cases hx <;> cases hy <;> rfl

theorem sub_of_ints (hx : x.asInt? = some a) (hy : y.asInt? = some b) :
    binary .sub x y = int <$> exactly (a.toInt - b.toInt) := by
  rw [binary, arithmetic, hx, hy]

theorem mul_of_ints (hx : x.asInt? = some a) (hy : y.asInt? = some b) :
    binary .mul x y = int <$> exactly (a.toInt * b.toInt) := by
  cases x <;> cases y <;> cases hx <;> cases hy <;> rfl

theorem floorDiv_of_ints (hx : x.asInt? = some a) (hy : y.asInt? = some b) :
    binary .floorDiv x y = int <$> floorDivInt a b := by
  rw [binary, arithmetic, hx, hy]

theorem mod_of_ints (hx : x.asInt? = some a) (hy : y.asInt? = some b) :
    binary .mod x y = int <$> modInt a b := by
  rw [binary, arithmetic, hx, hy]

theorem neg_of_int (hx : x.asInt? = some a) : unary .neg x = int <$> exactly (-a.toInt) := by
  cases x <;> cases hx <;> rfl

theorem abs_of_int (hx : x.asInt? = some a) : Builtin.abs.apply [x] = int <$> exactly |a.toInt| := by
  rw [Int.abs_eq_natAbs]
  cases x <;> cases hx <;> rfl

/-- Whenever the operation gives a value, it is the integer `n`. -/
def GivesOnly (result : Except EvalError Value) (n : Int) : Prop :=
  ∀ v, result = .ok v → ∃ i : Int64, v = int i ∧ i.toInt = n

theorem map_eq_ok_iff {α β : Type} {f : α → β} {result : Except EvalError α} {v : β} :
    f <$> result = .ok v ↔ ∃ a, result = .ok a ∧ v = f a := by
  cases result <;> simp [eq_comm]

theorem map_eq_error_iff {α β : Type} {f : α → β} {result : Except EvalError α} {e : EvalError} :
    f <$> result = .error e ↔ result = .error e := by
  cases result <;> simp

theorem givesOnly_exactly (n : Int) : GivesOnly (int <$> exactly n) n := by
  intro v hv
  obtain ⟨i, hi, rfl⟩ := map_eq_ok_iff.1 hv
  exact ⟨i, rfl, exactly_eq_ok_iff.1 hi⟩

/-- Arithmetic on integers and truth values gives the exact result or none. A quotient is rounded to
the floor, and a remainder is what that quotient leaves; there is the one just where there is the
other, and only a divisor of zero is a division by zero. Neither the quotient less one nor the rest
with the divisor added leaves 64 bits, where the one or the other is taken. -/
theorem arithmetic_exact (hx : x.asInt? = some a) (hy : y.asInt? = some b) :
    (GivesOnly (binary .add x y) (a.toInt + b.toInt) ∧
      GivesOnly (binary .sub x y) (a.toInt - b.toInt) ∧
      GivesOnly (binary .mul x y) (a.toInt * b.toInt) ∧
      GivesOnly (unary .neg x) (-a.toInt) ∧
      GivesOnly (Builtin.abs.apply [x]) |a.toInt|) ∧
    ((∀ v, binary .floorDiv x y = .ok v → ∃ q r : Int64, v = int q ∧
        binary .mod x y = .ok (int r) ∧ FloorDivides a.toInt b.toInt q.toInt r.toInt) ∧
      ∀ w, binary .mod x y = .ok w → ∃ q r : Int64, w = int r ∧
        binary .floorDiv x y = .ok (int q) ∧ FloorDivides a.toInt b.toInt q.toInt r.toInt) ∧
    ((binary .floorDiv x y = .error .zeroDivision ↔ b = 0) ∧
      (binary .mod x y = .error .zeroDivision ↔ b = 0)) ∧
    (b ≠ 0 → (∀ q, quotientInt a b = .ok q → aboveFloor a b = true → Fits (q.toInt - 1)) ∧
      ∀ r, restInt a b = .ok r → againstDivisor r b = true → Fits (r.toInt + b.toInt)) := by
  rw [add_of_ints hx hy, sub_of_ints hx hy, mul_of_ints hx hy, neg_of_int hx, abs_of_int hx,
    floorDiv_of_ints hx hy, mod_of_ints hx hy]
  refine ⟨⟨givesOnly_exactly _, givesOnly_exactly _, givesOnly_exactly _, givesOnly_exactly _,
    givesOnly_exactly _⟩, ⟨fun v hv => ?_, fun w hw => ?_⟩, ?_,
    fun hb => ⟨fun q => fits_sub_one hb, fun r => fits_add_divisor hb⟩⟩
  · obtain ⟨q, hq, rfl⟩ := map_eq_ok_iff.1 hv
    obtain ⟨r, hr, hdivides⟩ := rest_of_quotient hq
    exact ⟨q, r, rfl, map_eq_ok_iff.2 ⟨r, hr, rfl⟩, hdivides⟩
  · obtain ⟨r, hr, rfl⟩ := map_eq_ok_iff.1 hw
    obtain ⟨q, hq, hdivides⟩ := quotient_of_rest hr
    exact ⟨q, r, rfl, map_eq_ok_iff.2 ⟨q, hq, rfl⟩, hdivides⟩
  · rw [map_eq_error_iff, map_eq_error_iff]
    exact divides_by_zero_iff

theorem arithmetic_exact_minusSeven :
    ∃ q r : Int64, int (-4) = int q ∧ binary .mod (int (-7)) (int 2) = .ok (int r) ∧
      FloorDivides (-7) 2 q.toInt r.toInt :=
  (arithmetic_exact (x := int (-7)) (y := int 2) rfl rfl).2.1.1 (int (-4)) rfl

/-- An operation on integers and truth values overflows just where its exact result does not fit 64
bits, but for a remainder: that always fits, and overflows nevertheless where the quotient does, for
the least integer divided by minus one. -/
theorem overflow_iff (hx : x.asInt? = some a) (hy : y.asInt? = some b) :
    ((binary .add x y = .error .overflow ↔ ¬Fits (a.toInt + b.toInt)) ∧
      (binary .sub x y = .error .overflow ↔ ¬Fits (a.toInt - b.toInt)) ∧
      (binary .mul x y = .error .overflow ↔ ¬Fits (a.toInt * b.toInt)) ∧
      (unary .neg x = .error .overflow ↔ ¬Fits (-a.toInt)) ∧
      (Builtin.abs.apply [x] = .error .overflow ↔ ¬Fits |a.toInt|)) ∧
    (b ≠ 0 →
      (binary .floorDiv x y = .error .overflow ↔ ¬Fits ⌊(a.toInt : ℚ) / b.toInt⌋) ∧
      Fits (a.toInt - ⌊(a.toInt : ℚ) / b.toInt⌋ * b.toInt) ∧
      (binary .mod x y = .error .overflow ↔ a = Int64.minValue ∧ b = -1)) := by
  rw [add_of_ints hx hy, sub_of_ints hx hy, mul_of_ints hx hy, neg_of_int hx, abs_of_int hx,
    floorDiv_of_ints hx hy, mod_of_ints hx hy]
  simp only [map_eq_error_iff]
  refine ⟨⟨exactly_eq_overflow_iff, exactly_eq_overflow_iff, exactly_eq_overflow_iff,
    exactly_eq_overflow_iff, exactly_eq_overflow_iff⟩, fun hb => ⟨?_, ?_, ?_⟩⟩
  · rw [floorDivInt_eq hb, exactly_eq_overflow_iff, floor_div]
  · have hrest := fits_fmod a.toInt (toInt_ne_zero hb) (fits_toInt b)
    rwa [Int.fmod_def, mul_comm, ← floor_div] at hrest
  · exact modInt_eq_overflow_iff hb

theorem overflow_iff_greatest :
    binary .add (int Int64.maxValue) (bool true) = .error .overflow ∧
      binary .mod (int Int64.minValue) (int (-1)) = .error .overflow := by
  have hadd := (overflow_iff (x := int Int64.maxValue) (y := bool true) rfl rfl).1.1
  have hmod := (overflow_iff (x := int Int64.minValue) (y := int (-1)) rfl rfl).2 (by decide)
  exact ⟨hadd.2 (by decide), hmod.2.2.2 ⟨rfl, rfl⟩⟩

/-- The least integer divided by minus one leaves nothing, and the remainder overflows. -/
theorem zero_rest_overflows :
    ¬(binary .mod (int Int64.minValue) (int (-1)) = .error .overflow ↔
      ¬Fits (Int64.minValue.toInt -
        ⌊(Int64.minValue.toInt : ℚ) / (-1 : Int64).toInt⌋ * (-1 : Int64).toInt)) := by
  rw [floor_div]
  exact fun h => h.1 rfl (by decide)

end Operators

end LiveUI.Value
