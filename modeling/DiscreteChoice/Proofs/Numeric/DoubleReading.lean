import DiscreteChoice.Proofs.Decimal.Value
import DiscreteChoice.Proofs.Numeric.DoubleBits
import DiscreteChoice.Proofs.Numeric.DoublePrecision

/-!
# Doubles read from decimals

The double that is read from a decimal is the one next to its number. Small decimals are multiplied or
divided by a power of ten that is a double itself, and all others are rounded once. What is far out of
range is settled without the power of ten.

Main results:

- Theorem `Double.denotes_ofScientific`: digits with a power of ten are correctly rounded.
- Theorem `Double.denotes_ofDecimal`: every decimal is correctly rounded.
-/

namespace DiscreteChoice
namespace Double

open Float.Model UnpackedFloat

/-! ## Magnitudes that are easily rounded -/

/-- A number at most one half away from a whole number is rounded to it, and halfway when the whole
number is even. -/
theorem nearest_eq {y : ℝ} {n : ℕ} (hy : 0 ≤ y) (hlow : (n : ℝ) - 1 / 2 ≤ y)
    (hhigh : y ≤ n + 1 / 2) (heven : n % 2 = 0 ∨ (n : ℝ) - 1 / 2 < y ∧ y < n + 1 / 2) :
    nearest y = n := by
  rcases le_or_gt (n : ℝ) y with habove | hbelow
  · have hfloor : ⌊y⌋₊ = n := (Nat.floor_eq_iff hy).mpr ⟨habove, by linarith⟩
    unfold nearest
    rw [hfloor]
    split_ifs with hless hmore
    · rfl
    · linarith
    · rcases heven with heven | ⟨-, hhigh⟩
      · omega
      · linarith
  · have hpos : 1 ≤ n := by
      by_contra hzero
      rw [Nat.lt_one_iff.mp (not_le.mp hzero), Nat.cast_zero] at hbelow
      linarith
    have hcast : ((n - 1 : ℕ) : ℝ) = n - 1 := by rw [Nat.cast_sub hpos, Nat.cast_one]
    have hfloor : ⌊y⌋₊ = n - 1 := (Nat.floor_eq_iff hy).mpr ⟨by linarith, by linarith⟩
    unfold nearest
    rw [hfloor, hcast]
    split_ifs with hless hmore
    · linarith
    · omega
    · rcases heven with heven | ⟨hlow, -⟩
      · omega
      · linarith

/-- A magnitude is rounded to the whole number of units next to it when the digits above the unit are
as many as a double has. -/
theorem roundMagnitude_eq {x : ℝ} {e : ℤ} (hx : 0 < x) (he : -1074 ≤ e) (hhigh : x / 2 ^ e < 2 ^ 53)
    (hlow : 2 ^ 52 ≤ x / 2 ^ e ∨ e = -1074) :
    roundMagnitude x = magnitude (nearest (x / 2 ^ e)) e := by
  have hpower : (0 : ℝ) < 2 ^ e := by positivity
  rw [div_lt_iff₀ hpower, ← zpow_natCast, ← zpow_add₀ two_ne_zero] at hhigh
  rw [le_div_iff₀ hpower, ← zpow_natCast, ← zpow_add₀ two_ne_zero] at hlow
  have habove : Int.log 2 x < (53 : ℕ) + e :=
    (Int.lt_zpow_iff_log_lt (by norm_num) hx).mp (by exact_mod_cast hhigh)
  have hdigit : lastDigit x = e := by
    rw [lastDigit]
    rcases hlow with hlow | rfl
    · have hbelow : (52 : ℕ) + e ≤ Int.log 2 x :=
        (Int.zpow_le_iff_le_log (by norm_num) hx).mp (by exact_mod_cast hlow)
      omega
    · omega
  rw [roundMagnitude, hdigit]

/-- A whole number is a magnitude. -/
theorem magnitude_zero_right (m : ℕ) : magnitude m 0 = m := by
  rw [magnitude, zpow_zero, mul_one]

/-- A magnitude that ends at or above its last digit is not changed by rounding. -/
theorem roundMagnitude_of_lastDigit_le {m : ℕ} {e : ℤ} (h : lastDigit (magnitude m e) ≤ e) :
    roundMagnitude (magnitude m e) = magnitude m e := by
  have hdigits := magnitude_decreaseExponent m e (lastDigit (magnitude m e))
  have hexponent : (decreaseExponent m e (lastDigit (magnitude m e))).2 =
      lastDigit (magnitude m e) := by
    unfold decreaseExponent
    simp only
    omega
  rw [hexponent] at hdigits
  have hwhole := (congrArg (· / (2 : ℝ) ^ lastDigit (magnitude m e)) hdigits).symm.trans
    (magnitude_div _ _)
  rw [roundMagnitude, hwhole, nearest_natCast, hdigits]

/-- What reaches the power of two behind the largest double is infinite. -/
theorem round_of_le {x : ℝ} (h : (2 : ℝ) ^ (1024 : ℤ) ≤ x) : round x = ⊤ := by
  have hpos : (0 : ℝ) ≤ 2 ^ (1024 : ℤ) := by positivity
  have hexact : roundMagnitude (2 ^ (1024 : ℤ)) = 2 ^ (1024 : ℤ) := by
    have hpower : (2 : ℝ) ^ (1024 : ℤ) = magnitude (2 ^ 52) 972 := by
      rw [magnitude, Nat.cast_pow, Nat.cast_ofNat, ← zpow_natCast, ← zpow_add₀ two_ne_zero]
      norm_num
    rw [hpower]
    exact roundMagnitude_magnitude (by norm_num) (by norm_num) (by norm_num) (.inl le_rfl)
  rw [round_coe, roundReal, if_pos (hpos.trans h), bounded, if_pos]
  rw [← hexact]
  exact roundMagnitude_mono hpos h

/-- What is below half of the smallest double is rounded to zero. -/
theorem round_of_lt {x : ℝ} (hx : 0 ≤ x) (h : x < 2 ^ (-1075 : ℤ)) : round x = 0 := by
  rcases hx.eq_or_lt with rfl | hpos
  · rw [EReal.coe_zero, round_zero]
  have hsmallest : (2 : ℝ) ^ (-1074 : ℤ) = 2 * 2 ^ (-1075 : ℤ) := by
    rw [← zpow_one_add₀ two_ne_zero]
    norm_num
  have hhalf : x / 2 ^ (-1074 : ℤ) < 1 / 2 := by
    rw [hsmallest, div_lt_iff₀ (by positivity)]
    linarith
  have hnone : nearest (x / 2 ^ (-1074 : ℤ)) = 0 := by
    have hquotient : 0 ≤ x / 2 ^ (-1074 : ℤ) := by positivity
    refine nearest_eq hquotient ?_ ?_ (.inl rfl)
    · rw [Nat.cast_zero]
      linarith
    · rw [Nat.cast_zero]
      linarith
  rw [round_coe, roundReal, if_pos hx, roundMagnitude_eq hpos le_rfl (hhalf.trans (by norm_num))
    (.inr rfl), hnone]
  simp [magnitude]

/-! ## Powers of ten -/

/-- A power of ten is at least the power of two. -/
theorem two_zpow_le_ten_zpow {n : ℤ} (hn : 0 ≤ n) : (2 : ℝ) ^ n ≤ 10 ^ n :=
  zpow_le_zpow_left₀ hn zero_le_two (by norm_num)

/-- A power of one tenth is at most the power of one half. -/
theorem ten_zpow_le_two_zpow {n : ℤ} (hn : n ≤ 0) : (10 : ℝ) ^ n ≤ 2 ^ n := by
  rw [← neg_neg n, zpow_neg, zpow_neg (2 : ℝ)]
  exact inv_anti₀ (by positivity) (two_zpow_le_ten_zpow (by omega))

/-- What reaches a large power of ten is infinite. -/
theorem round_of_ten_zpow_le {x : ℝ} {e : ℤ} (he : 310 ≤ e) (hx : 10 ^ e ≤ x) : round x = ⊤ := by
  refine round_of_le ?_
  have hlimit : (2 : ℕ) ^ 1024 ≤ 10 ^ 310 := by decide +kernel
  calc (2 : ℝ) ^ (1024 : ℤ) ≤ 10 ^ (310 : ℤ) := by exact_mod_cast hlimit
    _ ≤ 10 ^ e := zpow_le_zpow_right₀ (by norm_num) he
    _ ≤ x := hx

/-- What is below a small power of ten is rounded to zero. -/
theorem round_of_lt_ten_zpow {x : ℝ} {e : ℤ} (hx : 0 ≤ x) (he : e ≤ -330) (hlt : x < 10 ^ e) :
    round x = 0 := by
  refine round_of_lt hx ?_
  have hlimit : (2 : ℕ) ^ 1075 ≤ 10 ^ 330 := by decide +kernel
  calc x < 10 ^ e := hlt
    _ ≤ 10 ^ (-330 : ℤ) := zpow_le_zpow_right₀ (by norm_num) he
    _ ≤ (2 : ℝ) ^ (-1075 : ℤ) := by
        rw [zpow_neg, zpow_neg]
        exact inv_anti₀ (by positivity) (by exact_mod_cast hlimit)

/-! ## Digits with a power of ten -/

/-- Digits with a power of ten that takes them all far below the smallest double are rounded to zero. -/
theorem round_of_lt_log2 {m : ℕ} {e : ℤ} (h : e < -(2048 + (Nat.log2 m : ℤ))) :
    round ((m * 10 ^ e : ℝ) : EReal) = 0 := by
  have hdigits : (m : ℝ) < 2 ^ ((Nat.log2 m : ℤ) + 1) := by
    exact_mod_cast Nat.lt_log2_self
  refine round_of_lt (by positivity) ?_
  calc m * 10 ^ e < (2 : ℝ) ^ ((Nat.log2 m : ℤ) + 1) * 10 ^ e := by gcongr
    _ ≤ (2 : ℝ) ^ ((Nat.log2 m : ℤ) + 1) * 2 ^ e := by
        gcongr
        exact ten_zpow_le_two_zpow (by omega)
    _ = (2 : ℝ) ^ ((Nat.log2 m : ℤ) + 1 + e) := (zpow_add₀ two_ne_zero _ _).symm
    _ ≤ (2 : ℝ) ^ (-1075 : ℤ) := zpow_le_zpow_right₀ one_le_two (by omega)

/-- Digits that are multiplied by a power of ten are exact before they are rounded. -/
theorem denotes_multiplied {m : ℕ} (hm : 0 < m) (n : ℕ) :
    Denotes (ofForm (roundWithAccuracy Format.binary64 .positive (m <<< 53 * 10 ^ n) (-53 + 0) .exact))
      (round ((m * 10 ^ n : ℝ) : EReal)) := by
  have hpos : 0 < m <<< 53 * 10 ^ n := by
    rw [Nat.shiftLeft_eq]
    positivity
  have hexact : magnitude (m <<< 53 * 10 ^ n) (-53 + 0) = m * 10 ^ n := by
    have hscale : (2 : ℝ) ^ 53 * 2 ^ (-53 + 0 : ℤ) = 1 := by norm_num
    rw [magnitude, Nat.shiftLeft_eq, Nat.cast_mul, Nat.cast_mul, Nat.cast_pow, Nat.cast_pow,
      Nat.cast_ofNat, Nat.cast_ofNat, mul_right_comm, mul_assoc (m : ℝ), hscale, mul_one]
  have hdigit : (-53 + 0 : ℤ) ≤ lastDigit (magnitude (m <<< 53 * 10 ^ n) (-53 + 0)) := by
    have hbits : 53 ≤ Nat.log2 (m <<< 53 * 10 ^ n) := by
      rw [Nat.le_log2 hpos.ne', Nat.shiftLeft_eq, mul_right_comm]
      exact Nat.le_mul_of_pos_left _ (by positivity)
    rw [lastDigit_magnitude hpos]
    omega
  have hread := (reads_exact (m <<< 53 * 10 ^ n) (-53 + 0)).denotes (magnitude_pos _ hpos) hdigit
    .positive
  rw [hexact] at hread
  exact hread

/-- Digits that are divided by a power of ten are rounded once. -/
theorem denotes_divided {m : ℕ} (hm : 0 < m) (n : ℕ) (hpower : 0 < 10 ^ n) :
    Denotes (ofForm (UnpackedFloat.div Format.binary64 (.finite .positive m 0 hm)
        (.finite .positive (10 ^ n) 0 hpower)))
      (round ((m / 10 ^ n : ℝ) : EReal)) := by
  have hdiv := (reads_divCore (m := m) (n := 10 ^ n) 0 0 hpower).denotes
    (div_pos (magnitude_pos 0 hm) (magnitude_pos 0 hpower)) (divCore_le_lastDigit 0 0 hm hpower)
    .positive
  rw [magnitude_zero_right, magnitude_zero_right, Nat.cast_pow, Nat.cast_ofNat] at hdiv
  exact hdiv

/-- Digits that are multiplied or divided by a power of ten are rounded once. -/
theorem denotes_ofScientific_form (m : ℕ) (e : ℤ) :
    Denotes (ofForm (UnpackedFloat.ofScientific Format.binary64 m e))
      (round ((m * 10 ^ e : ℝ) : EReal)) := by
  unfold UnpackedFloat.ofScientific
  split_ifs with hm hlarge hsmall hwhole
  · have hzero : ((m * 10 ^ e : ℝ) : EReal) = 0 := by simp [hm]
    rw [hzero, round_zero]
    exact denotes_zero .positive
  · have hlarge : 2048 < e := hlarge
    have hone : (1 : ℝ) ≤ m := by exact_mod_cast Nat.one_le_iff_ne_zero.mpr hm
    rw [round_of_ten_zpow_le (by omega) (le_mul_of_one_le_left (by positivity) hone)]
    exact denotes_infinity .positive
  · rw [round_of_lt_log2 hsmall]
    exact denotes_zero .positive
  · have hproduct := denotes_multiplied (Nat.pos_of_ne_zero hm) e.toNat
    rw [← zpow_natCast, Int.toNat_of_nonneg hwhole] at hproduct
    exact hproduct
  · have hquotient := denotes_divided (Nat.pos_of_ne_zero hm) (-e).toNat (by positivity)
    rw [← zpow_natCast, Int.toNat_of_nonneg (by omega), div_eq_mul_inv, ← zpow_neg, neg_neg]
      at hquotient
    exact hquotient

/-- A whole number within the limit of the digits is not changed by rounding. -/
theorem round_natCast {m : ℕ} (hm : m < 2 ^ 53) : round ((m : ℝ) : EReal) = (m : ℝ) := by
  have hexact : roundMagnitude m = m := by
    rcases Nat.eq_zero_or_pos m with rfl | hpos
    · simp
    · have hbits : Nat.log2 m < 53 := (Nat.log2_lt hpos.ne').mpr hm
      rw [← magnitude_zero_right]
      refine roundMagnitude_of_lastDigit_le ?_
      rw [lastDigit_magnitude hpos]
      omega
  have hsmall : (m : ℝ) < 2 ^ (1024 : ℤ) := by
    calc (m : ℝ) < 2 ^ (53 : ℤ) := by exact_mod_cast hm
      _ ≤ 2 ^ (1024 : ℤ) := zpow_le_zpow_right₀ one_le_two (by norm_num)
  rw [round_coe, roundReal, if_pos m.cast_nonneg, hexact, bounded, if_neg (not_le.mpr hsmall)]

/-- A whole number within the limit of the digits is a double. -/
theorem denotes_toFloat {m : ℕ} (hm : m < 2 ^ 53) : Denotes m.toUInt64.toFloat (m : ℝ) := by
  have hword : m.toUInt64.toNat = m := by
    rw [Nat.toUInt64_eq, UInt64.toNat_ofNat']
    omega
  have hform : m.toUInt64.toFloat =
      ofForm (UnpackedFloat.normalize Format.binary64 (m.toUInt64.toNat : ℤ) 0 .positive) := rfl
  have hread := denotes_normalize (m : ℤ) 0 .positive
  rw [Int.cast_natCast, zpow_zero, mul_one, round_natCast hm] at hread
  rwa [hform, hword]

/-- Entries of the table of powers of ten are whole numbers of units, without a sign. -/
theorem parts_powerOfTen : ∀ e : Fin Float.exactlyRepresentablePowersOfTen.size,
    let x := Float.exactlyRepresentablePowersOfTen[e]
    x.isFinite = true ∧ (parts x).negative = false ∧
      (parts x).significand * 2 ^ (parts x).exponent.toNat =
        10 ^ (e : ℕ) * 2 ^ (-(parts x).exponent).toNat := by
  decide

/-- The powers of ten in the table are doubles. -/
theorem denotes_powerOfTen (e : Fin Float.exactlyRepresentablePowersOfTen.size) :
    Denotes Float.exactlyRepresentablePowersOfTen[e] (10 ^ (e : ℕ) : ℝ) := by
  rcases parts_powerOfTen e with ⟨hfinite, hpositive, hdigits⟩
  have hsign : (parts Float.exactlyRepresentablePowersOfTen[e]).sign = .positive := by
    rw [Parts.sign, if_neg (by rw [hpositive]; exact Bool.false_ne_true)]
  refine ⟨((isFinite_iff _).mp hfinite).1, ?_⟩
  have hscale (k : ℤ) : (2 : ℝ) ^ k.toNat = 2 ^ (-k).toNat * 2 ^ k := by
    rw [← zpow_natCast, ← zpow_natCast, ← zpow_add₀ two_ne_zero]
    congr 1
    omega
  have hvalue : magnitude (parts Float.exactlyRepresentablePowersOfTen[e]).significand
      (parts Float.exactlyRepresentablePowersOfTen[e]).exponent = 10 ^ (e : ℕ) := by
    generalize parts Float.exactlyRepresentablePowersOfTen[e] = p at hdigits ⊢
    have hdigits : (p.significand : ℝ) * 2 ^ p.exponent.toNat =
        10 ^ (e : ℕ) * 2 ^ (-p.exponent).toNat := by
      exact_mod_cast hdigits
    rw [hscale, ← mul_assoc, mul_right_comm] at hdigits
    exact mul_right_cancel₀ (by positivity) hdigits
  rw [value_eq_signed hfinite, hsign, hvalue]
  rfl

/-- Digits and powers of ten that are doubles are multiplied or divided with one rounding. -/
theorem denotes_fast {m e : ℕ} (hm : m < 2 ^ 53)
    (he : e < Float.exactlyRepresentablePowersOfTen.size) :
    Denotes (m.toUInt64.toFloat * Float.exactlyRepresentablePowersOfTen[e])
        (round ((m * 10 ^ e : ℝ) : EReal)) ∧
      Denotes (m.toUInt64.toFloat / Float.exactlyRepresentablePowersOfTen[e])
        (round ((m / 10 ^ e : ℝ) : EReal)) := by
  rcases denotes_toFloat hm with ⟨hdigits, hdigitsValue⟩
  rcases denotes_powerOfTen ⟨e, he⟩ with ⟨hpower, hpowerValue⟩
  have hinfinite {x : Float} {r : ℝ} (hx : value x = r) : ¬(value x = ⊤ ∨ value x = ⊥) := by
    rw [hx]
    exact not_or.mpr ⟨EReal.coe_ne_top r, EReal.coe_ne_bot r⟩
  constructor
  · have hproduct := denotes_mul hdigits hpower (fun h => hinfinite hpowerValue h.2)
      (fun h => hinfinite hdigitsValue h.1)
    rwa [hdigitsValue, hpowerValue, ← EReal.coe_mul] at hproduct
  · have hquotient := denotes_div hdigits hpower (fun h => hinfinite hpowerValue h.2)
      (by rw [hpowerValue]; exact EReal.coe_ne_zero.mpr (by positivity))
    rwa [hdigitsValue, hpowerValue, ← EReal.coe_div] at hquotient

/-- Digits with a power of ten are correctly rounded. -/
theorem denotes_ofScientific (m : ℕ) (isDivisor : Bool) (e : ℕ) :
    Denotes (Float.ofScientific m isDivisor e)
      (round ((m * 10 ^ (if isDivisor then -e else e : ℤ) : ℝ) : EReal)) := by
  unfold Float.ofScientific
  split_ifs with hfast hdivisor hdivisor
  · rw [zpow_neg, zpow_natCast, ← div_eq_mul_inv]
    exact (denotes_fast hfast.1 (Nat.lt_succ_of_le hfast.2)).2
  · rw [zpow_natCast]
    exact (denotes_fast hfast.1 (Nat.lt_succ_of_le hfast.2)).1
  · have hneg : Int.negOfNat e = -(e : ℤ) := Int.negOfNat_eq
    rw [← hneg]
    exact denotes_ofScientific_form m (Int.negOfNat e)
  · exact denotes_ofScientific_form m e

/-- Every decimal is correctly rounded. -/
theorem denotes_ofDecimal (digits : ℕ) (exponent : ℤ) :
    Denotes (ofDecimal digits exponent)
      (round ((digits * 10 ^ exponent : ℝ) : EReal)) := by
  rw [ofDecimal]
  split_ifs with hzero hlarge hsmall
  · have hvalue : round ((digits * 10 ^ exponent : ℝ) : EReal) = 0 := by simp [hzero]
    rw [hvalue]
    exact ⟨by decide, value_zero⟩
  · -- the first digit stands too high
    have hcount := Decimal.digitCount_pos digits
    have hfirst : (10 : ℝ) ^ ((Decimal.digitCount digits : ℤ) - 1) ≤ digits := by
      rw [← Nat.cast_one, ← Nat.cast_sub hcount, zpow_natCast]
      exact_mod_cast Decimal.pow_digitCount_le (Nat.pos_of_ne_zero hzero)
    rw [round_of_ten_zpow_le (e := (Decimal.digitCount digits : ℤ) - 1 + exponent) (by omega)]
    · exact denotes_infinity_top
    · rw [zpow_add₀ (by norm_num)]
      gcongr
  · -- all digits stand too low
    have hbound : (digits : ℝ) < 10 ^ (Decimal.digitCount digits : ℤ) := by
      rw [zpow_natCast]
      exact_mod_cast Decimal.lt_pow_digitCount digits
    rw [round_of_lt_ten_zpow (e := Decimal.digitCount digits + exponent) (by positivity) (by omega)]
    · exact ⟨by decide, value_zero⟩
    · rw [zpow_add₀ (by norm_num)]
      gcongr
  · have hread := denotes_ofScientific digits (exponent < 0) exponent.natAbs
    have hexponent : (if decide (exponent < 0) = true then -(exponent.natAbs : ℤ)
        else exponent.natAbs) = exponent := by
      split_ifs with hneg <;> simp only [decide_eq_true_eq] at hneg <;> omega
    rw [hexponent] at hread
    exact hread

end Double
end DiscreteChoice
