import DiscreteChoice.Proofs.Decimal.Shortest
import DiscreteChoice.Proofs.Numeric.DoubleReading

/-!
# Doubles are read back from their shortest decimals

A double stands for all numbers that are rounded to it. They reach halfway to the next double on either
side, and the gap below a power of two is half as wide as the gap above it. The interval in which the
shortest decimal is looked for is made of these numbers, so that the decimal is read as the double.

Main results:

- Theorem `Double.roundMagnitude_of_contains`: what lies in the interval of a double is rounded to it.
- Theorem `Double.contains_toDecimal`: the shortest decimal of a double lies in its interval.
- Theorem `Double.eq_of_toReal_eq`: a double is read back from every spelling of its decimal.
-/

namespace DiscreteChoice
namespace Double

open Decimal RoundingInterval

variable {m : ℕ} {e : ℤ} {narrow : Bool} {x : ℝ}

/-! ## The interval of a double -/

/-- How far the interval reaches below the number, in quarters of the last digit. -/
def quartersBelow (narrow : Bool) : ℕ :=
  if narrow then 1 else 2

theorem quartersBelow_le (narrow : Bool) : quartersBelow narrow ≤ 2 := by
  unfold quartersBelow
  split <;> norm_num

/-- A number in the interval, measured in units of the last digit. -/
structure IsNear (m : ℕ) (narrow : Bool) (y : ℝ) : Prop where
  low : (m : ℝ) - quartersBelow narrow / 4 ≤ y
  high : y ≤ m + 1 / 2
  even_or_lt : m % 2 = 0 ∨ (m : ℝ) - quartersBelow narrow / 4 < y ∧ y < m + 1 / 2

/-- What lies in the interval of a number is near to it. -/
theorem isNear_of_contains (hm : 0 < m) (h : (ofBinary m e narrow).Contains x) :
    IsNear m narrow (x / 2 ^ e) := by
  have hup : (0 : ℝ) < 2 ^ (e - 2).toNat := by positivity
  have hscaled : x * ((1 <<< (2 - e).toNat : ℕ) : ℝ) = 4 * (x / 2 ^ e) * 2 ^ (e - 2).toNat := by
    have hpower : (2 : ℝ) ^ (2 - e).toNat = 2 ^ (2 - e) * 2 ^ (e - 2).toNat := by
      rw [← zpow_natCast, ← zpow_natCast, ← zpow_add₀ two_ne_zero]
      congr 1
      omega
    rw [Nat.one_shiftLeft, Nat.cast_pow, Nat.cast_ofNat, hpower, zpow_sub₀ two_ne_zero]
    norm_num
    ring
  have hlow : (((4 * m - if narrow then 1 else 2) <<< (e - 2).toNat : ℕ) : ℝ) =
      (4 * m - quartersBelow narrow) * 2 ^ (e - 2).toNat := by
    have hle : quartersBelow narrow ≤ 4 * m := by
      have := quartersBelow_le narrow
      omega
    change (((4 * m - quartersBelow narrow) <<< (e - 2).toNat : ℕ) : ℝ) = _
    rw [Nat.shiftLeft_eq, Nat.cast_mul, Nat.cast_sub hle]
    push_cast
    rfl
  have hhigh : (((4 * m + 2) <<< (e - 2).toNat : ℕ) : ℝ) = (4 * m + 2) * 2 ^ (e - 2).toNat := by
    rw [Nat.shiftLeft_eq]
    push_cast
    rfl
  unfold Contains ofBinary at h
  simp only [hscaled, hlow, hhigh, mul_le_mul_iff_left₀ hup, mul_lt_mul_iff_left₀ hup,
    beq_iff_eq] at h
  split at h
  · rename_i heven
    exact ⟨by linarith, by linarith, .inl heven⟩
  · exact ⟨by linarith, by linarith, .inr ⟨by linarith, by linarith⟩⟩

/-- No gap is wider than one unit of the last digit. -/
theorem IsNear.half_le {y : ℝ} (h : IsNear m narrow y) : (m : ℝ) - 1 / 2 ≤ y := by
  have hlow := h.low
  have hquarters : (quartersBelow narrow : ℝ) ≤ 2 := by exact_mod_cast quartersBelow_le narrow
  linarith

/-- A number near to a significand is rounded to it. -/
theorem IsNear.nearest_eq {y : ℝ} (h : IsNear m narrow y) (hm : 0 < m) : nearest y = m := by
  have hone : (1 : ℝ) ≤ m := by exact_mod_cast hm
  have hhalf := h.half_le
  refine Double.nearest_eq (by linarith) hhalf h.high (h.even_or_lt.imp_right ?_)
  rintro ⟨hlow, hhigh⟩
  refine ⟨?_, hhigh⟩
  have hquarters : (quartersBelow narrow : ℝ) ≤ 2 := by exact_mod_cast quartersBelow_le narrow
  linarith

/-- Below a power of two the last digit stands one place further behind. -/
theorem roundMagnitude_below {y : ℝ} (hx : 0 < x) (he : -1074 < e) (hy : x / 2 ^ e = y)
    (hlow : (2 : ℝ) ^ 52 - 1 / 4 ≤ y) (hhigh : y < 2 ^ 52) :
    roundMagnitude x = magnitude (2 ^ 52) e := by
  have hhalved : x / 2 ^ (e - 1) = 2 * y := by
    rw [← hy, zpow_sub_one₀ two_ne_zero]
    field_simp
  have hnearest : nearest (2 * y) = 2 ^ 53 := by
    refine Double.nearest_eq (by linarith) ?_ ?_ (.inl (by norm_num))
    · push_cast
      linarith
    · push_cast
      linarith
  rw [roundMagnitude_eq (e := e - 1) hx (by omega) (by rw [hhalved]; linarith)
    (.inl (by rw [hhalved]; linarith)), hhalved, hnearest, magnitude, magnitude,
    zpow_sub_one₀ two_ne_zero]
  push_cast
  ring

/-- What lies in the interval of a double is rounded to it. -/
theorem roundMagnitude_of_contains (hm : 0 < m) (hupper : m < 2 ^ 53) (hlower : -1074 ≤ e)
    (hcanonical : 2 ^ 52 ≤ m ∨ e = -1074) (hnarrow : narrow = true ↔ m = 2 ^ 52 ∧ -1074 < e)
    (h : (ofBinary m e narrow).Contains x) : roundMagnitude x = magnitude m e := by
  have hnear := isNear_of_contains hm h
  have hone : (1 : ℝ) ≤ m := by exact_mod_cast hm
  have hlimit : (m : ℝ) + 1 ≤ 2 ^ 53 := by exact_mod_cast hupper
  have hhalf := hnear.half_le
  have hx : 0 < x := by
    have hquotient : 0 < x / 2 ^ e := by linarith
    exact (div_pos_iff_of_pos_right (by positivity)).mp hquotient
  by_cases hbelow : m = 2 ^ 52 ∧ -1074 < e ∧ x / 2 ^ e < 2 ^ 52
  · rcases hbelow with ⟨rfl, he, hlt⟩
    have hlow := hnear.low
    rw [hnarrow.mpr ⟨rfl, he⟩, quartersBelow, if_pos rfl] at hlow
    rw [Nat.cast_pow, Nat.cast_ofNat, Nat.cast_one] at hlow
    exact roundMagnitude_below hx he rfl hlow hlt
  · have hdigits : 2 ^ 52 ≤ x / 2 ^ e ∨ e = -1074 := by
      rcases hcanonical with hlarge | he
      · rcases hlarge.eq_or_lt with hleast | hmore
        · by_contra hnot
          rw [not_or, not_le] at hnot
          exact hbelow ⟨hleast.symm, by omega, hnot.1⟩
        · have hmore : (2 : ℝ) ^ 52 + 1 ≤ m := by exact_mod_cast hmore
          exact .inl (by linarith)
      · exact .inr he
    have hhigh := hnear.high
    rw [roundMagnitude_eq hx hlower (by linarith) hdigits, hnear.nearest_eq hm]

/-! ## Reading back -/

variable {x : Float}

/-- The number lies between the ends of the interval. -/
theorem isProper_ofBinary (hm : 0 < m) : (ofBinary m e narrow).IsProper := by
  have hpower : 0 < 2 ^ (e - 2).toNat := Nat.two_pow_pos _
  refine ⟨?_, ?_, ?_⟩
  · change (4 * m - quartersBelow narrow) <<< (e - 2).toNat < (4 * m) <<< (e - 2).toNat
    have hpos : 0 < quartersBelow narrow := by
      unfold quartersBelow
      split <;> norm_num
    rw [Nat.shiftLeft_eq, Nat.shiftLeft_eq]
    exact Nat.mul_lt_mul_of_pos_right (by omega) hpower
  · change (4 * m) <<< (e - 2).toNat < (4 * m + 2) <<< (e - 2).toNat
    rw [Nat.shiftLeft_eq, Nat.shiftLeft_eq]
    exact Nat.mul_lt_mul_of_pos_right (by omega) hpower
  · change 0 < 1 <<< (2 - e).toNat
    rw [Nat.one_shiftLeft]
    exact Nat.two_pow_pos _

/-- The interval is wide enough for seventeen digits. -/
theorem ofBinary_wide (hupper : m < 2 ^ 53) (hnarrow : narrow = true → m = 2 ^ 52) :
    (ofBinary m e narrow).value + 10 ^ 16 * (ofBinary m e narrow).low <
      10 ^ 16 * (ofBinary m e narrow).high := by
  have hpower : 0 < 2 ^ (e - 2).toNat := Nat.two_pow_pos _
  have hdigits : 4 * m + 10 ^ 16 * (4 * m - quartersBelow narrow) < 10 ^ 16 * (4 * m + 2) := by
    unfold quartersBelow
    split
    · rename_i htrue
      rw [hnarrow htrue]
      norm_num
    · omega
  have hscaled := Nat.mul_lt_mul_of_pos_right hdigits hpower
  rw [add_mul, mul_assoc (10 ^ 16), mul_assoc (10 ^ 16)] at hscaled
  change (4 * m) <<< (e - 2).toNat + 10 ^ 16 * ((4 * m - quartersBelow narrow) <<< (e - 2).toNat) <
    10 ^ 16 * ((4 * m + 2) <<< (e - 2).toNat)
  rwa [Nat.shiftLeft_eq, Nat.shiftLeft_eq, Nat.shiftLeft_eq]

/-- The shortest decimal of a double lies in its interval. -/
theorem contains_toDecimal (hx : x.isFinite = true) (hne : 0 < (parts x).significand) :
    (ofBinary (parts x).significand (parts x).exponent (parts x).narrowBelow).Contains
      (toDecimal x).toReal := by
  rcases isCanonical_parts hx with ⟨hupper, -, -, -⟩
  rw [toDecimal, if_neg hne.ne']
  exact contains_shortest (isProper_ofBinary hne)
    (ofBinary_wide hupper fun htrue => ((narrowBelow_iff x).mp htrue).1)

/-- The decimal of a double is rounded to its magnitude. -/
theorem roundMagnitude_toReal_toDecimal (hx : x.isFinite = true) (hne : 0 < (parts x).significand) :
    roundMagnitude (toDecimal x).toReal = magnitude (parts x).significand (parts x).exponent := by
  rcases isCanonical_parts hx with ⟨hupper, hlower, -, hcanonical⟩
  exact roundMagnitude_of_contains hne hupper hlower hcanonical (narrowBelow_iff x)
    (contains_toDecimal hx hne)

/-- The decimal of a double that is not zero is read as its magnitude. -/
theorem denotes_magnitude (hx : x.isFinite = true) (hne : 0 < (parts x).significand) {d : Decimal}
    (hd : d.toReal = (toDecimal x).toReal) :
    Denotes (ofDecimal d.digits d.exponent)
      (magnitude (parts x).significand (parts x).exponent : ℝ) := by
  have hread := denotes_ofDecimal d.digits d.exponent
  rcases isCanonical_parts hx with ⟨hupper, -, hlimit, hcanonical⟩
  have hnonneg : 0 ≤ (toDecimal x).toReal := by
    unfold toReal
    positivity
  change Denotes _ (round (d.toReal : EReal)) at hread
  rw [hd, round_coe, roundReal, if_pos hnonneg, roundMagnitude_toReal_toDecimal hx hne,
    bounded_magnitude hupper hcanonical, if_pos hlimit] at hread
  exact hread

/-- A double is read back, up to its sign, from every spelling of the number of its decimal, and the
sign is put back by taking the opposite. -/
theorem eq_of_toReal_eq (hx : x.isFinite = true) {d : Decimal}
    (hd : d.toReal = (toDecimal x).toReal) :
    x = if (parts x).negative then -ofDecimal d.digits d.exponent
      else ofDecimal d.digits d.exponent := by
  rcases Nat.eq_zero_or_pos (parts x).significand with hzero | hne
  · have hdigits : d.digits = 0 := by
      rw [toDecimal, if_pos hzero, toReal_def, toReal_def, Nat.cast_zero, zero_mul, mul_eq_zero,
        Nat.cast_eq_zero] at hd
      exact hd.resolve_right (zpow_ne_zero _ (by norm_num))
    have hplain : ofDecimal d.digits d.exponent = 0 := by rw [ofDecimal, if_pos hdigits]
    rw [hplain]
    exact eq_zero_of_significand hx hzero
  · have hread := denotes_magnitude hx hne hd
    have hvalue := value_eq_signed hx
    split
    · rename_i hnegative
      rw [Parts.sign, if_pos hnegative] at hvalue
      have hopposite := denotes_neg hread.1
      rw [hread.2, ← signed, ← hvalue] at hopposite
      exact (eq_of_denotes hx hne hopposite).symm
    · rename_i hpositive
      rw [Parts.sign, if_neg hpositive, signed] at hvalue
      rw [← hvalue] at hread
      exact (eq_of_denotes hx hne hread).symm

end Double
end DiscreteChoice
