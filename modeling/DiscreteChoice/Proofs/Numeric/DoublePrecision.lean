import DiscreteChoice.Proofs.Numeric.DoubleArithmetic
import DiscreteChoice.Proofs.Numeric.Precision

/-!
# How precise doubles are

A double has 53 digits, so that rounding a number changes it by at most one part in `2 ^ 53`, and every
rounded number is that of a double. An exponential and a logarithm that are rounded correctly are as
precise as the choice models rely on.

Main results:

- Theorem `Double.round_near`: how far a rounded number is from the exact one.
- Instance `PreciseNumeric (With library)`: doubles are precise.
- Theorem `Double.exists_denotes_round`: every number has a double next to it.
- Theorem `Double.accurate_nearest`: correctly rounded functions are accurate.
-/

namespace DiscreteChoice
namespace Double

open Float.Model UnpackedFloat

/-! ## The error of rounding -/

/-- The next whole number is at most one half away. -/
theorem abs_nearest_sub_le {y : ℝ} (hy : 0 ≤ y) : |(nearest y : ℝ) - y| ≤ 1 / 2 := by
  have hlow := Nat.floor_le hy
  have hhigh := Nat.lt_floor_add_one y
  unfold nearest
  split_ifs with hbelow habove
  · rw [abs_le]
    constructor <;> linarith
  · push_cast
    rw [abs_le]
    constructor <;> linarith
  · have hhalf : y - ⌊y⌋₊ = 1 / 2 := le_antisymm (not_lt.mp habove) (not_lt.mp hbelow)
    rcases Nat.mod_two_eq_zero_or_one ⌊y⌋₊ with hdigit | hdigit
    · rw [hdigit, abs_le]
      push_cast
      constructor <;> linarith
    · rw [hdigit, abs_le]
      push_cast
      constructor <;> linarith

/-- A magnitude changes by at most half of its last digit when it is rounded. -/
theorem abs_roundMagnitude_sub_le {x : ℝ} (hx : 0 ≤ x) :
    |roundMagnitude x - x| ≤ 2 ^ lastDigit x / 2 := by
  have hpower : (0 : ℝ) < 2 ^ lastDigit x := by positivity
  have hnearest := abs_nearest_sub_le (div_nonneg hx hpower.le)
  have hscaled : roundMagnitude x - x =
      ((nearest (x / 2 ^ lastDigit x) : ℝ) - x / 2 ^ lastDigit x) * 2 ^ lastDigit x := by
    rw [roundMagnitude, magnitude, sub_mul, div_mul_cancel₀ _ hpower.ne']
  rw [hscaled, abs_mul, abs_of_pos hpower]
  calc |(nearest (x / 2 ^ lastDigit x) : ℝ) - x / 2 ^ lastDigit x| * 2 ^ lastDigit x
      ≤ 1 / 2 * 2 ^ lastDigit x := by gcongr
    _ = 2 ^ lastDigit x / 2 := by ring

open Numeric in
/-- Half of the last digit is a small part of the magnitude, or a tiny number. -/
theorem half_lastDigit_le {x : ℝ} (hx : 0 < x) :
    (2 : ℝ) ^ lastDigit x / 2 ≤ roundoff * (x + tiny) := by
  have hroundoff := roundoff_pos
  have hbits : roundoff = (2 : ℝ) ^ (-53 : ℤ) := by
    norm_num [roundoff]
  have hhalf : (2 : ℝ) ^ lastDigit x / 2 = (2 : ℝ) ^ (lastDigit x - 1) := by
    rw [zpow_sub_one₀ (by norm_num)]
    ring
  rw [hhalf]
  rcases max_choice (Int.log 2 x - 52) (-1074) with hdigit | hdigit
  · have hlog : (2 : ℝ) ^ Int.log 2 x ≤ x := by
      exact_mod_cast Int.zpow_log_le_self (by norm_num) hx
    have hlast : lastDigit x - 1 = -53 + Int.log 2 x := by
      rw [lastDigit, hdigit]
      ring
    rw [hlast, zpow_add₀ (by norm_num), ← hbits]
    nlinarith [tiny_pos]
  · have hlast : lastDigit x - 1 = -53 + -1022 := by
      rw [lastDigit, hdigit]
      norm_num
    have htiny : (2 : ℝ) ^ (-1022 : ℤ) ≤ tiny := by
      have hpower : tiny = (2 : ℝ) ^ (-200 : ℤ) := by
        rw [tiny, zpow_neg, one_div]
        norm_cast
      rw [hpower]
      exact zpow_le_zpow_right₀ (by norm_num) (by norm_num)
    rw [hlast, zpow_add₀ (by norm_num), ← hbits]
    gcongr
    linarith

open Numeric in
/-- A magnitude changes by a small part of itself when it is rounded. -/
theorem abs_roundMagnitude_sub_le_roundoff {x : ℝ} (hx : 0 ≤ x) :
    |roundMagnitude x - x| ≤ roundoff * (x + tiny) := by
  rcases hx.eq_or_lt with rfl | hpos
  · have := mul_pos roundoff_pos tiny_pos
    simpa using this.le
  · exact (abs_roundMagnitude_sub_le hx).trans (half_lastDigit_le hpos)

open Numeric in
/-- A magnitude that is not too large stays below infinity when it is rounded. -/
theorem bounded_roundMagnitude {x : ℝ} (hx : 0 ≤ x) (hle : x ≤ 2 ^ 200) :
    bounded (roundMagnitude x) = (roundMagnitude x : EReal) := by
  have habove := (abs_le.mp (abs_roundMagnitude_sub_le_roundoff hx)).2
  have hsmall : roundMagnitude x ≤ 2 * 2 ^ 200 + 1 := by
    have htiny := tiny_le
    have htinypos := tiny_pos
    have hlost := roundoff_mul_le (add_nonneg hx htinypos.le)
    linarith
  have hlimit : 2 * 2 ^ 200 + 1 < (2 : ℝ) ^ (1024 : ℤ) := by
    calc 2 * 2 ^ 200 + 1 < (2 : ℝ) ^ 202 := by norm_num
      _ ≤ (2 : ℝ) ^ (1024 : ℤ) := by
          rw [← zpow_natCast]
          exact zpow_le_zpow_right₀ (by norm_num) (by norm_num)
  exact if_neg (not_le.mpr (hsmall.trans_lt hlimit))

open Numeric in
/-- A number changes by a small part of itself when it is rounded. -/
theorem round_near (r : ℝ) (hr : |r| ≤ 2 ^ 200) :
    ∃ s : ℝ, round (r : EReal) = s ∧ |s - r| ≤ roundoff * (|r| + tiny) := by
  rw [round_coe, roundReal]
  split_ifs with hnonneg
  · rw [abs_of_nonneg hnonneg] at hr ⊢
    exact ⟨_, bounded_roundMagnitude hnonneg hr, abs_roundMagnitude_sub_le_roundoff hnonneg⟩
  · have hneg : 0 ≤ -r := by linarith
    rw [abs_of_neg (not_le.mp hnonneg)] at hr ⊢
    refine ⟨-roundMagnitude (-r), ?_, ?_⟩
    · rw [bounded_roundMagnitude hneg hr, EReal.coe_neg]
    · have hopposite : -roundMagnitude (-r) - r = -(roundMagnitude (-r) - -r) := by ring
      rw [hopposite, abs_neg]
      exact abs_roundMagnitude_sub_le_roundoff hneg

/-! ## The double next to a number -/

/-- The double next to a magnitude. -/
theorem exists_denotes_roundMagnitude (s : Sign) {x : ℝ} (hx : 0 ≤ x) :
    ∃ y : Float, Denotes y (signed s (bounded (roundMagnitude x))) := by
  have hbottom := neg_1074_le_lastDigit x
  rcases hx.eq_or_lt with rfl | hpos
  · exact ⟨_, by simpa using denotes_zero s⟩
  · rcases (nearest_div_lastDigit_le x).lt_or_eq with hlimit | hlimit
    · refine ⟨_, denotes_form s hlimit hbottom ?_⟩
      rcases hbottom.eq_or_lt with hdigit | hdigit
      · exact .inr hdigit.symm
      · exact .inl (le_nearest_div_lastDigit hpos hdigit)
    · -- rounding up to the limit takes one digit more
      have hmagnitude : roundMagnitude x = magnitude (2 ^ 52) (lastDigit x + 1) := by
        rw [roundMagnitude, hlimit]
        unfold magnitude
        rw [zpow_add_one₀ (by norm_num)]
        push_cast
        ring
      rw [hmagnitude]
      exact ⟨_, denotes_form s (by norm_num) (by omega) (.inl le_rfl)⟩

/-- Every number has a double next to it. -/
theorem exists_denotes_round (r : ℝ) : ∃ y : Float, Denotes y (round (r : EReal)) := by
  rcases le_total 0 r with hr | hr
  · have hround := round_signed .positive hr
    rw [signed] at hround
    rw [hround]
    exact exists_denotes_roundMagnitude .positive hr
  · have hround := round_signed .negative (neg_nonneg.mpr hr)
    rw [signed, ← EReal.coe_neg, neg_neg] at hround
    rw [hround]
    exact exists_denotes_roundMagnitude .negative (neg_nonneg.mpr hr)

/-- The number that adding one does not change is written exactly. -/
theorem value_full_le : value 9007199254740992 ≤ ((2 ^ 53 : ℝ) : EReal) := by
  have unpacked : (9007199254740992 : Float).toModel.unpack =
      .finite .positive (2 ^ 52) 1 (by decide) := by
    with_unfolding_all rfl
  have hvalue : value 9007199254740992 = (magnitude (2 ^ 52) 1 : ℝ) := congrArg number unpacked
  rw [hvalue, EReal.coe_le_coe_iff, magnitude]
  norm_num

noncomputable instance (library : MathLibrary) : PreciseNumeric (With library) where
  round_near := round_near
  full_le := value_full_le

/-! ## Values next to one -/

/-- A magnitude that is a number is below infinity. -/
theorem bounded_eq_coe {m r : ℝ} (h : bounded m = (r : EReal)) : m = r ∧ r < 2 ^ (1024 : ℤ) := by
  unfold bounded at h
  split_ifs at h with hlimit
  · exact absurd h.symm (EReal.coe_ne_top r)
  · have heq : m = r := EReal.coe_eq_coe_iff.mp h
    exact ⟨heq, heq ▸ not_le.mp hlimit⟩

/-- A double that stands for a number keeps it when it is rounded. -/
theorem roundMagnitude_of_value {x : Float} {r : ℝ} (hvalue : value x = r) (hr : 0 ≤ r) :
    roundMagnitude r = r ∧ r < 2 ^ (1024 : ℤ) := by
  have hround := round_value x
  rw [hvalue, round_coe, roundReal, if_pos hr] at hround
  exact bounded_eq_coe hround

/-- A double above one is larger by its last digit. -/
theorem one_add_le_of_value {x : Float} {r : ℝ} (hvalue : value x = r) (hr : 1 < r) :
    1 + 1 / 2 ^ 52 ≤ r := by
  by_cases htwo : 2 ≤ r
  · exact le_trans (by norm_num) htwo
  · have hlog : Int.log 2 r = 0 := by
      apply le_antisymm
      · have hbelow : r < ((2 : ℕ) : ℝ) ^ (1 : ℤ) := by
          rw [zpow_one]
          exact_mod_cast not_le.mp htwo
        have := (Int.lt_zpow_iff_log_lt (by norm_num) (by linarith)).mp hbelow
        omega
      · have habove : ((2 : ℕ) : ℝ) ^ (0 : ℤ) ≤ r := by
          rw [zpow_zero]
          exact hr.le
        exact (Int.zpow_le_iff_le_log (by norm_num) (by linarith)).mp habove
    have hdigit : lastDigit r = -52 := by
      rw [lastDigit, hlog]
      norm_num
    -- the significand is above that of one
    have hround := (roundMagnitude_of_value hvalue (by linarith)).1
    rw [roundMagnitude, hdigit] at hround
    have hone : (1 : ℝ) = magnitude (2 ^ 52) (-52) := by
      norm_num [magnitude]
    have hdigits : 2 ^ 52 < nearest (r / 2 ^ (-52 : ℤ)) := by
      rw [← magnitude_lt_magnitude_right (-52), ← hone, hround]
      exact hr
    calc (1 : ℝ) + 1 / 2 ^ 52 = magnitude (2 ^ 52 + 1) (-52) := by norm_num [magnitude]
      _ ≤ magnitude (nearest (r / 2 ^ (-52 : ℤ))) (-52) := magnitude_le_magnitude _ hdigits
      _ = r := hround

/-- The logarithm of a double above one is not lost. -/
theorem tiny_le_log_of_value {x : Float} {r : ℝ} (hvalue : value x = r) (hr : 1 < r) :
    Numeric.tiny ≤ Real.log r := by
  have hlast := one_add_le_of_value hvalue hr
  have hinv : r⁻¹ ≤ (1 + 1 / 2 ^ 52)⁻¹ := by gcongr
  calc Numeric.tiny ≤ 1 - (1 + 1 / 2 ^ 52)⁻¹ := Numeric.tiny_le.trans (by norm_num)
    _ ≤ 1 - r⁻¹ := by linarith
    _ ≤ Real.log r := Real.one_sub_inv_le_log_of_pos (by linarith)

/-- The logarithm of a double is not large. -/
theorem log_le_of_value {x : Float} {r : ℝ} (hvalue : value x = r) (hr : 1 ≤ r) :
    Real.log r ≤ 1024 := by
  have hlimit := (roundMagnitude_of_value hvalue (by linarith)).2
  calc Real.log r ≤ Real.log (2 ^ (1024 : ℤ)) := Real.log_le_log (by linarith) hlimit.le
    _ = 1024 * Real.log 2 := by
        rw [Real.log_zpow]
        norm_num
    _ ≤ 1024 * 1 := by
        gcongr
        linarith [Real.log_two_lt_d9]
    _ = 1024 := mul_one _

/-! ## A precise library -/

/-- The double next to a number. -/
noncomputable def near (r : ℝ) : Float :=
  (exists_denotes_round r).choose

theorem denotes_near (r : ℝ) : Denotes (near r) (round (r : EReal)) :=
  (exists_denotes_round r).choose_spec

/-- The double next to a number that is not large is close to it. -/
theorem denotes_near_toReal {r : ℝ} (hr : |r| ≤ 2 ^ 200) :
    Denotes (near r) ((value (near r)).toReal : EReal) ∧
      |(value (near r)).toReal - r| ≤ Numeric.roundoff * (|r| + Numeric.tiny) := by
  rcases round_near r hr with ⟨s, hs, hnear⟩
  have hdenotes := denotes_near r
  rw [hs] at hdenotes
  rw [hdenotes.2, EReal.toReal_coe]
  exact ⟨hdenotes, hnear⟩

/-- The double next to a share is a share. -/
theorem near_mem_unit {r : ℝ} (hnonneg : 0 ≤ r) (hle : r ≤ 1) :
    (near r).isNaN = false ∧ 0 ≤ value (near r) ∧ value (near r) ≤ 1 := by
  rcases denotes_near r with ⟨hnan, hvalue⟩
  refine ⟨hnan, ?_, ?_⟩
  · calc (0 : EReal) = round 0 := Double.round_zero.symm
      _ ≤ round r := Double.round_mono (by exact_mod_cast hnonneg)
      _ = value (near r) := hvalue.symm
  · calc value (near r) = round r := hvalue
      _ ≤ round (value 1) := Double.round_mono (by rw [value_one]; exact_mod_cast hle)
      _ = 1 := by rw [round_value, value_one]

/-- The double next to one is one. -/
theorem value_near_one : value (near 1) = 1 := by
  rw [(denotes_near 1).2, EReal.coe_one, ← value_one, round_value]

/-- The exponential and the logarithm are rounded correctly. -/
noncomputable def MathLibrary.nearest : MathLibrary where
  pow x _ := x
  exp x := near (Numeric.realExp (value x))
  ln x := if value x = ⊤ then infinity else near (Real.log (value x).toReal)

theorem ln_nearest {x : Float} {r : ℝ} (h : value x = r) :
    MathLibrary.nearest.ln x = near (Real.log r) := by
  unfold MathLibrary.nearest
  simp only
  rw [h, if_neg (EReal.coe_ne_top r), EReal.toReal_coe]

theorem denotes_infinity_top : Denotes infinity ⊤ := by
  have unpacked : infinity.toModel.unpack = .infinity .positive := by with_unfolding_all rfl
  exact ⟨by decide, congrArg number unpacked⟩

/-- The logarithm of what is at least one is not negative. -/
theorem ln_nearest_nonneg {x : Float} (hone : 1 ≤ value x) :
    (MathLibrary.nearest.ln x).isNaN = false ∧ 0 ≤ value (MathLibrary.nearest.ln x) := by
  by_cases htop : value x = ⊤
  · have hinfinity : MathLibrary.nearest.ln x = infinity := if_pos htop
    rw [hinfinity, denotes_infinity_top.2]
    exact ⟨denotes_infinity_top.1, le_top⟩
  · have hreal : value x = ((value x).toReal : EReal) :=
      (EReal.coe_toReal htop (ne_bot_of_le_ne_bot (EReal.coe_ne_bot 1) hone)).symm
    have hone' : 1 ≤ (value x).toReal := by
      rw [hreal] at hone
      exact_mod_cast hone
    rcases denotes_near (Real.log (value x).toReal) with ⟨hnan, hvalue⟩
    rw [ln_nearest hreal, hvalue]
    refine ⟨hnan, ?_⟩
    calc (0 : EReal) = round 0 := Double.round_zero.symm
      _ ≤ round (Real.log (value x).toReal) :=
          Double.round_mono (by exact_mod_cast Real.log_nonneg hone')

open Numeric in
/-- The logarithm of what is at least one is as precise as its last digit. -/
theorem ln_nearest_near {x : Float} {r : ℝ} (hvalue : value x = r) (hone : 1 ≤ r) :
    ∃ s : ℝ, Denotes (MathLibrary.nearest.ln x) s ∧
      |s - Real.log r| ≤ 2 * roundoff * Real.log r := by
  rw [ln_nearest hvalue]
  have hnonneg := Real.log_nonneg hone
  rcases hone.eq_or_lt with rfl | hlt
  · -- the logarithm of one is exact
    refine ⟨0, ?_, by simp⟩
    have hzero := denotes_near 0
    rw [Real.log_one]
    rwa [EReal.coe_zero, Double.round_zero] at hzero
  · have hrange : |Real.log r| ≤ 2 ^ 200 := by
      rw [abs_of_nonneg hnonneg]
      exact (log_le_of_value hvalue hone).trans (by norm_num)
    rcases denotes_near_toReal hrange with ⟨hdefined, hnear⟩
    refine ⟨_, hdefined, hnear.trans ?_⟩
    rw [abs_of_nonneg hnonneg]
    have htiny := tiny_le_log_of_value hvalue hlt
    have hpart : roundoff * (Real.log r + tiny) ≤ roundoff * (Real.log r + Real.log r) :=
      mul_le_mul_of_nonneg_left (by linarith) roundoff_pos.le
    linarith

open Numeric in
/-- The exponential of what is at most zero is as precise as its last digit. -/
theorem exp_nearest_near {x : Float} (hle : value x ≤ 0) :
    |(value (MathLibrary.nearest.exp x)).toReal - realExp (value x)| ≤
      2 * roundoff * (realExp (value x) + tiny) := by
  have hnonneg := realExp_nonneg (value x)
  have hrange : |realExp (value x)| ≤ 2 ^ 200 := by
    rw [abs_of_nonneg hnonneg]
    exact (realExp_le_one hle).trans (by norm_num)
  have hnear := (denotes_near_toReal hrange).2
  rw [abs_of_nonneg hnonneg] at hnear
  have hpart : 0 ≤ roundoff * (realExp (value x) + tiny) :=
    mul_nonneg roundoff_pos.le (add_nonneg hnonneg tiny_pos.le)
  calc |(value (near (realExp (value x)))).toReal - realExp (value x)|
      ≤ roundoff * (realExp (value x) + tiny) := hnear
    _ ≤ 2 * roundoff * (realExp (value x) + tiny) := by linarith

/-- A correctly rounded exponential and logarithm are as precise as the choice models rely on. -/
theorem accurate_nearest : AccurateFunctions (With .nearest) where
  isShare_exp (x : Float) _ hle := by
    rcases near_mem_unit (Numeric.realExp_nonneg (value x)) (Numeric.realExp_le_one hle) with
      ⟨hnan, hnonneg, hone⟩
    exact ⟨hnan, hnonneg, hone⟩
  exp_zero (x : Float) _ hzero := by
    have hone : Numeric.realExp (value x) = 1 := by
      rw [show value x = ((0 : ℝ) : EReal) from hzero, Numeric.realExp_coe, Real.exp_zero]
    change value (near (Numeric.realExp (value x))) = 1
    rw [hone, value_near_one]
  ln_nonneg (x : Float) _ hone := ln_nearest_nonneg hone
  exp_near (x : Float) _ hle := exp_nearest_near hle
  ln_near (x : Float) _ hdenotes hone := ln_nearest_near hdenotes.2 hone

end Double
end DiscreteChoice
