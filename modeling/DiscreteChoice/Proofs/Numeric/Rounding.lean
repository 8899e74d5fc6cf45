import Mathlib

/-!
# Rounding to doubles

The double next to a number has at most 53 significant binary digits, none of them behind the 1074th
place after the point. The number is rounded to the nearest such value, and halfway between two of
them to the even one. What reaches the power of two with exponent 1024 is infinite.

Main results:

- Theorem `Double.roundMagnitude_mono`: rounding keeps the order of magnitudes.
- Theorem `Double.roundMagnitude_magnitude`: a canonical magnitude is not changed.
- Theorem `Double.round_mono`: rounding keeps the order of numbers.
-/

namespace DiscreteChoice
namespace Double

/-- The magnitude with the given significand and power of two. -/
noncomputable def magnitude (m : ℕ) (e : ℤ) : ℝ :=
  m * (2 : ℝ) ^ e

theorem magnitude_nonneg (m : ℕ) (e : ℤ) : 0 ≤ magnitude m e := by
  unfold magnitude
  positivity

theorem magnitude_pos {m : ℕ} (e : ℤ) (hm : 0 < m) : 0 < magnitude m e := by
  unfold magnitude
  positivity

/-! ## Rounding to whole numbers -/

/-- The whole number next to a number that is not negative, the even one of two. -/
noncomputable def nearest (y : ℝ) : ℕ :=
  if y - ⌊y⌋₊ < 1 / 2 then ⌊y⌋₊
  else if 1 / 2 < y - ⌊y⌋₊ then ⌊y⌋₊ + 1
  else ⌊y⌋₊ + ⌊y⌋₊ % 2

/-- The next whole number is not below the whole part. -/
theorem floor_le_nearest (y : ℝ) : ⌊y⌋₊ ≤ nearest y := by
  unfold nearest
  split_ifs <;> omega

/-- The next whole number is at most one above the whole part. -/
theorem nearest_le_floor_add_one (y : ℝ) : nearest y ≤ ⌊y⌋₊ + 1 := by
  unfold nearest
  split_ifs <;> omega

/-- Whole numbers are not rounded. -/
@[simp] theorem nearest_natCast (n : ℕ) : nearest n = n := by
  simp [nearest]

/-- Rounding to whole numbers keeps the order. -/
theorem nearest_mono {y z : ℝ} (h : y ≤ z) : nearest y ≤ nearest z := by
  rcases (Nat.floor_mono h).eq_or_lt with hfloor | hfloor
  · unfold nearest
    rw [hfloor]
    split_ifs <;> first | omega | (exfalso; linarith)
  · calc nearest y ≤ ⌊y⌋₊ + 1 := nearest_le_floor_add_one y
      _ ≤ ⌊z⌋₊ := hfloor
      _ ≤ nearest z := floor_le_nearest z

/-! ## Rounding magnitudes -/

/-- The power of two of the last binary digit that the double next to a magnitude has. -/
noncomputable def lastDigit (x : ℝ) : ℤ :=
  max (Int.log 2 x - 52) (-1074)

/-- The magnitude of the double next to a magnitude, without an upper limit. -/
noncomputable def roundMagnitude (x : ℝ) : ℝ :=
  magnitude (nearest (x / 2 ^ lastDigit x)) (lastDigit x)

theorem neg_1074_le_lastDigit (x : ℝ) : -1074 ≤ lastDigit x :=
  le_max_right _ _

/-- A magnitude stays below the power of two that its digits are limited by. -/
theorem div_lastDigit_lt {x : ℝ} : x / 2 ^ lastDigit x < 2 ^ 53 := by
  have hlog : x < (2 : ℝ) ^ (Int.log 2 x + 1) := by
    exact_mod_cast Int.lt_zpow_succ_log_self (by norm_num) x
  rw [div_lt_iff₀ (by positivity)]
  calc x < (2 : ℝ) ^ (Int.log 2 x + 1) := hlog
    _ ≤ (2 : ℝ) ^ (53 + lastDigit x) := by
        have hdigit : Int.log 2 x - 52 ≤ lastDigit x := le_max_left _ _
        exact zpow_le_zpow_right₀ (by norm_num) (by omega)
    _ = 2 ^ 53 * 2 ^ lastDigit x := by
        rw [zpow_add₀ (by norm_num)]
        norm_cast

/-- All digits are used unless the last one is the smallest. -/
theorem le_div_lastDigit {x : ℝ} (hx : 0 < x) (h : -1074 < lastDigit x) :
    2 ^ 52 ≤ x / 2 ^ lastDigit x := by
  have hdigit : lastDigit x = Int.log 2 x - 52 := by
    unfold lastDigit at h ⊢
    omega
  have hlog : (2 : ℝ) ^ Int.log 2 x ≤ x := by
    exact_mod_cast Int.zpow_log_le_self (by norm_num) hx
  rw [le_div_iff₀ (by positivity), hdigit]
  calc (2 : ℝ) ^ 52 * 2 ^ (Int.log 2 x - 52) = 2 ^ Int.log 2 x := by
        rw [← zpow_natCast, ← zpow_add₀ (by norm_num)]
        congr 1
        norm_num
    _ ≤ x := hlog

/-- The digits of a rounded magnitude are at most the power of two that they are limited by. -/
theorem nearest_div_lastDigit_le (x : ℝ) : nearest (x / 2 ^ lastDigit x) ≤ 2 ^ 53 := by
  have h := nearest_mono (div_lastDigit_lt (x := x)).le
  have hcast : ((2 : ℝ) ^ 53) = ((2 ^ 53 : ℕ) : ℝ) := by norm_num
  rwa [hcast, nearest_natCast] at h

/-- A rounded magnitude uses all digits unless the last one is the smallest. -/
theorem le_nearest_div_lastDigit {x : ℝ} (hx : 0 < x) (h : -1074 < lastDigit x) :
    2 ^ 52 ≤ nearest (x / 2 ^ lastDigit x) := by
  have h := nearest_mono (le_div_lastDigit hx h)
  have hcast : ((2 : ℝ) ^ 52) = ((2 ^ 52 : ℕ) : ℝ) := by norm_num
  rwa [hcast, nearest_natCast] at h

theorem roundMagnitude_nonneg (x : ℝ) : 0 ≤ roundMagnitude x :=
  magnitude_nonneg _ _

@[simp] theorem roundMagnitude_zero : roundMagnitude 0 = 0 := by
  simp [roundMagnitude, magnitude, nearest]

/-- Magnitudes with the same last digit are compared by their digits. -/
theorem magnitude_le_magnitude {m n : ℕ} (e : ℤ) (h : m ≤ n) : magnitude m e ≤ magnitude n e := by
  unfold magnitude
  gcongr

/-- The last digit of a larger magnitude does not stand further behind. -/
theorem lastDigit_mono {x y : ℝ} (hx : 0 < x) (h : x ≤ y) : lastDigit x ≤ lastDigit y := by
  have := Int.log_mono_right (b := 2) hx h
  unfold lastDigit
  omega

/-- Rounding keeps the order of magnitudes. -/
theorem roundMagnitude_mono {x y : ℝ} (hx : 0 ≤ x) (h : x ≤ y) :
    roundMagnitude x ≤ roundMagnitude y := by
  rcases hx.eq_or_lt with rfl | hx
  · rw [roundMagnitude_zero]
    exact roundMagnitude_nonneg y
  rcases (lastDigit_mono hx h).eq_or_lt with hdigit | hdigit
  · unfold roundMagnitude
    rw [← hdigit]
    apply magnitude_le_magnitude
    apply nearest_mono
    gcongr
  · -- the smaller magnitude is at most a power of two that the larger one reaches
    have hlarge : -1074 < lastDigit y := lt_of_le_of_lt (neg_1074_le_lastDigit x) hdigit
    calc roundMagnitude x ≤ magnitude (2 ^ 53) (lastDigit x) :=
          magnitude_le_magnitude _ (nearest_div_lastDigit_le x)
      _ = magnitude (2 ^ 52) (lastDigit x + 1) := by
          unfold magnitude
          rw [zpow_add_one₀ (by norm_num)]
          push_cast
          ring
      _ ≤ magnitude (2 ^ 52) (lastDigit y) := by
          unfold magnitude
          gcongr
          · norm_num
          · omega
      _ ≤ roundMagnitude y :=
          magnitude_le_magnitude _ (le_nearest_div_lastDigit (hx.trans_le h) hlarge)

/-- The highest digit of a number stands where that of its whole part does. -/
theorem log_of_floor {x : ℝ} {m : ℕ} {e : ℤ} (hm : 0 < m) (hfloor : ⌊x / 2 ^ e⌋₊ = m) :
    Int.log 2 x = Nat.log2 m + e := by
  have hpower : (0 : ℝ) < 2 ^ e := by positivity
  have hlow : (m : ℝ) ≤ x / 2 ^ e := by
    rw [← hfloor]
    exact Nat.floor_le (le_of_lt (Nat.pos_of_floor_pos (by omega)))
  have hhigh : x / 2 ^ e < m + 1 := by
    rw [← hfloor]
    exact Nat.lt_floor_add_one _
  have hx : 0 < x := by
    have hquotient : 0 < x / 2 ^ e := lt_of_lt_of_le (by exact_mod_cast hm) hlow
    exact (div_pos_iff_of_pos_right hpower).mp hquotient
  rcases (Nat.log2_eq_iff (Nat.ne_of_gt hm)).mp rfl with ⟨hbelow, habove⟩
  apply le_antisymm
  · have hupper : x < ((2 : ℕ) : ℝ) ^ ((Nat.log2 m : ℤ) + 1 + e) := by
      push_cast
      rw [zpow_add₀ (by norm_num), ← div_lt_iff₀ hpower]
      calc x / 2 ^ e < m + 1 := hhigh
        _ ≤ (2 : ℝ) ^ (Nat.log2 m + 1) := by exact_mod_cast habove
    have := (Int.lt_zpow_iff_log_lt (by norm_num) hx).mp hupper
    omega
  · apply (Int.zpow_le_iff_le_log (by norm_num) hx).mp
    push_cast
    rw [zpow_add₀ (by norm_num), ← le_div_iff₀ hpower]
    calc (2 : ℝ) ^ (Nat.log2 m : ℤ) ≤ m := by exact_mod_cast hbelow
      _ ≤ x / 2 ^ e := hlow

/-- The digits of a magnitude are those of its significand. -/
theorem magnitude_div (m : ℕ) (e : ℤ) : magnitude m e / 2 ^ e = m := by
  unfold magnitude
  field_simp

/-- A canonical magnitude is not changed by rounding. -/
theorem roundMagnitude_magnitude {m : ℕ} {e : ℤ} (hm : 0 < m) (hupper : m < 2 ^ 53)
    (hlower : -1074 ≤ e) (hcanonical : 2 ^ 52 ≤ m ∨ e = -1074) :
    roundMagnitude (magnitude m e) = magnitude m e := by
  have hlog : Int.log 2 (magnitude m e) = Nat.log2 m + e :=
    log_of_floor hm (by rw [magnitude_div, Nat.floor_natCast])
  have hbits : Nat.log2 m < 53 := (Nat.log2_lt (Nat.ne_of_gt hm)).mpr hupper
  have hdigit : lastDigit (magnitude m e) = e := by
    rw [lastDigit, hlog]
    rcases hcanonical with hlarge | rfl
    · have : 52 ≤ Nat.log2 m := (Nat.le_log2 (Nat.ne_of_gt hm)).mpr hlarge
      omega
    · omega
  rw [roundMagnitude, hdigit, magnitude_div, nearest_natCast]

/-! ## Rounding numbers -/

/-- The number that a rounded magnitude stands for, which may be infinite. -/
noncomputable def bounded (r : ℝ) : EReal :=
  if (2 : ℝ) ^ (1024 : ℤ) ≤ r then ⊤ else r

theorem bounded_mono {r s : ℝ} (h : r ≤ s) : bounded r ≤ bounded s := by
  unfold bounded
  split_ifs with hr hs hs
  · exact le_rfl
  · exact absurd (hr.trans h) hs
  · exact le_top
  · exact EReal.coe_le_coe_iff.mpr h

theorem bounded_nonneg {r : ℝ} (h : 0 ≤ r) : 0 ≤ bounded r := by
  unfold bounded
  split_ifs
  · exact le_top
  · exact EReal.coe_nonneg.mpr h

@[simp] theorem bounded_zero : bounded 0 = 0 := by
  rw [bounded, if_neg (not_le.mpr (by positivity)), EReal.coe_zero]

/-- The number that the double next to a finite number stands for. -/
noncomputable def roundReal (x : ℝ) : EReal :=
  if 0 ≤ x then bounded (roundMagnitude x) else -bounded (roundMagnitude (-x))

/-- The number that the double next to a number stands for. -/
noncomputable def round (x : EReal) : EReal :=
  if x = ⊤ then ⊤ else if x = ⊥ then ⊥ else roundReal x.toReal

@[simp] theorem round_top : round ⊤ = ⊤ := by
  simp [round]

@[simp] theorem round_bot : round ⊥ = ⊥ := by
  simp [round]

@[simp] theorem round_coe (x : ℝ) : round x = roundReal x := by
  simp [round]

@[simp] theorem round_zero : round 0 = 0 := by
  rw [← EReal.coe_zero, round_coe, roundReal, if_pos le_rfl]
  simp

theorem roundReal_mono {x y : ℝ} (h : x ≤ y) : roundReal x ≤ roundReal y := by
  unfold roundReal
  split_ifs with hx hy hy
  · exact bounded_mono (roundMagnitude_mono hx h)
  · exact absurd (hx.trans h) hy
  · calc -bounded (roundMagnitude (-x)) ≤ 0 := by
          rw [EReal.neg_le, neg_zero]
          exact bounded_nonneg (roundMagnitude_nonneg _)
      _ ≤ bounded (roundMagnitude y) := bounded_nonneg (roundMagnitude_nonneg _)
  · rw [EReal.neg_le_neg_iff]
    exact bounded_mono (roundMagnitude_mono (by linarith) (by linarith))

/-- Rounding keeps the order of numbers. -/
theorem round_mono : Monotone round := by
  intro x y h
  induction x with
  | bot => simp
  | top => simp [top_le_iff.mp h]
  | coe x =>
    induction y with
    | bot => simp at h
    | top => simp
    | coe y =>
      rw [round_coe, round_coe]
      exact roundReal_mono (EReal.coe_le_coe_iff.mp h)

/-- A canonical magnitude is infinite when its last digit stands too high. -/
theorem bounded_magnitude {m : ℕ} {e : ℤ} (hupper : m < 2 ^ 53) (hcanonical : 2 ^ 52 ≤ m ∨ e = -1074) :
    bounded (magnitude m e) = if e ≤ 971 then (magnitude m e : EReal) else ⊤ := by
  have hpower : (0 : ℝ) < 2 ^ e := by positivity
  unfold bounded
  by_cases he : e ≤ 971
  · have hsmall : magnitude m e < 2 ^ (1024 : ℤ) := by
      calc magnitude m e < 2 ^ (53 : ℤ) * (2 : ℝ) ^ e := by
            unfold magnitude
            gcongr
            exact_mod_cast hupper
        _ = (2 : ℝ) ^ (53 + e) := (zpow_add₀ (by norm_num) _ _).symm
        _ ≤ (2 : ℝ) ^ (1024 : ℤ) := zpow_le_zpow_right₀ (by norm_num) (by omega)
    rw [if_neg (not_le.mpr hsmall), if_pos he]
  · have hlarge : (2 : ℝ) ^ (1024 : ℤ) ≤ magnitude m e := by
      have hm : 2 ^ 52 ≤ m := hcanonical.resolve_right (by omega)
      calc (2 : ℝ) ^ (1024 : ℤ) ≤ (2 : ℝ) ^ (52 + e) :=
            zpow_le_zpow_right₀ (by norm_num) (by omega)
        _ = 2 ^ (52 : ℤ) * (2 : ℝ) ^ e := zpow_add₀ (by norm_num) _ _
        _ ≤ magnitude m e := by
            unfold magnitude
            gcongr
            exact_mod_cast hm
    rw [if_pos hlarge, if_neg he]

end Double
end DiscreteChoice
