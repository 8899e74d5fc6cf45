import DiscreteChoice.Proofs.Numeric.DoubleArithmetic

/-!
# Scaling there and back

A double that is multiplied by a scale and divided by it again stays finite, although both steps are
rounded. Only the first step could do harm, by rounding up what the largest double is scaled to. It does
not: what the power of two behind the largest double is scaled to has no more digits than the scale, and
the scaled largest double is a double itself or nearer to the double before that.

Main results:

- Theorem `Double.roundMagnitude_mul_largest_le`: the largest double is never scaled up.
- Theorem `Double.isFinite_mul_div`: scaling there and back keeps doubles finite.
-/

namespace DiscreteChoice
namespace Double

open Float.Model UnpackedFloat

/-! ## The scaled largest double -/

/-- The magnitude of the largest double. -/
noncomputable def largest : ℝ :=
  magnitude (2 ^ 53 - 1) 971

/-- A number less than one half above a whole number is rounded down to it. -/
theorem nearest_eq_of_lt {y : ℝ} {n : ℕ} (hlow : n ≤ y) (hhigh : y < n + 1 / 2) :
    nearest y = n := by
  have hfloor : ⌊y⌋₊ = n := by
    rw [Nat.floor_eq_iff (n.cast_nonneg.trans hlow)]
    exact ⟨hlow, by linarith⟩
  unfold nearest
  rw [hfloor, if_pos (by linarith)]

/-- The highest digit of a significand times the largest one. -/
theorem log2_mul_largest {m k : ℕ} (hlow : 2 ^ k < m) (hhigh : m < 2 ^ (k + 1)) (hk : k ≤ 52) :
    Nat.log2 (m * (2 ^ 53 - 1)) = k + 53 := by
  have hpower : 2 ^ k ≤ 2 ^ 52 := Nat.pow_le_pow_right two_pos hk
  have hpos : m * (2 ^ 53 - 1) ≠ 0 := by omega
  rw [Nat.log2_eq_iff hpos]
  have hbelow : 2 ^ (k + 53) = 2 ^ k * 2 ^ 53 := pow_add 2 k 53
  have habove : 2 ^ (k + 53 + 1) = 2 ^ (k + 1) * 2 ^ 53 := by ring
  constructor
  · omega
  · omega

/-- The scaled largest double has one significand. -/
theorem mul_largest_eq (m : ℕ) (e : ℤ) :
    magnitude m e * largest = magnitude (m * (2 ^ 53 - 1)) (e + 971) := by
  unfold largest magnitude
  rw [zpow_add₀ two_ne_zero]
  push_cast
  ring

/-- A power of two scales the largest double to a double. -/
theorem roundMagnitude_pow_mul_largest {k : ℕ} {e : ℤ} (hlower : -1074 ≤ e) :
    roundMagnitude (magnitude (2 ^ k) e * largest) = magnitude (2 ^ k) e * largest := by
  have hdigits : magnitude (2 ^ k) e * largest = magnitude (2 ^ 53 - 1) (k + e + 971) := by
    unfold largest magnitude
    rw [zpow_add₀ two_ne_zero, zpow_add₀ two_ne_zero]
    push_cast
    rw [zpow_natCast]
    ring
  rw [hdigits]
  apply roundMagnitude_magnitude
  · norm_num
  · norm_num
  · omega
  · exact .inl (by norm_num)

section

variable {m k : ℕ} (hlow : 2 ^ k < m) (hhigh : m < 2 ^ (k + 1)) (hk : k ≤ 52)

include hlow hhigh hk

/-- The last digit that the scaled largest double can have. -/
theorem lastDigit_mul_largest {e : ℤ} (hlower : -1074 ≤ e) :
    lastDigit (magnitude m e * largest) = k + e + 972 := by
  have hpos : 0 < m * (2 ^ 53 - 1) := by omega
  rw [mul_largest_eq, lastDigit_magnitude hpos, log2_mul_largest hlow hhigh hk]
  push_cast
  omega

/-- The digits of the scaled largest double up to the last one that it can have, and what is behind
them. -/
theorem mul_largest_div {e : ℤ} (hlower : -1074 ≤ e) :
    magnitude m e * largest / 2 ^ lastDigit (magnitude m e * largest) =
      ((m * 2 ^ (52 - k) - 1 : ℕ) : ℝ) + (1 - m / 2 ^ (k + 1)) := by
  have hpos : 1 ≤ m * 2 ^ (52 - k) := Nat.mul_pos (by omega) (Nat.two_pow_pos _)
  have hpower : (2 : ℝ) ^ 53 = 2 ^ (k + 1) * 2 ^ (52 - k) := by
    rw [← pow_add]
    congr 1
    omega
  have hscale : (2 : ℝ) ^ ((k : ℤ) + e + 972) = 2 ^ (k + 1) * (2 ^ e * 2 ^ (971 : ℤ)) := by
    rw [← zpow_natCast, ← zpow_add₀ two_ne_zero, ← zpow_add₀ two_ne_zero]
    congr 1
    push_cast
    ring
  have hodd : ((2 ^ 53 - 1 : ℕ) : ℝ) = 2 ^ (k + 1) * 2 ^ (52 - k) - 1 := by
    rw [← hpower]
    norm_num
  have he : (2 : ℝ) ^ e ≠ 0 := zpow_ne_zero e two_ne_zero
  have hmax : (2 : ℝ) ^ (971 : ℤ) ≠ 0 := zpow_ne_zero 971 two_ne_zero
  rw [lastDigit_mul_largest hlow hhigh hk hlower, largest, magnitude, magnitude, hscale, hodd,
    Nat.cast_sub hpos]
  push_cast
  field_simp
  ring

/-- Less than one half of the last digit is behind the digits of the scaled largest double when the
scale is no power of two, so that it is rounded down. -/
theorem roundMagnitude_mul_largest_lt {e : ℤ} (hlower : -1074 ≤ e) :
    roundMagnitude (magnitude m e * largest) < magnitude m e * largest := by
  have hquotient := mul_largest_div hlow hhigh hk hlower
  have hhalf : (1 : ℝ) / 2 < m / 2 ^ (k + 1) := by
    have hcast : ((2 ^ k : ℕ) : ℝ) < m := by exact_mod_cast hlow
    push_cast at hcast
    rw [lt_div_iff₀ (by positivity), pow_succ]
    linarith
  have hone : (m : ℝ) / 2 ^ (k + 1) < 1 := by
    rw [div_lt_one (by positivity)]
    exact_mod_cast hhigh
  have hnearest : nearest (magnitude m e * largest / 2 ^ lastDigit (magnitude m e * largest)) =
      m * 2 ^ (52 - k) - 1 := by
    rw [hquotient]
    apply nearest_eq_of_lt
    · linarith
    · linarith
  rw [roundMagnitude, hnearest, magnitude, ← lt_div_iff₀ (by positivity), hquotient]
  linarith

end

/-- The largest double is not scaled to more than it is by the scale of a significand. -/
theorem roundMagnitude_mul_largest_le {m : ℕ} {e : ℤ} (hm : 0 < m) (hupper : m < 2 ^ 53)
    (hlower : -1074 ≤ e) :
    roundMagnitude (magnitude m e * largest) ≤ magnitude m e * largest := by
  have hk : Nat.log2 m ≤ 52 := Nat.lt_succ_iff.mp ((Nat.log2_lt hm.ne').mpr hupper)
  rcases (Nat.log2_eq_iff hm.ne').mp rfl with ⟨hlow, hhigh⟩
  rcases hlow.eq_or_lt with hpower | hlow
  · rw [← hpower]
    exact (roundMagnitude_pow_mul_largest hlower).le
  · exact (roundMagnitude_mul_largest_lt hlow hhigh hk hlower).le

/-- The largest double is a double. -/
theorem roundMagnitude_largest : roundMagnitude largest = largest :=
  roundMagnitude_magnitude (by norm_num) (by norm_num) (by norm_num) (.inl (by norm_num))

/-- The largest double is less than the smallest power of two that is too large. -/
theorem largest_lt : largest < 2 ^ (1024 : ℤ) := by
  have hsplit : (2 : ℝ) ^ (1024 : ℤ) = 2 ^ 53 * 2 ^ (971 : ℤ) := by
    rw [← zpow_natCast, ← zpow_add₀ two_ne_zero]
    norm_num
  rw [largest, magnitude, hsplit]
  gcongr
  norm_num

/-! ## Finite doubles -/

/-- A finite form is no further from zero than the largest double. -/
theorem IsCanonical.exists_number_eq {u : UnpackedFloat} (hu : IsCanonical u)
    (hfinite : u.isFinite = true) : ∃ r : ℝ, number u = r ∧ |r| ≤ largest := by
  have hmagnitude {m : ℕ} {e : ℤ} (hupper : m < 2 ^ 53) (he : e ≤ 971) :
      magnitude m e ≤ largest := by
    calc magnitude m e ≤ magnitude (2 ^ 53 - 1) e := magnitude_le_magnitude e (by omega)
      _ ≤ magnitude (2 ^ 53 - 1) 971 := by
          unfold magnitude
          gcongr
          norm_num
  rcases u with _ | _ | _ | ⟨_ | _, m, e, hm⟩
  · contradiction
  · contradiction
  · exact ⟨0, rfl, by rw [abs_zero]; exact magnitude_nonneg _ _⟩
  · refine ⟨-magnitude m e, rfl, ?_⟩
    rw [abs_neg, abs_of_nonneg (magnitude_nonneg m e)]
    exact hmagnitude hu.1 hu.2.2.1
  · refine ⟨magnitude m e, rfl, ?_⟩
    rw [abs_of_nonneg (magnitude_nonneg m e)]
    exact hmagnitude hu.1 hu.2.2.1

/-- A positive form that is not infinite is a significand with a power of two. -/
theorem IsCanonical.exists_magnitude {u : UnpackedFloat} (hu : IsCanonical u)
    (hpos : 0 < number u) (htop : number u ≠ ⊤) :
    ∃ (m : ℕ) (e : ℤ), 0 < m ∧ m < 2 ^ 53 ∧ -1074 ≤ e ∧ number u = (magnitude m e : ℝ) := by
  rcases u with (_ | _) | _ | _ | ⟨_ | _, m, e, hm⟩
  · exact absurd hpos not_lt_bot
  · exact absurd rfl htop
  · exact absurd hpos (lt_irrefl _)
  · exact absurd hpos (lt_irrefl _)
  · have hneg : ((-magnitude m e : ℝ) : EReal) < 0 :=
      EReal.coe_neg'.mpr (neg_lt_zero.mpr (magnitude_pos e hm))
    exact absurd hpos hneg.not_gt
  · exact ⟨m, e, hm, hu.1, hu.2.1, rfl⟩

/-- Rounding leads to no larger magnitude than one that it does not enlarge. -/
theorem exists_round_eq {r limit : ℝ} (hr : |r| ≤ limit) (hround : roundMagnitude limit ≤ limit)
    (hlimit : limit ≤ largest) : ∃ t : ℝ, round r = t ∧ |t| ≤ limit := by
  have hmagnitude {a : ℝ} (ha : 0 ≤ a) (hle : a ≤ limit) :
      roundMagnitude a ≤ limit ∧ bounded (roundMagnitude a) = roundMagnitude a := by
    have hrounded : roundMagnitude a ≤ limit := (roundMagnitude_mono ha hle).trans hround
    have hlt : roundMagnitude a < 2 ^ (1024 : ℤ) := (hrounded.trans hlimit).trans_lt largest_lt
    exact ⟨hrounded, if_neg (not_le.mpr hlt)⟩
  rcases le_or_gt 0 r with hpos | hneg
  · rw [abs_of_nonneg hpos] at hr
    rcases hmagnitude hpos hr with ⟨hle, hbounded⟩
    refine ⟨roundMagnitude r, ?_, ?_⟩
    · rw [round_coe, roundReal, if_pos hpos, hbounded]
    · rwa [abs_of_nonneg (roundMagnitude_nonneg r)]
  · rw [abs_of_neg hneg] at hr
    rcases hmagnitude (by linarith) hr with ⟨hle, hbounded⟩
    refine ⟨-roundMagnitude (-r), ?_, ?_⟩
    · rw [round_coe, roundReal, if_neg (by linarith), hbounded, EReal.coe_neg]
    · rwa [abs_neg, abs_of_nonneg (roundMagnitude_nonneg (-r))]

/-! ## There and back -/

open RoundingNumeric in
/-- A double that is scaled and divided by the scale again stays finite. -/
theorem isFinite_mul_div {library : MathLibrary} {s x : With library} (hs : IsScale s)
    (hx : Numeric.isFinite x = true) : Numeric.isFinite (s * x / s) = true := by
  rcases (LawfulNumeric.isFinite_iff x).mp hx with ⟨hnan, -, -⟩
  rcases (isCanonical_unpack x.toModel).exists_number_eq hx with ⟨r, hr, hrange⟩
  rcases (isCanonical_unpack s.toModel).exists_magnitude hs.pos hs.ne_top with
    ⟨m, e, hm, hupper, hlower, hscale⟩
  change value x = r at hr
  change value s = (magnitude m e : ℝ) at hscale
  have hpos : 0 < magnitude m e := magnitude_pos e hm
  have hone : magnitude m e ≤ 1 := by
    have hle := hs.le_one
    change value s ≤ 1 at hle
    rw [hscale] at hle
    exact_mod_cast hle
  -- there: the product is no larger than the scaled largest double
  have hproduct : |magnitude m e * r| ≤ magnitude m e * largest := by
    rw [abs_mul, abs_of_pos hpos]
    gcongr
  have hlargest : 0 ≤ largest := magnitude_nonneg _ _
  rcases exists_round_eq hproduct (roundMagnitude_mul_largest_le hm hupper hlower)
    (mul_le_of_le_one_left hlargest hone) with ⟨t, ht, htrange⟩
  have hmul : LawfulNumeric.Denotes (s * x) (t : EReal) := by
    have hdenotes := hs.denotes_mul hnan
    change LawfulNumeric.Denotes (s * x) (round (value s * value x)) at hdenotes
    rwa [hscale, hr, ← EReal.coe_mul, ht] at hdenotes
  -- and back: the quotient is no larger than the largest double
  have hquotient : |t / magnitude m e| ≤ largest := by
    rw [abs_div, abs_of_pos hpos, div_le_iff₀ hpos, mul_comm]
    exact htrange
  rcases exists_round_eq hquotient roundMagnitude_largest.le le_rfl with ⟨q, hq, -⟩
  have hdiv : LawfulNumeric.Denotes (s * x / s) (q : EReal) := by
    have hdenotes := hs.denotes_div hmul.1
    change LawfulNumeric.Denotes (s * x / s) (round (LawfulNumeric.value (s * x) / value s)) at hdenotes
    rwa [hmul.2, hscale, ← EReal.coe_div, hq] at hdenotes
  rw [LawfulNumeric.isFinite_iff]
  rw [LawfulNumeric.Denotes] at hdiv
  rw [hdiv.2]
  exact ⟨hdiv.1, EReal.coe_ne_top q, EReal.coe_ne_bot q⟩

end Double
end DiscreteChoice
