import DiscreteChoice.Decimal.Shortest
import DiscreteChoice.Proofs.Decimal.Value

/-!
# The shortest decimal lies in its interval

The search looks at the two neighbours of a number among the multiples of a power of ten. Where the
interval is wider than the power of ten, one of the neighbours lies in it. The power of ten of the
seventeenth digit is small enough for every interval that is not much narrower than a double's.

Main results:

- Theorem `RoundingInterval.exists_nearest?`: a wide interval has a whole number of units in it.
- Theorem `RoundingInterval.contains_search`: what is found lies in the interval.
- Theorem `RoundingInterval.contains_shortest`: the shortest decimal lies in the interval.
-/

namespace DiscreteChoice
namespace Decimal
namespace RoundingInterval

variable {r : RoundingInterval}

/-! ## Intervals -/

/-- A number lies in the interval. -/
def Contains (r : RoundingInterval) (x : ℝ) : Prop :=
  if r.closed then (r.low : ℝ) ≤ x * r.denominator ∧ x * r.denominator ≤ r.high
  else (r.low : ℝ) < x * r.denominator ∧ x * r.denominator < r.high

/-- The number lies between the ends of its interval. -/
structure IsProper (r : RoundingInterval) : Prop where
  low_lt : r.low < r.value
  lt_high : r.value < r.high
  denominator_pos : 0 < r.denominator

/-- A whole number of units is admitted when it lies in the interval. -/
theorem admits_iff (r : RoundingInterval) (units : ℕ) :
    r.admits units = true ↔ r.Contains units := by
  unfold admits Contains
  split
  · rw [Bool.and_eq_true, decide_eq_true_eq, decide_eq_true_eq]
    norm_cast
  · rw [Bool.and_eq_true, decide_eq_true_eq, decide_eq_true_eq]
    norm_cast

/-- The powers of ten that the parts are multiplied by. -/
theorem powerOfTen_toNat (unit : ℤ) :
    (powerOfTen unit.toNat : ℝ) = 10 ^ unit * powerOfTen (-unit).toNat := by
  rw [powerOfTen_eq, powerOfTen_eq, Nat.cast_pow, Nat.cast_pow, Nat.cast_ofNat, ← zpow_natCast,
    ← zpow_natCast, ← zpow_add₀ (by norm_num)]
  congr 1
  omega

/-- A number of units lies in the interval that is measured in them when the number lies in the
interval. -/
theorem contains_inUnits (r : RoundingInterval) (unit : ℤ) (x : ℝ) :
    (r.inUnits unit).Contains x ↔ r.Contains (x * 10 ^ unit) := by
  have hup : (0 : ℝ) < powerOfTen (-unit).toNat := by
    rw [powerOfTen_eq]
    positivity
  have hscaled : x * ((r.denominator : ℝ) * powerOfTen unit.toNat) =
      x * 10 ^ unit * r.denominator * powerOfTen (-unit).toNat := by
    rw [powerOfTen_toNat]
    ring
  unfold Contains inUnits
  simp only [Nat.cast_mul, hscaled, mul_le_mul_iff_left₀ hup, mul_lt_mul_iff_left₀ hup]

/-- Measuring an interval keeps the number between the ends. -/
theorem IsProper.inUnits (h : r.IsProper) (unit : ℤ) : (r.inUnits unit).IsProper where
  low_lt := Nat.mul_lt_mul_of_pos_right h.low_lt (Nat.pow_pos (by norm_num))
  lt_high := Nat.mul_lt_mul_of_pos_right h.lt_high (Nat.pow_pos (by norm_num))
  denominator_pos := Nat.mul_pos h.denominator_pos (Nat.pow_pos (by norm_num))

/-- A unit that is narrower than an interval fits between the ends. -/
theorem inUnits_fits {unit : ℤ} (h : (r.low : ℝ) + 10 ^ unit * r.denominator < r.high) :
    (r.inUnits unit).low + (r.inUnits unit).denominator < (r.inUnits unit).high := by
  have hup : (0 : ℝ) < powerOfTen (-unit).toNat := by
    rw [powerOfTen_eq]
    positivity
  have hscaled := mul_lt_mul_of_pos_right h hup
  rw [add_mul, mul_right_comm, ← powerOfTen_toNat, mul_comm (powerOfTen _ : ℝ)] at hscaled
  exact_mod_cast hscaled

/-! ## The nearest whole number of units -/

/-- What is nearest lies in the interval. -/
theorem contains_of_nearest? {units : ℕ} (h : r.nearest? = some units) : r.Contains units := by
  rw [← admits_iff]
  unfold nearest? at h
  dsimp only at h
  split at h
  · rename_i hbelow habove
    split at h <;> cases h <;> assumption
  · cases h
    assumption
  · cases h
    assumption
  · cases h

/-- When a unit fits between the ends, one of the neighbours of the number lies in the interval. -/
theorem exists_nearest? (h : r.IsProper) (hwide : r.low + r.denominator < r.high) :
    ∃ units, r.nearest? = some units := by
  rcases h with ⟨hlow, hhigh, hden⟩
  have hbelow : r.value / r.denominator * r.denominator ≤ r.value := Nat.div_mul_le_self _ _
  have habove : r.value < (r.value / r.denominator + 1) * r.denominator :=
    Nat.lt_mul_of_div_lt (Nat.lt_succ_self _) hden
  have hnext : (r.value / r.denominator + 1) * r.denominator =
      r.value / r.denominator * r.denominator + r.denominator := Nat.succ_mul _ _
  have hsome : r.admits (r.value / r.denominator) = true ∨
      r.admits (r.value / r.denominator + 1) = true := by
    unfold admits
    cases r.closed <;> simp only [Bool.and_eq_true, decide_eq_true_eq, if_true, if_false,
      Bool.false_eq_true] <;> omega
  unfold nearest?
  dsimp only
  split <;> simp_all

/-! ## The search -/

/-- What is found lies in the interval, when something is found in time. -/
theorem contains_search {point : ℤ} {attempts digits : ℕ}
    (h : ∃ n units, digits ≤ n ∧ n < digits + attempts ∧
      (r.inUnits (point - n)).nearest? = some units) :
    r.Contains (r.search point attempts digits).toReal := by
  induction attempts generalizing digits with
  | zero =>
    rcases h with ⟨n, units, hlow, hhigh, -⟩
    omega
  | succ attempts ih =>
    rw [search]
    cases hnearest : (r.inUnits (point - digits)).nearest? with
    | some units => exact (contains_inUnits r _ _).mp (contains_of_nearest? hnearest)
    | none =>
      rcases h with ⟨n, units, hlow, hhigh, hfound⟩
      refine ih ⟨n, units, ?_, by omega, hfound⟩
      rcases hlow.eq_or_lt with rfl | hlater
      · rw [hnearest] at hfound
        cases hfound
      · exact hlater

/-- The digit in front of the decimal point stands no higher than the fraction reaches. -/
theorem pow_pointPosition_le {value denominator : ℕ} (hvalue : 0 < value)
    (hden : 0 < denominator) :
    (10 : ℝ) ^ (pointPosition value denominator - 1) * denominator ≤ value := by
  unfold pointPosition
  split
  · rename_i hle
    have hcount := digitCount_pos (value / denominator)
    have hpower := pow_digitCount_le (Nat.div_pos hle hden)
    have hproduct : 10 ^ (digitCount (value / denominator) - 1) * denominator ≤ value :=
      (Nat.mul_le_mul_right _ hpower).trans (Nat.div_mul_le_self _ _)
    rw [← Nat.cast_one (R := ℤ), ← Nat.cast_sub hcount, zpow_natCast]
    exact_mod_cast hproduct
  · -- the reciprocal is at most the power of ten of its digits
    rename_i hlt
    generalize hceil : (denominator + value - 1) / value = ceil
    have hreciprocal : denominator ≤ ceil * value := by
      have hmod := Nat.div_add_mod (denominator + value - 1) value
      have hrest := Nat.mod_lt (denominator + value - 1) hvalue
      rw [hceil, Nat.mul_comm] at hmod
      omega
    have hpower : ceil ≤ 10 ^ digitCount (ceil - 1) := by
      have := lt_pow_digitCount (ceil - 1)
      omega
    have hproduct : denominator ≤ 10 ^ digitCount (ceil - 1) * value :=
      hreciprocal.trans (Nat.mul_le_mul_right _ hpower)
    rw [sub_right_comm, sub_self, zero_sub, zpow_neg, zpow_natCast, inv_mul_le_iff₀ (by positivity)]
    exact_mod_cast hproduct

/-- The shortest decimal lies in an interval that is wide enough for seventeen digits. -/
theorem contains_shortest (h : r.IsProper) (hwide : r.value + 10 ^ 16 * r.low < 10 ^ 16 * r.high) :
    r.Contains r.shortest.toReal := by
  rw [shortest, toReal_trimZeros]
  have hvalue : 0 < r.value := Nat.zero_lt_of_lt h.low_lt
  have hpoint := pow_pointPosition_le hvalue h.denominator_pos
  generalize hp : pointPosition r.value r.denominator = point at hpoint ⊢
  -- a unit of the seventeenth digit fits between the ends
  have hunit : (r.low : ℝ) + 10 ^ (point - (17 : ℕ)) * r.denominator < r.high := by
    have hsplit : (10 : ℝ) ^ (point - 1) = 10 ^ (point - (17 : ℕ)) * 10 ^ 16 := by
      rw [← zpow_natCast, ← zpow_add₀ (by norm_num)]
      congr 1
      omega
    have hcast : (r.value : ℝ) + 10 ^ 16 * r.low < 10 ^ 16 * r.high := by exact_mod_cast hwide
    rw [hsplit] at hpoint
    linarith
  rcases exists_nearest? (h.inUnits _) (inUnits_fits hunit) with ⟨units, hunits⟩
  exact contains_search ⟨17, units, by norm_num, by norm_num, hunits⟩

end RoundingInterval
end Decimal
end DiscreteChoice
