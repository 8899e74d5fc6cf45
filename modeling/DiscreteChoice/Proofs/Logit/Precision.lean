import DiscreteChoice.Proofs.Logit.Shares
import DiscreteChoice.Proofs.Numeric.Precision

/-!
# How precise shares are

The exponentials that a choice model divides by are close to the exact ones, and so is their sum. The
flat model divides by that sum, so that its shares add up to one whatever the utilities are. A nest takes
away the rounded logarithm of the sum instead: what rounding takes from it is a small part of the
log-sum-exp itself, which is lost from all shares together.

Main results:

- Theorem `Logit.abs_logSumExp_sub_le`: how far a log-sum-exp is from the exact one.
- Theorem `Logit.abs_sum_shares_sub_le`: how far the shares of the members are from that of their nest.
- Theorem `Logit.abs_sum_flat_sub_one_le`: how far the shares of the flat model are from one.
-/

namespace DiscreteChoice
namespace Logit

open Numeric LawfulNumeric RoundingNumeric PreciseNumeric

variable {α : Type} [Numeric α] [PreciseNumeric α]

/-- The exact sum of the exponentials of a list. -/
noncomputable def mass (xs : List α) : ℝ :=
  (xs.map fun x => realExp (value x)).sum

/-- The exact sum of the exponentials of what the entries are above a number. -/
theorem sum_realExp_sub (xs : List α) (c : ℝ) :
    (xs.map fun x => realExp (value x - c)).sum = mass xs * Real.exp (-c) := by
  simp only [realExp_sub_coe]
  rw [List.sum_map_mul_right]
  rfl

/-- The largest entry is part of the sum. -/
theorem exp_le_mass {xs : List α} {x : α} (hx : x ∈ xs) (hfinite : isFinite x = true) :
    Real.exp (real x) ≤ mass xs := by
  rcases (isFinite_iff x).mp hfinite with ⟨-, htop, hbot⟩
  have hmem : realExp (value x) ∈ xs.map fun x => realExp (value x) := List.mem_map_of_mem hx
  rw [← coe_real htop hbot, realExp_coe] at hmem
  refine List.single_le_sum ?_ _ hmem
  intro e he
  rcases List.mem_map.mp he with ⟨y, -, rfl⟩
  exact realExp_nonneg _

theorem mass_nonneg (xs : List α) : 0 ≤ mass xs := by
  apply List.sum_nonneg
  intro e he
  rcases List.mem_map.mp he with ⟨x, -, rfl⟩
  exact realExp_nonneg _

/-! ## The sum of the exponentials -/

section

variable (functions : AccurateFunctions α) {xs : List α} (hxs : ∀ x ∈ xs, isNaN x = false)
  {largest : α} (hmax : maximum? xs = some largest) (hlargest : isFinite largest = true)

include functions hxs hmax hlargest

/-- The exponentials below the largest entry are close to the exact ones. -/
theorem abs_weights_sub_le :
    |(xs.map fun x => real (exp (x - largest))).sum - mass xs * Real.exp (-real largest)| ≤
      2 * roundoff * (mass xs * Real.exp (-real largest) + xs.length * (1 / 4)) := by
  rcases (isFinite_iff largest).mp hlargest with ⟨-, htop, hbot⟩
  rw [← sum_realExp_sub]
  apply abs_sum_map_sub_le_mul
  intro x hx
  rw [coe_real htop hbot]
  exact functions.abs_exp_sub_le (hxs x hx) hlargest ((maximum?_spec hxs hmax).2 x hx)

/-- The sum of the exponentials below the largest entry is close to the exact one. -/
theorem abs_total_sub_le {start : α} (hstart : IsTotal start) (hzero : real start = 0)
    (hcount : (xs.length : ℝ) ≤ 10 ^ 9) {total : α}
    (htotal : (xs.map fun x => exp (x - largest)).foldl (· + ·) start = total) :
    1 ≤ real total ∧ |real total - mass xs * Real.exp (-real largest)| ≤
      roundoff * real total * (152 / 100 * xs.length + 201 / 100) := by
  have hspec := isTotal_foldl_exp_sub functions.toLawfulFunctions hxs hmax hlargest hstart
  rw [htotal] at hspec
  have hone := hspec.1.one_le_real hspec.2
  refine ⟨hone, ?_⟩
  have hweights := abs_weights_sub_le functions hxs hmax hlargest
  have hsum : |real total - (xs.map fun x => real (exp (x - largest))).sum| ≤
      xs.length * (101 / 100 * roundoff * real total) := by
    have hshares : ∀ weight ∈ xs.map fun x => exp (x - largest), IsShare weight := by
      intro weight hweight
      rcases List.mem_map.mp hweight with ⟨x, hx, rfl⟩
      exact isShare_exp_sub functions.toLawfulFunctions (hxs x hx) hlargest
        ((maximum?_spec hxs hmax).2 x hx)
    have herror := abs_foldl_add_sub_le hshares hstart hone (le_of_eq (congrArg real htotal))
    rw [htotal, hzero, zero_add, List.map_map, List.length_map] at herror
    exact herror
  generalize (xs.map fun x => real (exp (x - largest))).sum = weights at hweights hsum
  have hnonneg : 0 ≤ mass xs * Real.exp (-real largest) :=
    mul_nonneg (mass_nonneg xs) (Real.exp_pos _).le
  generalize mass xs * Real.exp (-real largest) = exact at hweights hnonneg ⊢
  generalize real total = total at hone hsum ⊢
  have hlength : (0 : ℝ) ≤ xs.length := Nat.cast_nonneg _
  generalize (xs.length : ℝ) = count at hcount hlength hweights hsum ⊢
  have hroundoff := roundoff_pos
  have hsmall := roundoff_le
  generalize roundoff = u at hroundoff hsmall hweights hsum ⊢
  have hlost : u * count ≤ 1 / 10 ^ 6 := by nlinarith
  have hlostTotal : u * count * total ≤ 1 / 10 ^ 6 * total := by gcongr
  have hlostOne : u * count * 1 ≤ u * count * total := by gcongr
  have hlostExact : u * exact ≤ 1 / 10 ^ 15 * exact := by gcongr
  rw [abs_le] at hweights hsum
  -- the exact sum is hardly larger than the rounded one, so that all is a part of that
  have hexact : exact ≤ 1001 / 1000 * total := by linarith
  have hexactLost : u * exact ≤ u * (1001 / 1000 * total) := by gcongr
  rw [abs_le]
  constructor
  · linarith
  · linarith

omit functions in
/-- No entry counts for more than the largest one. -/
theorem mass_mul_exp_le : mass xs * Real.exp (-real largest) ≤ xs.length := by
  rcases (isFinite_iff largest).mp hlargest with ⟨-, htop, hbot⟩
  rw [← sum_realExp_sub, coe_real htop hbot]
  have hle : ∀ e ∈ xs.map fun x => realExp (value x - value largest), e ≤ 1 := by
    intro e he
    rcases List.mem_map.mp he with ⟨x, hx, rfl⟩
    exact realExp_le_one (EReal.sub_nonpos.mpr ((maximum?_spec hxs hmax).2 x hx))
  simpa using List.sum_le_card_nsmul _ 1 hle

/-- The logarithm of the sum is close to the exact one, and not large. -/
theorem abs_log_total_sub_le {start : α} (hstart : IsTotal start) (hzero : real start = 0)
    (hcount : (xs.length : ℝ) ≤ 10 ^ 9) {total : α}
    (htotal : (xs.map fun x => exp (x - largest)).foldl (· + ·) start = total) :
    |Real.log (real total) - (Real.log (mass xs) - real largest)| ≤
        roundoff * (153 / 100 * xs.length + 203 / 100) ∧
      Real.log (real total) ≤ 501 / 1000 * xs.length := by
  rcases abs_total_sub_le functions hxs hmax hlargest hstart hzero hcount htotal with ⟨hone, hnear⟩
  have hpos : 0 < mass xs :=
    (Real.exp_pos _).trans_le (exp_le_mass (maximum?_spec hxs hmax).1 hlargest)
  have hcard := mass_mul_exp_le hxs hmax hlargest
  have hexact : Real.log (mass xs * Real.exp (-real largest)) =
      Real.log (mass xs) - real largest := by
    rw [Real.log_mul hpos.ne' (Real.exp_ne_zero _), Real.log_exp]
    ring
  rw [← hexact]
  generalize mass xs * Real.exp (-real largest) = exact at hnear hcard ⊢
  generalize real total = total at *
  have hlength : (0 : ℝ) ≤ xs.length := Nat.cast_nonneg _
  generalize (xs.length : ℝ) = count at *
  have hroundoff := roundoff_pos
  have hsmall := roundoff_le
  generalize roundoff = u at *
  have hpart : u * (152 / 100 * count + 201 / 100) ≤ 1 / 1000 := by nlinarith
  have hclose : |total - exact| ≤ u * (152 / 100 * count + 201 / 100) * total := by
    rwa [mul_right_comm] at hnear
  constructor
  · refine (abs_log_sub_log_le (zero_lt_one.trans_le hone) hclose hpart).trans ?_
    nlinarith
  · have hlost : u * (152 / 100 * count + 201 / 100) * total ≤ 1 / 1000 * total := by gcongr
    have habove := (abs_le.mp hclose).2
    have hhalf := log_le_half (zero_lt_one.trans_le hone)
    linarith

end

/-- A log-sum-exp is the largest entry with a logarithm added to it, which is not large, and with which
it is close to the exact one before it is rounded. -/
theorem exists_denotes_logSumExp (functions : AccurateFunctions α) {xs : List α}
    (hxs : ∀ x ∈ xs, isNaN x = false) (hcount : (xs.length : ℝ) ≤ 10 ^ 9) {logsum : α}
    (h : logSumExp? xs = some logsum) :
    ∃ largest ∈ xs, isFinite largest = true ∧ ∃ s : ℝ,
      Denotes logsum (RoundingNumeric.round α ((real largest + s : ℝ) : EReal)) ∧
      |s| ≤ 6 / 10 * xs.length ∧
      |real largest + s - Real.log (mass xs)| ≤ roundoff * (26 / 10 * xs.length + 205 / 100) := by
  rcases logSumExp?_eq_some_iff.mp h with ⟨largest, hmax, hlargest, hlogsum⟩
  rcases (isFinite_iff largest).mp hlargest with ⟨hnan, htop, hbot⟩
  have hzero : real (-0 : α) = 0 := denotes_neg_zero.real_eq
  have hissum := isTotal_foldl_exp_sub functions.toLawfulFunctions hxs hmax hlargest
    isTotal_neg_zero
  rcases abs_log_total_sub_le functions hxs hmax hlargest isTotal_neg_zero hzero hcount rfl with
    ⟨hlog, hlogle⟩
  rw [sum] at hlogsum
  generalize (xs.map fun x => exp (x - largest)).foldl (· + ·) (-0) = total at *
  have hone := hissum.1.one_le_real hissum.2
  rcases functions.ln_near total (real total) ⟨hissum.1.defined, hissum.1.coe_real.symm⟩ hone with
    ⟨s, hs, hln⟩
  have hsum := denotes_add largest (ln total) hnan hs.1 (fun h => htop h.1) (fun h => hbot h.1)
  rw [hlogsum, hs.2, ← coe_real htop hbot, ← EReal.coe_add] at hsum
  refine ⟨largest, (maximum?_spec hxs hmax).1, hlargest, s, hsum, ?_⟩
  have hlogpos := Real.log_nonneg hone
  have hlost : 2 * roundoff * Real.log (real total) ≤ 2 * roundoff * (501 / 1000 * xs.length) :=
    mul_le_mul_of_nonneg_left hlogle (mul_nonneg zero_le_two roundoff_pos.le)
  have hlength : (0 : ℝ) ≤ xs.length := Nat.cast_nonneg _
  constructor
  · have hsmall := roundoff_mul_le hlength
    rw [abs_le] at hln ⊢
    constructor
    · linarith
    · linarith
  · have hsplit : real largest + s - Real.log (mass xs) = (s - Real.log (real total)) +
        (Real.log (real total) - (Real.log (mass xs) - real largest)) := by ring
    rw [hsplit]
    refine (abs_add_le _ _).trans ?_
    nlinarith [roundoff_pos]

/-- A log-sum-exp is close to the exact one. -/
theorem abs_logSumExp_sub_le (functions : AccurateFunctions α) {xs : List α}
    (hxs : ∀ x ∈ xs, isNaN x = false) (hcount : (xs.length : ℝ) ≤ 10 ^ 9) {logsum : α}
    (h : logSumExp? xs = some logsum) (hfinite : isFinite logsum = true)
    (hbound : |real logsum| ≤ 10 ^ 12) :
    0 < mass xs ∧ |real logsum - Real.log (mass xs)| ≤
      roundoff * (101 / 100 * |real logsum| + 26 / 10 * xs.length + 21 / 10) := by
  rcases exists_denotes_logSumExp functions hxs hcount h with
    ⟨largest, hmem, hlargest, s, hsum, -, hclose⟩
  refine ⟨(Real.exp_pos _).trans_le (exp_le_mass hmem hlargest), ?_⟩
  have hrounded := abs_sub_le_of_denotes hsum hfinite hbound
  have htiny := tiny_le
  have hroundoff := roundoff_pos
  calc |real logsum - Real.log (mass xs)|
      ≤ |real logsum - (real largest + s)| + |real largest + s - Real.log (mass xs)| :=
        abs_sub_le _ _ _
    _ ≤ roundoff * (101 / 100 * |real logsum| + 2 * tiny) +
          roundoff * (26 / 10 * xs.length + 205 / 100) := add_le_add hrounded hclose
    _ ≤ roundoff * (101 / 100 * |real logsum| + 26 / 10 * xs.length + 21 / 10) := by
        rw [← mul_add]
        exact mul_le_mul_of_nonneg_left (by linarith) hroundoff.le

/-! ## The shares of a nest -/

/-- The exponentials of what the entries are below their log-sum-exp are about one in sum. -/
theorem abs_sum_exp_sub_one_le (functions : AccurateFunctions α) {xs : List α}
    (hxs : ∀ x ∈ xs, isNaN x = false) (hcount : (xs.length : ℝ) ≤ 10 ^ 9) {logsum : α}
    (h : logSumExp? xs = some logsum) (hfinite : isFinite logsum = true)
    (hbound : |real logsum| ≤ 10 ^ 12) :
    |(xs.map fun x => real (exp (x - logsum))).sum - 1| ≤
      roundoff * (102 / 100 * |real logsum| + 32 / 10 * xs.length + 42 / 10) := by
  rcases abs_logSumExp_sub_le functions hxs hcount h hfinite hbound with ⟨hpos, hnear⟩
  rcases (isFinite_iff logsum).mp hfinite with ⟨-, htop, hbot⟩
  have hshares : |(xs.map fun x => real (exp (x - logsum))).sum -
      mass xs * Real.exp (-real logsum)| ≤
        2 * roundoff * (mass xs * Real.exp (-real logsum) + xs.length * (1 / 4)) := by
    rw [← sum_realExp_sub]
    apply abs_sum_map_sub_le_mul
    intro x hx
    rw [coe_real htop hbot]
    exact functions.abs_exp_sub_le (hxs x hx) hfinite
      ((logSumExp?_spec functions.toLawfulFunctions hxs h).2.2 x hx).1
  have hexact : mass xs * Real.exp (-real logsum) =
      Real.exp (-(real logsum - Real.log (mass xs))) := by
    rw [neg_sub, sub_eq_add_neg, Real.exp_add, Real.exp_log hpos]
  rw [hexact] at hshares
  generalize real logsum - Real.log (mass xs) = change at hnear hshares
  generalize (xs.map fun x => real (exp (x - logsum))).sum = shares at hshares ⊢
  have hlength : (0 : ℝ) ≤ xs.length := Nat.cast_nonneg _
  generalize (xs.length : ℝ) = count at *
  have hroundoff := roundoff_pos
  have hsmall := roundoff_le
  generalize roundoff = u at *
  have hchange : |-change| ≤ 1 / 500 := by
    rw [abs_neg]
    nlinarith [abs_nonneg (real logsum)]
  have hexp := abs_exp_sub_one_le hchange (by norm_num)
  rw [abs_neg] at hchange hexp
  have hshort : Real.exp (-change) ≤ 1003 / 1000 := by
    have habove := (abs_le.mp hexp).2
    linarith
  have hlost : 2 * u * (Real.exp (-change) + count * (1 / 4)) ≤
      2 * u * (1003 / 1000 + count * (1 / 4)) := by gcongr
  calc |shares - 1| ≤ |shares - Real.exp (-change)| + |Real.exp (-change) - 1| := abs_sub_le _ _ _
    _ ≤ 2 * u * (1003 / 1000 + count * (1 / 4)) + 501 / 500 * |change| := by linarith
    _ ≤ u * (102 / 100 * |real logsum| + 32 / 10 * count + 42 / 10) := by
        nlinarith [abs_nonneg (real logsum)]

/-- A single entry has the whole share. -/
theorem value_exp_sub_singleton (functions : AccurateFunctions α) {x logsum : α}
    (h : logSumExp? [x] = some logsum) : value (exp (x - logsum)) = 1 := by
  rcases logSumExp?_eq_some_iff.mp h with ⟨largest, hmax, hfinite, hlogsum⟩
  obtain rfl : x = largest := Option.some.inj hmax
  rcases (isFinite_iff x).mp hfinite with ⟨hnan, htop, hbot⟩
  have hshare := isShare_exp_sub functions.toLawfulFunctions hnan hfinite le_rfl
  have hone := value_exp_sub_self functions.toLawfulFunctions hfinite
  have hstart := isTotal_neg_zero (α := α)
  have htotal := denotes_add (-0) (exp (x - x)) hstart.defined hshare.defined
    (fun h => hstart.ne_top h.1) (fun h => hstart.ne_bot h.1)
  rw [denotes_neg_zero.2, hone, zero_add, RoundingNumeric.round_one] at htotal
  -- the logarithm of one is zero, so that the log-sum-exp is the entry
  rcases functions.ln_near (-0 + exp (x - x)) 1 htotal le_rfl with ⟨s, hs, hnear⟩
  obtain rfl : s = 0 := by simpa using hnear
  have hsum := denotes_add x (ln (-0 + exp (x - x))) hnan hs.1 (fun h => htop h.1)
    (fun h => hbot h.1)
  have hvalue : Denotes logsum (value x) := by
    rw [hs.2, EReal.coe_zero, add_zero, round_value x hnan] at hsum
    exact hlogsum ▸ hsum
  have hdifference := denotes_sub x logsum hnan hvalue.1 (fun h => htop h.1) (fun h => hbot h.1)
  rw [hvalue.2, EReal.sub_self htop hbot, RoundingNumeric.round_zero] at hdifference
  exact functions.exp_zero _ hdifference.1 hdifference.2

/-- A single member has the share of its nest. -/
theorem real_mul_exp_sub_singleton (functions : AccurateFunctions α) {x logsum own : α}
    (h : logSumExp? [x] = some logsum) (hown : IsShare own) (hshare : IsShare (exp (x - logsum))) :
    real (own * exp (x - logsum)) = real own := by
  have hvalue := denotes_mul own (exp (x - logsum)) hown.defined hshare.defined
    (fun hboth => hboth.2.elim hshare.ne_top hshare.ne_bot)
    (fun hboth => hboth.1.elim hown.ne_top hown.ne_bot)
  rw [value_exp_sub_singleton functions h, mul_one, round_value own hown.defined] at hvalue
  exact congrArg EReal.toReal hvalue.2

section Numerals

-- The numeral has an instance of its own, as for `roundoff`.
local instance numeralTen : Nat.AtLeastTwo 10 := ⟨by omega⟩

/-- How much rounding strains a nest with some number of members and a log-sum-exp: nothing is lost
with a single member, and a log-sum-exp with too many digits loses everything. -/
noncomputable def strain (count : ℕ) (logsum : EReal) : ℝ :=
  if count ≤ 1 then 0
  else if ((-10 ^ 12 : ℝ) : EReal) ≤ logsum ∧ logsum ≤ ((10 ^ 12 : ℝ) : EReal) then
    |logsum.toReal| + 6 * count
  else 10 ^ 16 * count

end Numerals

/-- Moderate entries cause a moderate strain. -/
theorem strain_le (functions : AccurateFunctions α) {xs : List α}
    (hxs : ∀ x ∈ xs, isNaN x = false) (hcount : (xs.length : ℝ) ≤ 10 ^ 9) {limit : ℝ}
    (hlimit : limit ≤ 10 ^ 11) (hbound : ∀ x ∈ xs, |real x| ≤ limit) {logsum : α}
    (h : logSumExp? xs = some logsum) :
    strain xs.length (value logsum) ≤ 2 * limit + 8 * xs.length := by
  rcases exists_denotes_logSumExp functions hxs hcount h with
    ⟨largest, hmem, -, s, hsum, hs, -⟩
  have hlargest := hbound largest hmem
  have hnonneg : 0 ≤ limit := (abs_nonneg _).trans hlargest
  have hlength : (0 : ℝ) ≤ xs.length := Nat.cast_nonneg _
  have hsize : |real largest + s| ≤ limit + 6 / 10 * xs.length :=
    (abs_add_le _ _).trans (add_le_add hlargest hs)
  have hlarge : (2 : ℝ) * 10 ^ 11 ≤ 2 ^ 200 := by norm_num
  rcases near_of_denotes hsum (hsize.trans (by linarith)) with ⟨hdenotes, hnear⟩
  have hlogsum : |real logsum| ≤ 2 * limit + xs.length + 1 := by
    have htriangle := abs_sub_abs_le_abs_sub (real logsum) (real largest + s)
    have hlost := roundoff_mul_le (add_nonneg (abs_nonneg (real largest + s)) tiny_pos.le)
    have htiny := tiny_le
    linarith
  unfold strain
  split_ifs with hfew hrange
  · linarith
  · have hmany : (2 : ℝ) ≤ xs.length := by exact_mod_cast not_le.mp hfew
    change |real logsum| + 6 * (xs.length : ℝ) ≤ _
    linarith
  · refine absurd ?_ hrange
    have hrange := abs_le.mp (hlogsum.trans (by linarith : _ ≤ (10 : ℝ) ^ 12))
    rw [hdenotes.2]
    exact ⟨EReal.coe_le_coe_iff.mpr hrange.1, EReal.coe_le_coe_iff.mpr hrange.2⟩

/-- The shares of several members are those of a nest whose log-sum-exp has digits to spare. -/
theorem abs_sum_shares_sub_le_of_bounded (functions : AccurateFunctions α) {xs : List α}
    (hxs : ∀ x ∈ xs, isNaN x = false) (hmany : 2 ≤ (xs.length : ℝ))
    (hcount : (xs.length : ℝ) ≤ 10 ^ 9) {logsum : α} (h : logSumExp? xs = some logsum)
    (hfinite : isFinite logsum = true) (hbound : |real logsum| ≤ 10 ^ 12) {own : α}
    (hown : IsShare own) (hshares : ∀ x ∈ xs, IsShare (exp (x - logsum))) :
    |(xs.map fun x => real (own * exp (x - logsum))).sum - real own| ≤
      11 / 10 * roundoff * (real own * (|real logsum| + 6 * xs.length)) +
        roundoff * (tiny * xs.length) := by
  have hproducts : |(xs.map fun x => real (own * exp (x - logsum))).sum -
      real own * (xs.map fun x => real (exp (x - logsum))).sum| ≤
        roundoff * (real own * (xs.map fun x => real (exp (x - logsum))).sum +
          xs.length * tiny) := by
    rw [← List.sum_map_mul_left]
    exact abs_sum_map_sub_le_mul fun x hx => abs_mul_sub_le hown (hshares x hx)
  have hsum := abs_sum_exp_sub_one_le functions hxs hcount h hfinite hbound
  have hownnonneg := hown.real_nonneg
  generalize (xs.map fun x => real (own * exp (x - logsum))).sum = products at *
  generalize (xs.map fun x => real (exp (x - logsum))).sum = shares at *
  generalize (xs.length : ℝ) = count at *
  have hroundoff := roundoff_pos
  have hsmall := roundoff_le
  have htiny := tiny_pos
  generalize roundoff = u at *
  have hlogsum := abs_nonneg (real logsum)
  generalize |real logsum| = size at *
  have hlost : u * (102 / 100 * size + 32 / 10 * count + 42 / 10) ≤ 1 / 100 := by nlinarith
  have hrest : |real own * shares - real own| ≤
      real own * (u * (102 / 100 * size + 32 / 10 * count + 42 / 10)) := by
    have hfactor : real own * shares - real own = real own * (shares - 1) := by ring
    rw [hfactor, abs_mul, abs_of_nonneg hownnonneg]
    gcongr
  have hshort : shares ≤ 101 / 100 := by
    have habove := (abs_le.mp hsum).2
    linarith
  calc |products - real own|
      ≤ |products - real own * shares| + |real own * shares - real own| := abs_sub_le _ _ _
    _ ≤ u * (real own * (101 / 100) + count * tiny) +
          real own * (u * (102 / 100 * size + 32 / 10 * count + 42 / 10)) := by
        refine add_le_add (hproducts.trans ?_) hrest
        gcongr
    _ = real own * u * (102 / 100 * size + 32 / 10 * count + 521 / 100) + u * (tiny * count) := by
        ring
    _ ≤ real own * u * (11 / 10 * (size + 6 * count)) + u * (tiny * count) := by
        gcongr
        linarith
    _ = 11 / 10 * u * (real own * (size + 6 * count)) + u * (tiny * count) := by ring

/-- The shares of several members are at most that of their nest each. -/
theorem abs_sum_shares_sub_le_length {xs : List α} (hsome : 1 ≤ (xs.length : ℝ)) {logsum own : α}
    (hown : IsShare own) (hshares : ∀ x ∈ xs, IsShare (exp (x - logsum))) :
    |(xs.map fun x => real (own * exp (x - logsum))).sum - real own| ≤ real own * xs.length := by
  have hownnonneg := hown.real_nonneg
  have hnonneg : 0 ≤ (xs.map fun x => real (own * exp (x - logsum))).sum := by
    apply List.sum_nonneg
    intro e he
    rcases List.mem_map.mp he with ⟨x, hx, rfl⟩
    exact (hown.mul (hshares x hx)).real_nonneg
  have hle : (xs.map fun x => real (own * exp (x - logsum))).sum ≤ xs.length * real own := by
    have hbound : ∀ e ∈ xs.map fun x => real (own * exp (x - logsum)), e ≤ real own := by
      intro e he
      rcases List.mem_map.mp he with ⟨x, hx, rfl⟩
      exact hown.real_mul_le (hshares x hx)
    simpa using List.sum_le_card_nsmul _ (real own) hbound
  rw [abs_le]
  constructor
  · nlinarith
  · linarith

/-- The shares of the members add up to the share of their nest, as far as the strain allows. -/
theorem abs_sum_shares_sub_le (functions : AccurateFunctions α) {xs : List α}
    (hxs : ∀ x ∈ xs, isNaN x = false) (hcount : (xs.length : ℝ) ≤ 10 ^ 9) {logsum : α}
    (h : logSumExp? xs = some logsum) {own : α} (hown : IsShare own) :
    |(xs.map fun x => real (own * exp (x - logsum))).sum - real own| ≤
      11 / 10 * roundoff * (real own * strain xs.length (value logsum)) +
        roundoff * (tiny * (2 * (xs.length - 1))) := by
  have hspec := logSumExp?_spec functions.toLawfulFunctions hxs h
  have hshares : ∀ x ∈ xs, IsShare (exp (x - logsum)) := by
    intro x hx
    rcases hspec.2.2 x hx with ⟨hle, htop⟩
    rcases sub_nonpos (hxs x hx) hspec.1 htop hspec.2.1 hle with ⟨hdefined, hnonpos⟩
    exact functions.isShare_exp _ hdefined hnonpos
  unfold strain
  split_ifs with hfew hrange
  · -- a single member has everything
    match xs with
    | [] => cases h
    | [x] => simp [real_mul_exp_sub_singleton functions h hown (hshares x List.mem_cons_self)]
    | _ :: _ :: _ => simp at hfew
  · have hmany : 2 ≤ (xs.length : ℝ) := by exact_mod_cast not_le.mp hfew
    have htop : value logsum ≠ ⊤ := ne_top_of_le_ne_top (EReal.coe_ne_top _) hrange.2
    have hbot : value logsum ≠ ⊥ := ne_bot_of_le_ne_bot (EReal.coe_ne_bot _) hrange.1
    have hfinite : isFinite logsum = true := (isFinite_iff _).mpr ⟨hspec.1, htop, hbot⟩
    have hbound : |real logsum| ≤ 10 ^ 12 := by
      rw [← coe_real htop hbot] at hrange
      exact abs_le.mpr ⟨by exact_mod_cast hrange.1, by exact_mod_cast hrange.2⟩
    have herror := abs_sum_shares_sub_le_of_bounded functions hxs hmany hcount h hfinite hbound
      hown hshares
    refine herror.trans (add_le_add le_rfl ?_)
    exact mul_le_mul_of_nonneg_left (mul_le_mul_of_nonneg_left (by linarith) tiny_pos.le)
      roundoff_pos.le
  · have hmany : 2 ≤ (xs.length : ℝ) := by exact_mod_cast not_le.mp hfew
    have herror := abs_sum_shares_sub_le_length (by linarith) hown hshares
    have hownnonneg := hown.real_nonneg
    have hlarge : 1 ≤ 11 / 10 * roundoff * 10 ^ 16 := by linarith [le_roundoff]
    have hrest : 0 ≤ roundoff * (tiny * (2 * ((xs.length : ℝ) - 1))) :=
      mul_nonneg roundoff_pos.le (mul_nonneg tiny_pos.le (by linarith))
    calc |(xs.map fun x => real (own * exp (x - logsum))).sum - real own|
        ≤ 1 * (real own * xs.length) := by rw [one_mul]; exact herror
      _ ≤ 11 / 10 * roundoff * 10 ^ 16 * (real own * xs.length) := by gcongr
      _ = 11 / 10 * roundoff * (real own * (10 ^ 16 * xs.length)) := by ring
      _ ≤ _ := le_add_of_nonneg_right hrest

/-! ## The flat model -/

/-- Only available alternatives have a weight. -/
theorem sum_weights (largest : α) (v : UtilityVector α) :
    (v.entries.toList.map fun entry => real (weight largest entry)).sum =
      (v.availableUtilities.map fun u => real (exp (u - largest))).sum := by
  rw [UtilityVector.availableUtilities]
  induction v.entries.toList with
  | nil => rfl
  | cons entry entries ih =>
    cases entry with
    | none => simpa [weight] using ih
    | some u => simpa [weight] using ih

/-- The shares are close to the exact quotients of the weights. -/
theorem abs_sum_quotients_sub_le {v : UtilityVector α} {largest total : α}
    (hweights : ∀ entry ∈ v.entries, IsShare (weight largest entry))
    (htotal : IsTotal total) (hone : 1 ≤ real total) :
    |((v.entries.map fun entry => weight largest entry / total).toList.map real).sum -
      (v.availableUtilities.map fun u => real (exp (u - largest))).sum / real total| ≤
        roundoff * ((v.availableUtilities.map fun u => real (exp (u - largest))).sum / real total +
          v.size * tiny) := by
  have hsum : (v.availableUtilities.map fun u => real (exp (u - largest))).sum / real total =
      (v.entries.toList.map fun entry => real (weight largest entry) / real total).sum := by
    simp only [div_eq_mul_inv]
    rw [List.sum_map_mul_right, sum_weights]
  have hsize : (v.size : ℝ) = v.entries.toList.length := rfl
  rw [hsum, hsize, Array.toList_map, List.map_map]
  exact abs_sum_map_sub_le_mul fun entry hentry =>
    abs_div_sub_le (hweights entry (Array.mem_toList_iff.mp hentry)) htotal hone

/-- The shares add up to one when the total is close to the sum of the weights. -/
theorem abs_sum_quotients_sub_one_le {v : UtilityVector α} {largest total : α}
    (hweights : ∀ entry ∈ v.entries, IsShare (weight largest entry))
    (htotal : IsTotal total) (hone : 1 ≤ real total)
    (hsum : |real total - (v.availableUtilities.map fun u => real (exp (u - largest))).sum| ≤
      v.availableUtilities.length * (101 / 100 * roundoff * real total))
    (hcount : (v.size : ℝ) ≤ 10 ^ 9) :
    |((v.entries.map fun entry => weight largest entry / total).toList.map real).sum - 1| ≤
      roundoff * (102 / 100 * v.size + 2) := by
  have hentries := abs_sum_quotients_sub_le hweights htotal hone
  generalize ((v.entries.map fun entry => weight largest entry / total).toList.map real).sum =
    shares at *
  generalize (v.availableUtilities.map fun u => real (exp (u - largest))).sum = weights at *
  have hlength : (v.availableUtilities.length : ℝ) ≤ v.size := by
    exact_mod_cast List.length_filterMap_le _ _
  have hnonneg : (0 : ℝ) ≤ v.size := Nat.cast_nonneg _
  generalize (v.size : ℝ) = size at *
  have hroundoff := roundoff_pos
  have hsmall := roundoff_le
  have htiny := tiny_le
  have htinypos := tiny_pos
  generalize roundoff = u at *
  have hquotient : |weights / real total - 1| ≤ size * (101 / 100 * u) := by
    have hpos : 0 < real total := by linarith
    have hfactor : weights / real total - 1 = (weights - real total) / real total := by
      field_simp
    rw [hfactor, abs_div, abs_of_pos hpos, div_le_iff₀ hpos, abs_sub_comm]
    calc |real total - weights|
        ≤ v.availableUtilities.length * (101 / 100 * u * real total) := hsum
      _ ≤ size * (101 / 100 * u * real total) := by gcongr
      _ = size * (101 / 100 * u) * real total := by ring
  generalize weights / real total = quotient at *
  have hlost : size * (101 / 100 * u) ≤ 1 / 100 := by nlinarith
  have hshort : quotient ≤ 101 / 100 := by
    have habove := (abs_le.mp hquotient).2
    linarith
  have hrest : size * tiny ≤ 1 / 100 := by nlinarith
  calc |shares - 1| ≤ |shares - quotient| + |quotient - 1| := abs_sub_le _ _ _
    _ ≤ u * (101 / 100 + 1 / 100) + size * (101 / 100 * u) := by
        refine add_le_add (hentries.trans ?_) hquotient
        gcongr
    _ ≤ u * (102 / 100 * size + 2) := by nlinarith

/-- The shares of the flat model add up to one, up to the digits that are lost in the sum. -/
theorem abs_sum_flat_sub_one_le (functions : AccurateFunctions α) {v : UtilityVector α}
    (hfinite : ∀ u ∈ v.availableUtilities, isFinite u = true) (hcount : (v.size : ℝ) ≤ 10 ^ 9)
    {p : Array α} (h : flatProbabilities v = .ok p) :
    |(p.toList.map real).sum - 1| ≤ roundoff * (102 / 100 * v.size + 2) := by
  have hdefined : ∀ u ∈ v.availableUtilities, isNaN u = false :=
    fun u hu => isNaN_of_isFinite (hfinite u hu)
  unfold flatProbabilities at h
  split at h
  · cases h
  rename_i largest hmax
  split at h
  · rename_i hlargest
    rcases Except.ok.inj h with rfl
    have hshare {u : α} (hu : u ∈ v.availableUtilities) : IsShare (exp (u - largest)) :=
      isShare_exp_sub functions.toLawfulFunctions (hdefined u hu) hlargest
        ((maximum?_spec hdefined hmax).2 u hu)
    have hweights : ∀ entry ∈ v.entries, IsShare (weight largest entry) := by
      intro entry hentry
      cases entry with
      | none => exact isShare_zero
      | some u => exact hshare (mem_availableUtilities.mpr hentry)
    have htotal := isTotal_foldl_exp_sub functions.toLawfulFunctions hdefined hmax hlargest
      isTotal_zero
    have hone := htotal.1.one_le_real htotal.2
    have hsum := abs_foldl_add_sub_le (List.forall_mem_map.mpr fun u hu => hshare hu) isTotal_zero
      hone le_rfl
    rw [real_zero, zero_add, List.map_map, List.length_map] at hsum
    simp only [List.foldl_map] at hone hsum htotal
    exact abs_sum_quotients_sub_one_le hweights htotal.1 hone hsum hcount
  · cases h

end Logit
end DiscreteChoice
