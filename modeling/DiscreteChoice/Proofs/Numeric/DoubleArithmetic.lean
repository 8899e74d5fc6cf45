import DiscreteChoice.Proofs.Numeric.DoubleRounding
import DiscreteChoice.Proofs.Numeric.RoundingLaws

/-!
# Correctly rounded arithmetic

The four operations of doubles give the double next to the exact result, wherever the exact result is
defined: the difference of two infinities, the product of zero and an infinity and the quotient of two
infinities are not, nor is anything divided by zero.

Main results:

- Theorems `Double.denotes_add`, `Double.denotes_sub`, `Double.denotes_mul`, `Double.denotes_div`:
  the operations are correctly rounded.
- Instance `RoundingNumeric Float`: doubles obey the laws of rounding.
-/

namespace DiscreteChoice
namespace Double

open Float.Model UnpackedFloat

/-! ## Rounding any significand -/

/-- A magnitude that ends above its last digit is written with more digits. -/
theorem magnitude_decreaseExponent (m : ℕ) (e target : ℤ) :
    magnitude (decreaseExponent m e target).1 (decreaseExponent m e target).2 = magnitude m e := by
  unfold decreaseExponent magnitude
  simp only [Nat.shiftLeft_eq]
  push_cast
  rw [mul_assoc, ← zpow_natCast, ← zpow_add₀ (by norm_num)]
  congr 2
  omega

/-- The last digit of a magnitude. -/
theorem lastDigit_magnitude {m : ℕ} {e : ℤ} (hm : 0 < m) :
    lastDigit (magnitude m e) = max (Nat.log2 m + e - 52) (-1074) := by
  rw [lastDigit, log_of_floor hm (by rw [magnitude_div, Nat.floor_natCast])]

/-- A magnitude is rounded from any significand. -/
theorem denotes_round (s : Sign) {m : ℕ} (e : ℤ) (hm : 0 < m) :
    Denotes (ofForm (UnpackedFloat.round Format.binary64 s m e))
      (round (signed s (magnitude m e : ℝ))) := by
  have htarget : Format.binary64.targetExponent (totalExponent m e) =
      lastDigit (magnitude m e) := by
    rw [lastDigit_magnitude hm]
    unfold Format.targetExponent totalExponent Format.minExponent Format.mantissaBits
    simp only
    omega
  have hvalue := magnitude_decreaseExponent m e (lastDigit (magnitude m e))
  have hreads := reads_exact (decreaseExponent m e (lastDigit (magnitude m e))).1
    (decreaseExponent m e (lastDigit (magnitude m e))).2
  rw [hvalue] at hreads
  unfold UnpackedFloat.round
  simp only [htarget]
  refine hreads.denotes (magnitude_pos e hm) ?_ s
  unfold decreaseExponent
  simp only
  omega

/-- The number of a finite form from its signed significand. -/
theorem number_apply (s : Sign) (m : ℕ) (e : ℤ) (hm : 0 < m) :
    number (.finite s m e hm) = (((s.apply m : ℤ) : ℝ) * 2 ^ e : ℝ) := by
  cases s <;> simp [number, magnitude, Sign.apply]

/-- A signed significand is rounded, and zero stays zero. -/
theorem denotes_normalize (k : ℤ) (e : ℤ) (s : Sign) :
    Denotes (ofForm (UnpackedFloat.normalize Format.binary64 k e s)) (round ((k : ℝ) * 2 ^ e : ℝ)) := by
  unfold UnpackedFloat.normalize
  rcases lt_trichotomy k 0 with hk | rfl | hk
  · have habs : ((-k).toNat : ℝ) = -k := by
      exact_mod_cast Int.toNat_of_nonneg (by omega)
    have h := denotes_round .negative e (by omega : 0 < (-k).toNat)
    rw [magnitude, habs, signed, ← EReal.coe_neg] at h
    rw [compare_lt_iff_lt.mpr hk]
    simpa using h
  · simpa using denotes_zero s
  · have habs : (k.toNat : ℝ) = k := by
      exact_mod_cast Int.toNat_of_nonneg (by omega)
    have h := denotes_round .positive e (by omega : 0 < k.toNat)
    rw [magnitude, habs] at h
    rw [compare_gt_iff_gt.mpr hk]
    exact h

/-- A canonical form stands for its number. -/
theorem denotes_canonical {u : UnpackedFloat} (hu : IsCanonical u) (hnan : u.isNaN = false) :
    Denotes (ofForm u) (number u) := by
  rcases u with s | _ | s | ⟨s, m, e, hm⟩
  · rw [number_infinity]
    exact denotes_infinity s
  · contradiction
  · exact denotes_zero s
  · rcases hu with ⟨hupper, hlower, hlimit, hcanonical⟩
    have hform : form s m e = .finite s m e hm := dif_neg (Nat.ne_of_gt hm)
    have h := denotes_form s hupper hlower hcanonical
    rw [bounded_magnitude hupper hcanonical, if_pos hlimit, hform] at h
    rw [number_finite]
    exact h

/-! ## Sums -/

/-- A signed significand that ends above its last digit is written with more digits. -/
theorem apply_decreaseExponent (s : Sign) (m : ℕ) {e target : ℤ} (h : target ≤ e) :
    ((s.apply (decreaseExponent m e target).1 : ℤ) : ℝ) * 2 ^ target =
      ((s.apply m : ℤ) : ℝ) * 2 ^ e := by
  have hexponent : (decreaseExponent m e target).2 = target := by
    unfold decreaseExponent
    simp only
    omega
  have hvalue := magnitude_decreaseExponent m e target
  rw [hexponent] at hvalue
  unfold magnitude at hvalue
  cases s <;> simp only [Sign.apply, Int.cast_neg, Int.cast_natCast, neg_mul, hvalue]

/-- Infinities are not rounded. -/
theorem round_signed_top (s : Sign) : round (signed s ⊤) = signed s ⊤ := by
  cases s <;> simp [signed]

/-- An infinity is not changed by what is added, unless that is the opposite one. -/
theorem signed_top_add (s : Sign) {y : EReal} (h : y ≠ -signed s ⊤) :
    signed s ⊤ + y = signed s ⊤ := by
  cases s
  · exact EReal.bot_add y
  · exact EReal.top_add_of_ne_bot (by simpa [signed] using h)

/-- A finite form does not stand for an infinity. -/
theorem number_finite_ne_signed_top (s t : Sign) (m : ℕ) (e : ℤ) (hm : 0 < m) :
    number (.finite s m e hm) ≠ -signed t ⊤ := by
  rw [number_apply]
  cases t
  · simp only [signed, neg_neg]
    exact EReal.coe_ne_top _
  · exact EReal.coe_ne_bot _

theorem zero_ne_signed_top (t : Sign) : (0 : EReal) ≠ -signed t ⊤ := by
  cases t <;> simp [signed]

/-- Sums of forms are correctly rounded. -/
theorem denotes_add_form {u v : UnpackedFloat} (hu : IsCanonical u) (hv : IsCanonical v)
    (hunan : u.isNaN = false) (hvnan : v.isNaN = false) (h : ¬(number u = ⊤ ∧ number v = ⊥))
    (h' : ¬(number u = ⊥ ∧ number v = ⊤)) :
    Denotes (ofForm (UnpackedFloat.add Format.binary64 u v)) (round (number u + number v)) := by
  have hinfinity (s : Sign) {y : EReal} (hy : y ≠ -signed s ⊤) :
      Denotes (ofForm (.infinity s)) (round (number (.infinity s) + y)) := by
    rw [number_infinity, signed_top_add s hy, round_signed_top]
    exact denotes_infinity s
  rcases u with s | _ | s | ⟨s, m, e, hm⟩ <;> rcases v with t | _ | t | ⟨t, n, f, hn⟩ <;>
    first | contradiction | skip
  case infinity.infinity =>
    cases s <;> cases t
    · exact hinfinity .negative (by simp [number, signed])
    · exact absurd ⟨rfl, rfl⟩ h'
    · exact absurd ⟨rfl, rfl⟩ h
    · exact hinfinity .positive (by simp [number, signed])
  case infinity.zero => exact hinfinity s (zero_ne_signed_top s)
  case infinity.finite => exact hinfinity s (number_finite_ne_signed_top t s n f hn)
  case zero.infinity =>
    rw [add_comm]
    exact hinfinity t (zero_ne_signed_top t)
  case finite.infinity =>
    rw [add_comm]
    exact hinfinity t (number_finite_ne_signed_top s t m e hm)
  case zero.zero =>
    have hzero : round (number (.zero s) + number (.zero t)) = 0 := by simp [number]
    rw [hzero]
    cases s <;> cases t <;> exact denotes_zero _
  case zero.finite =>
    have hzero : number (.zero s) + number (.finite t n f hn) = number (.finite t n f hn) :=
      zero_add _
    rw [hzero, round_number hv]
    exact denotes_canonical hv rfl
  case finite.zero =>
    have hzero : number (.finite s m e hm) + number (.zero t) = number (.finite s m e hm) :=
      add_zero _
    rw [hzero, round_number hu]
    exact denotes_canonical hu rfl
  case finite.finite =>
    have hsum := denotes_normalize (s.apply (decreaseExponent m e (min e f)).1 +
      t.apply (decreaseExponent n f (min e f)).1) (min e f) .positive
    rw [Int.cast_add, add_mul, apply_decreaseExponent s m (min_le_left e f),
      apply_decreaseExponent t n (min_le_right e f), EReal.coe_add, ← number_apply s m e hm,
      ← number_apply t n f hn] at hsum
    exact hsum

/-- The opposite form stands for the opposite number. -/
theorem number_neg (u : UnpackedFloat) : number u.neg = -number u := by
  rcases u with (_ | _) | _ | _ | ⟨_ | _, m, e, hm⟩ <;> simp [number, UnpackedFloat.neg]

/-- Subtracting a form is adding its opposite. -/
theorem sub_eq_add_neg_form (u v : UnpackedFloat) :
    UnpackedFloat.sub Format.binary64 u v = UnpackedFloat.add Format.binary64 u v.neg := by
  rcases u with s | _ | s | ⟨s, m, e, hm⟩ <;> rcases v with t | _ | t | ⟨t, n, f, hn⟩ <;>
    first | rfl | skip
  have happly (k : ℤ) : (-t).apply k = -t.apply k := by
    cases t
    · exact (neg_neg k).symm
    · rfl
  unfold UnpackedFloat.sub UnpackedFloat.add UnpackedFloat.neg
  simp only [happly, sub_eq_add_neg]

/-! ## Products and quotients -/

theorem signed_mul (s t : Sign) (x y : EReal) :
    signed s x * signed t y = signed (s * t) (x * y) := by
  cases s <;> cases t
  · exact neg_mul_neg x y
  · exact EReal.neg_mul x y
  · exact mul_neg x y
  · rfl

theorem signed_div (s t : Sign) (x y : EReal) :
    signed s x / signed t y = signed (s / t) (x / y) := by
  have hinv : (signed t y)⁻¹ = signed t y⁻¹ := by
    cases t
    · exact EReal.inv_neg y
    · rfl
  rw [EReal.div_eq_inv_mul, hinv, mul_comm, signed_mul]
  rfl

/-- The product of canonical significands ends at or below its last digit. -/
theorem add_le_lastDigit {m n : ℕ} {e f : ℤ} (hm : 0 < m) (hn : 0 < n)
    (hmcanonical : 2 ^ 52 ≤ m ∨ e = -1074) (hncanonical : 2 ^ 52 ≤ n ∨ f = -1074) :
    e + f ≤ lastDigit (magnitude (m * n) (e + f)) := by
  have hpos : 0 < m * n := Nat.mul_pos hm hn
  rw [lastDigit_magnitude hpos]
  have hlarge (h : 2 ^ 52 ≤ m * n) : 52 ≤ Nat.log2 (m * n) :=
    (Nat.le_log2 (Nat.ne_of_gt hpos)).mpr h
  rcases hmcanonical with hm' | rfl
  · have := hlarge (le_trans hm' (Nat.le_mul_of_pos_right m hn))
    omega
  · rcases hncanonical with hn' | rfl
    · have := hlarge (le_trans hn' (Nat.le_mul_of_pos_left n hm))
      omega
    · omega

/-- Products of forms are correctly rounded. -/
theorem denotes_mul_form {u v : UnpackedFloat} (hu : IsCanonical u) (hv : IsCanonical v)
    (hunan : u.isNaN = false) (hvnan : v.isNaN = false)
    (h : ¬(number u = 0 ∧ (number v = ⊤ ∨ number v = ⊥)))
    (h' : ¬((number u = ⊤ ∨ number u = ⊥) ∧ number v = 0)) :
    Denotes (ofForm (UnpackedFloat.mul Format.binary64 u v)) (round (number u * number v)) := by
  have hmagnitude {m : ℕ} (e : ℤ) (hm : 0 < m) : (0 : EReal) < (magnitude m e : ℝ) :=
    EReal.coe_pos.mpr (magnitude_pos e hm)
  have hinfinity (s t : Sign) {x y : EReal} (hxy : x * y = ⊤) :
      Denotes (ofForm (.infinity (s * t))) (round (signed s x * signed t y)) := by
    rw [signed_mul, hxy, round_signed_top]
    exact denotes_infinity (s * t)
  have hzero (s : Sign) {x y : EReal} (hxy : x * y = 0) :
      Denotes (ofForm (.zero s)) (round (x * y)) := by
    rw [hxy, round_zero]
    exact denotes_zero s
  rcases u with s | _ | s | ⟨s, m, e, hm⟩ <;> rcases v with t | _ | t | ⟨t, n, f, hn⟩ <;>
    first | contradiction | skip
  case infinity.infinity =>
    rw [number_infinity, number_infinity]
    exact hinfinity s t EReal.top_mul_top
  case infinity.finite =>
    rw [number_infinity, number_finite]
    exact hinfinity s t (EReal.top_mul_of_pos (hmagnitude f hn))
  case finite.infinity =>
    rw [number_infinity, number_finite]
    exact hinfinity s t (EReal.mul_top_of_pos (hmagnitude e hm))
  case infinity.zero =>
    exact absurd ⟨by cases s <;> simp [number], rfl⟩ h'
  case zero.infinity =>
    exact absurd ⟨rfl, by cases t <;> simp [number]⟩ h
  case zero.zero => exact hzero _ (zero_mul _)
  case zero.finite => exact hzero _ (zero_mul _)
  case finite.zero => exact hzero _ (mul_zero _)
  case finite.finite =>
    rcases hu with ⟨-, -, -, hmcanonical⟩
    rcases hv with ⟨-, -, -, hncanonical⟩
    have hexact : magnitude m e * magnitude n f = magnitude (m * n) (e + f) := by
      unfold magnitude
      rw [zpow_add₀ (by norm_num)]
      push_cast
      ring
    rw [number_finite, number_finite, signed_mul, ← EReal.coe_mul, hexact]
    exact (reads_exact (m * n) (e + f)).denotes (magnitude_pos _ (Nat.mul_pos hm hn))
      (add_le_lastDigit hm hn hmcanonical hncanonical) (s * t)

/-- What is remembered of a fraction below one. -/
theorem accuracyOfFraction_bits (q r : ℕ) {n : ℕ} (hn : 0 < n) :
    let em := ExtendedMantissa.ofMantissaAndAccuracy q (accuracyOfFraction r n)
    em.mantissa = q ∧ (em.roundBit = true ↔ n ≤ 2 * r) ∧
      (em.stickyBit = true ↔ r ≠ 0 ∧ 2 * r ≠ n) := by
  unfold accuracyOfFraction
  by_cases hr : r = 0
  · simp [hr, ExtendedMantissa.ofMantissaAndAccuracy]
    omega
  · rw [if_neg hr]
    rcases lt_trichotomy (2 * r) n with hlt | heq | hgt
    · rw [compare_lt_iff_lt.mpr hlt]
      simp [ExtendedMantissa.ofMantissaAndAccuracy]
      omega
    · rw [compare_eq_iff_eq.mpr heq]
      simp [ExtendedMantissa.ofMantissaAndAccuracy]
      omega
    · rw [compare_gt_iff_gt.mpr hgt]
      simp [ExtendedMantissa.ofMantissaAndAccuracy]
      omega

/-- A quotient of whole numbers is read from the whole quotient and the remainder. -/
theorem isRead_div (k : ℕ) {n : ℕ} (hn : 0 < n) :
    IsRead (ExtendedMantissa.ofMantissaAndAccuracy (k / n) (accuracyOfFraction (k % n) n))
      ((k : ℝ) / n) := by
  have hpos : (0 : ℝ) < n := by exact_mod_cast hn
  have hfloor : ⌊(k : ℝ) / n⌋₊ = k / n := Nat.floor_div_eq_div k n
  have hrest : (k : ℝ) / n - ((k / n : ℕ) : ℝ) = ((k % n : ℕ) : ℝ) / n := by
    have hdigits : ((n : ℝ) * (k / n : ℕ)) + (k % n : ℕ) = k := by
      exact_mod_cast Nat.div_add_mod k n
    rw [eq_div_iff hpos.ne', sub_mul, div_mul_cancel₀ _ hpos.ne']
    linarith
  have hhalf : (1 : ℝ) / 2 ≤ ((k % n : ℕ) : ℝ) / n ↔ n ≤ 2 * (k % n) := by
    rw [le_div_iff₀ hpos, div_mul_eq_mul_div, one_mul, div_le_iff₀' (by norm_num)]
    exact_mod_cast Iff.rfl
  have hequal : ((k % n : ℕ) : ℝ) / n = 1 / 2 ↔ 2 * (k % n) = n := by
    rw [div_eq_div_iff hpos.ne' (by norm_num), one_mul, mul_comm]
    exact_mod_cast Iff.rfl
  have hnone : ((k % n : ℕ) : ℝ) / n = 0 ↔ k % n = 0 := by
    rw [div_eq_zero_iff, or_iff_left hpos.ne', Nat.cast_eq_zero]
  rcases accuracyOfFraction_bits (k / n) (k % n) hn with ⟨hwhole, hround, hsticky⟩
  refine ⟨hwhole.trans hfloor.symm, ?_, ?_⟩
  · rw [hround, hfloor, hrest, hhalf]
  · rw [hsticky, hfloor, hrest, ne_eq, ne_eq, ne_eq, ne_eq, hnone, hequal]

/-- The power of two of the whole quotient. -/
def quotientExponent (m n : ℕ) (e f : ℤ) : ℤ :=
  min (e - f) (max (Nat.log2 m + e - (Nat.log2 n + f) - 53) (-1074))

/-- The whole quotient, with what is remembered of the remainder. -/
theorem divCore_eq (m n : ℕ) (e f : ℤ) :
    let k := m * 2 ^ (e - f - quotientExponent m n e f).toNat
    divCore Format.binary64 m e n f =
      (k / n, quotientExponent m n e f, accuracyOfFraction (k % n) n) := by
  have htarget : min (e - f)
      (Format.binary64.targetExponent (totalExponent m e - totalExponent n f)) =
      quotientExponent m n e f := by
    unfold quotientExponent Format.targetExponent totalExponent Format.minExponent
      Format.mantissaBits
    simp only
    omega
  unfold divCore
  simp only [htarget, Nat.shiftLeft_eq]

/-- The quotient of the magnitudes is read from the quotient of the significands. -/
theorem reads_divCore {m n : ℕ} (e f : ℤ) (hn : 0 < n) :
    Reads (divCore Format.binary64 m e n f).1 (divCore Format.binary64 m e n f).2.1
      (divCore Format.binary64 m e n f).2.2 (magnitude m e / magnitude n f) := by
  have hpos : (0 : ℝ) < n := by exact_mod_cast hn
  have hshift : ((e - f - quotientExponent m n e f).toNat : ℤ) =
      e - f - quotientExponent m n e f :=
    Int.toNat_of_nonneg (sub_nonneg.mpr (min_le_left _ _))
  rw [divCore_eq]
  have hexact : magnitude m e / magnitude n f / 2 ^ quotientExponent m n e f =
      ((m * 2 ^ (e - f - quotientExponent m n e f).toNat : ℕ) : ℝ) / n := by
    unfold magnitude
    push_cast
    rw [← zpow_natCast, hshift, zpow_sub₀ (by norm_num), zpow_sub₀ (by norm_num)]
    field_simp
  constructor
  rw [hexact]
  exact isRead_div _ hn

/-- The quotient of two significands ends at or below its last digit. -/
theorem divCore_le_lastDigit {m n : ℕ} (e f : ℤ) (hm : 0 < m) (hn : 0 < n) :
    (divCore Format.binary64 m e n f).2.1 ≤ lastDigit (magnitude m e / magnitude n f) := by
  have hlow : Int.log 2 (magnitude m e) = Nat.log2 m + e :=
    log_of_floor hm (by rw [magnitude_div, Nat.floor_natCast])
  have hhigh : Int.log 2 (magnitude n f) = Nat.log2 n + f :=
    log_of_floor hn (by rw [magnitude_div, Nat.floor_natCast])
  have hquotient : Int.log 2 (magnitude m e) - (Int.log 2 (magnitude n f) + 1) ≤
      Int.log 2 (magnitude m e / magnitude n f) := by
    apply (Int.zpow_le_iff_le_log (by norm_num)
      (div_pos (magnitude_pos e hm) (magnitude_pos f hn))).mp
    push_cast
    rw [zpow_sub₀ (by norm_num)]
    apply div_le_div₀ (magnitude_nonneg m e)
    · exact_mod_cast Int.zpow_log_le_self (by norm_num) (magnitude_pos e hm)
    · exact magnitude_pos f hn
    · exact_mod_cast (Int.lt_zpow_succ_log_self (by norm_num) (magnitude n f)).le
  rw [divCore_eq]
  unfold quotientExponent lastDigit
  simp only
  omega

/-- Quotients of forms are correctly rounded. -/
theorem denotes_div_form {u v : UnpackedFloat} (hunan : u.isNaN = false) (hvnan : v.isNaN = false)
    (h : ¬((number u = ⊤ ∨ number u = ⊥) ∧ (number v = ⊤ ∨ number v = ⊥)))
    (h' : number v ≠ 0) :
    Denotes (ofForm (UnpackedFloat.div Format.binary64 u v)) (round (number u / number v)) := by
  have hmagnitude {m : ℕ} (e : ℤ) (hm : 0 < m) : (0 : EReal) < (magnitude m e : ℝ) :=
    EReal.coe_pos.mpr (magnitude_pos e hm)
  have hzero (s : Sign) {x : EReal} (hx : x = 0) : Denotes (ofForm (.zero s)) (round x) := by
    rw [hx, round_zero]
    exact denotes_zero s
  rcases u with s | _ | s | ⟨s, m, e, hm⟩ <;> rcases v with t | _ | t | ⟨t, n, f, hn⟩ <;>
    first | contradiction | exact absurd rfl h' | skip
  case infinity.infinity =>
    exact absurd ⟨by cases s <;> simp [number], by cases t <;> simp [number]⟩ h
  case infinity.finite =>
    rw [number_infinity, number_finite, signed_div,
      EReal.top_div_of_pos_ne_top (hmagnitude f hn) (EReal.coe_ne_top _), round_signed_top]
    exact denotes_infinity (s / t)
  case finite.infinity =>
    refine hzero _ ?_
    rw [number_infinity, number_finite, signed_div, EReal.div_top, signed_zero]
  case zero.infinity => exact hzero _ EReal.zero_div
  case zero.finite => exact hzero _ EReal.zero_div
  case finite.finite =>
    rw [number_finite, number_finite, signed_div, ← EReal.coe_div]
    exact (reads_divCore e f hn).denotes (div_pos (magnitude_pos e hm) (magnitude_pos f hn))
      (divCore_le_lastDigit e f hm hn) (s / t)

/-! ## The operations of doubles -/

variable {x y : Float}

/-- The opposite of a canonical form is canonical. -/
theorem IsCanonical.neg {u : UnpackedFloat} (hu : IsCanonical u) : IsCanonical u.neg := by
  cases u <;> exact hu

theorem isNaN_neg_form (u : UnpackedFloat) : u.neg.isNaN = u.isNaN := by
  cases u <;> rfl

/-- Opposites are exact. -/
theorem denotes_neg (hx : x.isNaN = false) : Denotes (-x) (-value x) := by
  have hopposite : -x = ofForm x.toModel.unpack.neg := rfl
  rw [hopposite, value, ← number_neg]
  apply denotes_canonical (isCanonical_unpack x.toModel).neg
  rw [isNaN_neg_form]
  exact hx

/-- Sums are correctly rounded. -/
theorem denotes_add (hx : x.isNaN = false) (hy : y.isNaN = false)
    (h : ¬(value x = ⊤ ∧ value y = ⊥)) (h' : ¬(value x = ⊥ ∧ value y = ⊤)) :
    Denotes (x + y) (round (value x + value y)) := by
  have hsum : x + y = ofForm (UnpackedFloat.add Format.binary64 x.toModel.unpack
      y.toModel.unpack) := rfl
  rw [hsum]
  exact denotes_add_form (isCanonical_unpack _) (isCanonical_unpack _) hx hy h h'

/-- Differences are correctly rounded. -/
theorem denotes_sub (hx : x.isNaN = false) (hy : y.isNaN = false)
    (h : ¬(value x = ⊤ ∧ value y = ⊤)) (h' : ¬(value x = ⊥ ∧ value y = ⊥)) :
    Denotes (x - y) (round (value x - value y)) := by
  have hdifference : x - y = ofForm (UnpackedFloat.sub Format.binary64 x.toModel.unpack
      y.toModel.unpack) := rfl
  have hsum := denotes_add_form (isCanonical_unpack x.toModel) (isCanonical_unpack y.toModel).neg hx
    ((isNaN_neg_form _).trans hy)
  rw [number_neg] at hsum
  rw [hdifference, sub_eq_add_neg_form, sub_eq_add_neg]
  apply hsum
  · rintro ⟨hxtop, hybot⟩
    exact h ⟨hxtop, EReal.neg_eq_bot_iff.mp hybot⟩
  · rintro ⟨hxbot, hytop⟩
    exact h' ⟨hxbot, EReal.neg_eq_top_iff.mp hytop⟩

/-- Products are correctly rounded. -/
theorem denotes_mul (hx : x.isNaN = false) (hy : y.isNaN = false)
    (h : ¬(value x = 0 ∧ (value y = ⊤ ∨ value y = ⊥)))
    (h' : ¬((value x = ⊤ ∨ value x = ⊥) ∧ value y = 0)) :
    Denotes (x * y) (round (value x * value y)) := by
  have hproduct : x * y = ofForm (UnpackedFloat.mul Format.binary64 x.toModel.unpack
      y.toModel.unpack) := rfl
  rw [hproduct]
  exact denotes_mul_form (isCanonical_unpack _) (isCanonical_unpack _) hx hy h h'

/-- Quotients are correctly rounded. -/
theorem denotes_div (hx : x.isNaN = false) (hy : y.isNaN = false)
    (h : ¬((value x = ⊤ ∨ value x = ⊥) ∧ (value y = ⊤ ∨ value y = ⊥))) (h' : value y ≠ 0) :
    Denotes (x / y) (round (value x / value y)) := by
  have hquotient : x / y = ofForm (UnpackedFloat.div Format.binary64 x.toModel.unpack
      y.toModel.unpack) := rfl
  rw [hquotient]
  exact denotes_div_form hx hy h h'

/-! ## The laws of rounding -/

/-- Adding one to the power of two with exponent 53 is rounded to even. -/
theorem value_full_add_one :
    value (9007199254740992 + 1) = value 9007199254740992 := by
  have heq : ((9007199254740992 + 1 : Float) == 9007199254740992) = true := by decide
  exact ((beq_iff _ _).mp heq).2.2

theorem one_le_value_full : 1 ≤ value 9007199254740992 := by
  have hle : (1 : Float) ≤ 9007199254740992 := by decide
  rw [← value_one]
  exact ((le_iff _ _).mp hle).2.2

theorem value_one_div_full : 0 < value (1 / 9007199254740992) := by
  have hlt : (0 : Float) < 1 / 9007199254740992 := by decide
  rw [← value_zero]
  exact ((lt_iff _ _).mp hlt).2.2

noncomputable instance (library : MathLibrary) : RoundingNumeric (With library) where
  round := round
  round_mono := round_mono
  round_value x _ := round_value x
  denotes_neg (x : Float) hx := denotes_neg hx
  denotes_add (x y : Float) hx hy := denotes_add hx hy
  denotes_sub (x y : Float) hx hy := denotes_sub hx hy
  denotes_mul (x y : Float) hx hy := denotes_mul hx hy
  denotes_div (x y : Float) hx hy := denotes_div hx hy
  full := (9007199254740992 : Float)
  full_finite := show Float.isFinite 9007199254740992 = true by decide
  one_le_full := one_le_value_full
  full_add_one := value_full_add_one
  one_div_full := value_one_div_full

/-! ## A lawful library -/

/-- An exponential that is exact at zero and a logarithm that is exact at one and at two. -/
def MathLibrary.coarse : MathLibrary where
  pow x _ := x
  exp x := if x == 0 then 1 else 0
  ln x := if x == 2 then 0.6931471805599453 else 0

open RoundingNumeric LawfulNumeric in
/-- Exactness at a few places is all that the choice models rely on. -/
theorem lawful_coarse : LawfulFunctions (With .coarse) where
  isShare_exp (x : Float) _ _ := by
    change IsShare (if x == 0 then (1 : With .coarse) else 0)
    split
    · exact isShare_one
    · exact isShare_zero
  exp_zero (x : Float) hx hzero := by
    have heq : (x == 0) = true :=
      (beq_iff x 0).mpr ⟨hx, by decide, hzero.trans Double.value_zero.symm⟩
    change LawfulNumeric.value (if x == 0 then (1 : With .coarse) else 0) = 1
    rw [if_pos heq]
    exact LawfulNumeric.value_one
  ln_nonneg (x : Float) _ _ := by
    change Float.isNaN (if x == 2 then 0.6931471805599453 else 0) = false ∧
      0 ≤ value (if x == 2 then 0.6931471805599453 else 0)
    split
    · have hle : (0 : Float) ≤ 0.6931471805599453 := by decide
      rcases (le_iff _ _).mp hle with ⟨-, hnan, hvalue⟩
      rw [Double.value_zero] at hvalue
      exact ⟨hnan, hvalue⟩
    · exact ⟨by decide, Double.value_zero.ge⟩

end Double

noncomputable instance : RoundingNumeric Float :=
  inferInstanceAs (RoundingNumeric (Double.With .system))

end DiscreteChoice
