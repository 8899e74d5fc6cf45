import DiscreteChoice.Proofs.Numeric.DoubleOrder

/-!
# How a double is rounded

The operations of doubles work out a whole significand, remember whether the digits behind it are
more or less than half a unit, and shift the significand until its last digit is the one that the
double can have. Shifting moves the lowest digit to the two bits that are remembered, so that nothing
needed for rounding is lost.

Main results:

- Theorem `Double.IsRead.shiftRight`: shifting keeps what is remembered right.
- Theorem `Double.value_pack_roundWithAccuracy`: the double that is made of a significand stands for
  the rounded number.
-/

namespace DiscreteChoice
namespace Double

open Float.Model UnpackedFloat

/-! ## What is not rounded -/

/-- A magnitude with a sign. -/
noncomputable def signed (s : Sign) (x : EReal) : EReal :=
  match s with
  | .positive => x
  | .negative => -x

@[simp] theorem signed_zero (s : Sign) : signed s 0 = 0 := by
  cases s
  · exact neg_zero
  · rfl

/-- The number that a finite form stands for. -/
theorem number_finite (s : Sign) (m : ℕ) (e : ℤ) (hm : 0 < m) :
    number (.finite s m e hm) = signed s (magnitude m e : ℝ) := by
  cases s
  · exact EReal.coe_neg _
  · rfl

/-- The rounded number with a sign is the number with a sign rounded. -/
theorem round_signed (s : Sign) {x : ℝ} (hx : 0 ≤ x) :
    round (signed s x) = signed s (bounded (roundMagnitude x)) := by
  cases s
  · rw [signed, signed, ← EReal.coe_neg, round_coe, roundReal]
    rcases hx.eq_or_lt with rfl | hx
    · simp
    · rw [if_neg (by linarith), neg_neg]
  · rw [signed, signed, round_coe, roundReal, if_pos hx]

/-- The number of a canonical form is not changed by rounding. -/
theorem round_number {u : UnpackedFloat} (hu : IsCanonical u) : round (number u) = number u := by
  rcases u with (_ | _) | _ | _ | ⟨s, m, e, hm⟩
  · exact round_bot
  · exact round_top
  · exact round_zero
  · exact round_zero
  · rcases hu with ⟨hupper, hlower, hlimit, hdigits⟩
    rw [number_finite, round_signed s (magnitude_nonneg m e),
      roundMagnitude_magnitude hm hupper hlower hdigits, bounded_magnitude hupper hdigits,
      if_pos hlimit]

/-- The number that a double stands for is not changed by rounding. -/
theorem round_value (x : Float) : round (value x) = value x :=
  round_number (isCanonical_unpack x.toModel)

/-! ## Extended significands -/

/-- The significand is the whole part of the number, the round bit says whether the rest reaches one
half, and the sticky bit whether the rest is neither nothing nor one half. -/
structure IsRead (em : ExtendedMantissa) (y : ℝ) : Prop where
  whole : em.mantissa = ⌊y⌋₊
  half : em.roundBit = true ↔ 1 / 2 ≤ y - ⌊y⌋₊
  odd : em.stickyBit = true ↔ y - ⌊y⌋₊ ≠ 0 ∧ y - ⌊y⌋₊ ≠ 1 / 2

/-- The whole part of half a number. -/
theorem floor_half (y : ℝ) : ⌊y / 2⌋₊ = ⌊y⌋₊ / 2 := by
  have := Nat.floor_div_natCast y 2
  exact_mod_cast this

/-- The rest of half a number is half of the dropped digit and half of the rest. -/
theorem rest_half (y : ℝ) :
    y / 2 - ⌊y / 2⌋₊ = ((⌊y⌋₊ % 2 : ℕ) + (y - ⌊y⌋₊)) / 2 := by
  have hdigits : ((⌊y⌋₊ / 2 : ℕ) : ℝ) * 2 + (⌊y⌋₊ % 2 : ℕ) = ⌊y⌋₊ := by
    exact_mod_cast Nat.div_add_mod' _ 2
  rw [floor_half y]
  linarith

/-- What is remembered says whether there is a rest. -/
theorem IsRead.rest_ne_zero {em : ExtendedMantissa} {y : ℝ} (h : IsRead em y) :
    (em.roundBit || em.stickyBit) = true ↔ y - ⌊y⌋₊ ≠ 0 := by
  rw [Bool.or_eq_true, h.half, h.odd]
  constructor
  · rintro (hhalf | hodd)
    · linarith
    · exact hodd.1
  · intro hne
    by_cases hhalf : 1 / 2 ≤ y - ⌊y⌋₊
    · exact .inl hhalf
    · exact .inr ⟨hne, by linarith⟩

/-- Shifting by one digit halves the number. -/
theorem IsRead.shiftRightOne {em : ExtendedMantissa} {y : ℝ} (h : IsRead em y) (hy : 0 ≤ y) :
    IsRead em.shiftRightOne (y / 2) := by
  have hlow : 0 ≤ y - ⌊y⌋₊ := sub_nonneg.mpr (Nat.floor_le hy)
  have hhigh : y - ⌊y⌋₊ < 1 := by
    have := Nat.lt_floor_add_one y
    linarith
  have hsticky := h.rest_ne_zero
  rcases h with ⟨hwhole, -, -⟩
  -- the dropped digit decides about one half, and the rest about everything below
  rcases Nat.mod_two_eq_zero_or_one ⌊y⌋₊ with hdigit | hdigit
  · have hrest : y / 2 - ⌊y / 2⌋₊ = (y - ⌊y⌋₊) / 2 := by
      rw [rest_half, hdigit]
      simp
    refine ⟨by rw [ExtendedMantissa.shiftRightOne, hwhole, floor_half], ?_, ?_⟩
    · rw [hrest, ExtendedMantissa.shiftRightOne, hwhole, hdigit]
      simp only [bne_self_eq_false, Bool.false_eq_true, false_iff, not_le]
      linarith
    · rw [hrest, ExtendedMantissa.shiftRightOne, hsticky]
      constructor
      · intro hne
        exact ⟨by simpa using hne, by linarith⟩
      · rintro ⟨hne, -⟩ hzero
        exact hne (by rw [hzero]; simp)
  · have hrest : y / 2 - ⌊y / 2⌋₊ = (1 + (y - ⌊y⌋₊)) / 2 := by
      rw [rest_half, hdigit]
      simp
    refine ⟨by rw [ExtendedMantissa.shiftRightOne, hwhole, floor_half], ?_, ?_⟩
    · rw [hrest, ExtendedMantissa.shiftRightOne, hwhole, hdigit]
      simp only [bne_iff_ne, ne_eq, one_ne_zero, not_false_eq_true, true_iff]
      linarith
    · rw [hrest, ExtendedMantissa.shiftRightOne, hsticky]
      constructor
      · intro hne
        refine ⟨by linarith, fun hhalf => hne ?_⟩
        linarith
      · rintro ⟨-, hne⟩ hzero
        exact hne (by rw [hzero]; norm_num)

/-- Shifting by several digits divides the number by a power of two. -/
theorem IsRead.shiftRight {em : ExtendedMantissa} {y : ℝ} (h : IsRead em y) (hy : 0 ≤ y) (n : ℕ) :
    IsRead (em >>> n) (y / 2 ^ n) := by
  change IsRead (n.repeat ExtendedMantissa.shiftRightOne em) (y / 2 ^ n)
  induction n with
  | zero => simpa [Nat.repeat] using h
  | succ n ih =>
    have hshift := ih.shiftRightOne (by positivity)
    rw [div_div, ← pow_succ] at hshift
    exact hshift

/-- The rounded significand is the whole number next to the number. -/
theorem IsRead.roundedMantissa_eq {em : ExtendedMantissa} {y : ℝ} (h : IsRead em y) :
    em.roundedMantissa = nearest y := by
  rcases em with ⟨mantissa, roundBit, stickyBit⟩
  rcases h with ⟨rfl, hhalf, hodd⟩
  simp only at hhalf hodd
  unfold nearest
  cases roundBit <;> cases stickyBit
  · -- there is no rest
    have hlt : y - ⌊y⌋₊ < 1 / 2 := by simpa using hhalf
    rw [if_pos hlt]
    rfl
  · have hlt : y - ⌊y⌋₊ < 1 / 2 := by simpa using hhalf
    rw [if_pos hlt]
    rfl
  · -- the rest is one half
    have hle : 1 / 2 ≤ y - ⌊y⌋₊ := by simpa using hhalf
    have heq : y - ⌊y⌋₊ = 1 / 2 := by
      by_contra hne
      have := hodd.mpr ⟨by linarith, hne⟩
      simp at this
    rw [if_neg (by linarith), if_neg (by linarith)]
    rfl
  · have hle : 1 / 2 ≤ y - ⌊y⌋₊ := by simpa using hhalf
    have hne : y - ⌊y⌋₊ ≠ 1 / 2 := (hodd.mp rfl).2
    rw [if_neg (by linarith), if_pos (lt_of_le_of_ne hle hne.symm)]
    rfl

/-! ## Rounding a significand -/

/-- The significand and the accuracy are those of the number divided by a power of two. -/
structure Reads (m : ℕ) (e : ℤ) (accuracy : Accuracy) (x : ℝ) : Prop where
  isRead : IsRead (ExtendedMantissa.ofMantissaAndAccuracy m accuracy) (x / 2 ^ e)

/-- A significand stands exactly for its magnitude. -/
theorem reads_exact (m : ℕ) (e : ℤ) : Reads m e .exact (magnitude m e) := by
  constructor
  rw [magnitude_div]
  constructor <;> simp [ExtendedMantissa.ofMantissaAndAccuracy]

theorem Reads.floor_eq {m : ℕ} {e : ℤ} {accuracy : Accuracy} {x : ℝ} (h : Reads m e accuracy x) :
    ⌊x / 2 ^ e⌋₊ = m := by
  have hwhole := h.isRead.whole
  rcases accuracy with _ | (_ | _ | _) <;> exact hwhole.symm

/-- The exponent that a significand is shifted to is the one of the last digit, unless the significand
ends above it already. -/
theorem targetExponent_eq {m : ℕ} {e : ℤ} {accuracy : Accuracy} {x : ℝ}
    (h : Reads m e accuracy x) (hx : 0 < x) (he : e ≤ lastDigit x) :
    Format.binary64.targetExponent (totalExponent m e) = lastDigit x := by
  have htarget : Format.binary64.targetExponent (totalExponent m e) =
      max (Nat.log2 m + e - 52) (-1074) := by
    unfold Format.targetExponent totalExponent Format.minExponent Format.mantissaBits
    simp only
    omega
  rw [htarget]
  rcases Nat.eq_zero_or_pos m with rfl | hm
  · -- the number is below the last digit, which is the smallest one then
    have hsmall : x < 2 ^ e := by
      have hquotient : x / 2 ^ e < 1 := Nat.floor_eq_zero.mp h.floor_eq
      rwa [div_lt_one (by positivity)] at hquotient
    have hlog : Int.log 2 x < e :=
      (Int.lt_zpow_iff_log_lt (by norm_num) hx).mp (by exact_mod_cast hsmall)
    unfold lastDigit at he ⊢
    simp only [Nat.log2_zero]
    omega
  · rw [lastDigit, log_of_floor hm h.floor_eq]

/-- The form with a sign and a significand, which may be zero. -/
def form (s : Sign) (m : ℕ) (e : ℤ) : UnpackedFloat :=
  if h : m = 0 then .zero s else .finite s m e (Nat.pos_of_ne_zero h)

/-- A significand that is read from a number is shifted to the last digit and stays read. -/
theorem Reads.shiftToTargetExponent_eq {m : ℕ} {e : ℤ} {accuracy : Accuracy} {x : ℝ}
    (h : Reads m e accuracy x) (hx : 0 < x) (he : e ≤ lastDigit x) :
    ∃ em, shiftToTargetExponent Format.binary64 m e accuracy = (em, lastDigit x) ∧
      IsRead em (x / 2 ^ lastDigit x) := by
  have hshift : e + (lastDigit x - e).toNat = lastDigit x := by omega
  have hread := h.isRead.shiftRight (by positivity) (lastDigit x - e).toNat
  rw [div_div, ← zpow_natCast, ← zpow_add₀ (by norm_num), hshift] at hread
  refine ⟨_, ?_, hread⟩
  unfold shiftToTargetExponent shiftToExponent
  rw [targetExponent_eq h hx he]
  simp only [hshift]

/-- A significand within the limit is not shifted. -/
theorem shiftToTargetExponent_of_lt {n : ℕ} {f : ℤ} (hn : n < 2 ^ 53) (hf : -1074 ≤ f) :
    shiftToTargetExponent Format.binary64 n f .exact = (⟨n, false, false⟩, f) := by
  have hlog : Nat.log2 n ≤ 52 := by
    rcases Nat.eq_zero_or_pos n with rfl | hpos
    · simp
    · exact Nat.lt_succ_iff.mp ((Nat.log2_lt (Nat.ne_of_gt hpos)).mpr hn)
  have hshift : (Format.binary64.targetExponent (totalExponent n f) - f).toNat = 0 := by
    unfold Format.targetExponent totalExponent Format.minExponent Format.mantissaBits
    simp only
    omega
  unfold shiftToTargetExponent shiftToExponent
  simp only [hshift]
  rw [Nat.cast_zero, add_zero]
  rfl

/-- A significand at the limit is shifted by one digit. -/
theorem shiftToTargetExponent_limit {f : ℤ} (hf : -1074 ≤ f) :
    shiftToTargetExponent Format.binary64 (2 ^ 53) f .exact =
      (⟨2 ^ 52, false, false⟩, f + 1) := by
  have hshift : (Format.binary64.targetExponent (totalExponent (2 ^ 53) f) - f).toNat = 1 := by
    unfold Format.targetExponent totalExponent Format.minExponent Format.mantissaBits
    simp only [Nat.log2_two_pow]
    omega
  unfold shiftToTargetExponent shiftToExponent
  simp only [hshift]
  rw [Nat.cast_one]
  rfl

/-- The two shifts of a rounded significand. -/
theorem roundWithAccuracy_eq_form (s : Sign) (m : ℕ) (e : ℤ) (accuracy : Accuracy) :
    let first := shiftToTargetExponent Format.binary64 m e accuracy
    let second := shiftToTargetExponent Format.binary64 first.1.roundedMantissa first.2 .exact
    roundWithAccuracy Format.binary64 s m e accuracy = form s second.1.mantissa second.2 := rfl

/-- Rounding gives a canonical form, apart from an upper limit. -/
theorem Reads.roundWithAccuracy_eq {m : ℕ} {e : ℤ} {accuracy : Accuracy} {x : ℝ}
    (h : Reads m e accuracy x) (hx : 0 < x) (he : e ≤ lastDigit x) (s : Sign) :
    ∃ n f, roundWithAccuracy Format.binary64 s m e accuracy = form s n f ∧
      n < 2 ^ 53 ∧ -1074 ≤ f ∧ (2 ^ 52 ≤ n ∨ f = -1074) ∧ magnitude n f = roundMagnitude x := by
  rcases h.shiftToTargetExponent_eq hx he with ⟨em, hshift, hread⟩
  have hbottom := neg_1074_le_lastDigit x
  rw [roundWithAccuracy_eq_form]
  simp only [hshift]
  rw [hread.roundedMantissa_eq]
  rcases (nearest_div_lastDigit_le x).lt_or_eq with hlimit | hlimit
  · rw [shiftToTargetExponent_of_lt hlimit hbottom]
    refine ⟨_, _, rfl, hlimit, hbottom, ?_, rfl⟩
    rcases hbottom.eq_or_lt with hdigit | hdigit
    · exact .inr hdigit.symm
    · exact .inl (le_nearest_div_lastDigit hx hdigit)
  · -- rounding up to the limit takes one digit more
    rw [hlimit, shiftToTargetExponent_limit hbottom]
    refine ⟨_, _, rfl, by norm_num, by omega, .inl le_rfl, ?_⟩
    rw [roundMagnitude, hlimit]
    unfold magnitude
    rw [zpow_add_one₀ (by norm_num)]
    push_cast
    ring

/-! ## Packing -/

/-- The sign of packed parts. -/
@[simp] theorem unpackSign_packComponents {spec : Format} (s : Sign)
    (exponent : BitVec spec.exponentBits) (fraction : BitVec spec.mantissaBitsWithoutImplicit) :
    unpackSign (packComponents spec s exponent fraction) = s.toBitVec := by
  apply BitVec.eq_of_getLsbD_eq
  intro i hi
  have hi : i = 0 := by omega
  subst hi
  simp [unpackSign, packComponents, BitVec.getLsbD_append, BitVec.getLsbD_eq_getElem,
    BitVec.getElem_append]

@[simp] theorem ofBitVec_toBitVec (s : Sign) : Sign.ofBitVec s.toBitVec = s := by
  cases s <;> rfl

/-- The double of a form. -/
def ofForm (u : UnpackedFloat) : Float :=
  Float.ofModel (Float.Model.pack u)

/-- The form of packed bits. -/
theorem unpack_ofForm (u : UnpackedFloat) :
    (ofForm u).toModel.unpack = unpack Format.binary64 (UnpackedFloat.pack Format.binary64 u) :=
  rfl

@[simp] theorem unpack_packedInfinity (s : Sign) :
    unpack Format.binary64 (packedInfinity Format.binary64 s) = .infinity s := by
  cases s <;> rfl

@[simp] theorem unpack_packedZero (s : Sign) :
    unpack Format.binary64 (packedZero Format.binary64 s) = .zero s := by
  cases s <;> rfl

/-- Packed parts with an exponent field between the smallest and the largest one. -/
theorem unpack_normal (s : Sign) {field : BitVec 11} (fraction : BitVec 52)
    (hleast : field ≠ 0#11) (hlargest : field ≠ -1#11) :
    unpack Format.binary64 (packComponents Format.binary64 s field fraction) =
      form s (2 ^ 52 + fraction.toNat) (field.toNat - 1075) := by
  unfold UnpackedFloat.unpack form
  simp only [unpackMantissa_packComponents, unpackExponent_packComponents,
    unpackSign_packComponents, ofBitVec_toBitVec]
  rw [if_neg hlargest, if_neg hleast, dif_neg (by omega)]
  congr 1
  exact toNat_hiddenBit fraction

/-- Packed parts with the smallest exponent field. -/
theorem unpack_subnormal (s : Sign) (fraction : BitVec 52) :
    unpack Format.binary64 (packComponents Format.binary64 s 0#11 fraction) =
      form s fraction.toNat (-1074) := by
  unfold UnpackedFloat.unpack form
  simp only [unpackMantissa_packComponents, unpackExponent_packComponents,
    unpackSign_packComponents, ofBitVec_toBitVec]
  rw [if_neg (by decide), if_pos trivial]
  by_cases hfraction : fraction = 0#52
  · subst hfraction
    rfl
  · have hne : fraction.toNat ≠ 0 := fun h => hfraction (BitVec.eq_of_toNat_eq h)
    rw [dif_neg hfraction, dif_neg hne]
    congr 1

/-- A canonical form is packed without loss, unless it is above the upper limit. -/
theorem unpack_pack_form (s : Sign) {m : ℕ} {e : ℤ} (hm : 0 < m) (hupper : m < 2 ^ 53)
    (hlower : -1074 ≤ e) (hcanonical : 2 ^ 52 ≤ m ∨ e = -1074) :
    unpack Format.binary64 (UnpackedFloat.pack Format.binary64 (form s m e)) =
      if e ≤ 971 then form s m e else .infinity s := by
  have hbias : (Format.binary64.exponentBias : ℤ) = 1023 := by decide
  have hbits : Nat.log2 m < 53 := (Nat.log2_lt (Nat.ne_of_gt hm)).mpr hupper
  have hform : form s m e = .finite s m e hm := dif_neg (Nat.ne_of_gt hm)
  rw [hform]
  unfold UnpackedFloat.pack
  simp only [hbias, Nat.cast_ofNat]
  by_cases he : e ≤ 971
  · rw [if_pos he, if_neg (by omega), ← hform]
    by_cases hnormal : 2 ^ 52 ≤ m
    · have hlog : 52 ≤ Nat.log2 m := (Nat.le_log2 (Nat.ne_of_gt hm)).mpr hnormal
      have hfield : ((BitVec.ofNat 11 (e + 1023 + 52).toNat).toNat : ℤ) = e + 1075 := by
        rw [BitVec.toNat_ofNat]
        omega
      have hfraction : (BitVec.ofNat 52 m).toNat = m - 2 ^ 52 := by
        rw [BitVec.toNat_ofNat]
        omega
      rw [if_pos (by unfold Format.mantissaBits; simp only; omega), unpack_normal]
      · rw [hfraction, hfield, Nat.add_sub_cancel' hnormal, add_sub_cancel_right]
      · intro h
        rw [h] at hfield
        have : (0#11).toNat = 0 := rfl
        omega
      · intro h
        rw [h] at hfield
        have : (-1#11).toNat = 2047 := rfl
        omega
    · have hlog : Nat.log2 m < 52 := (Nat.log2_lt (Nat.ne_of_gt hm)).mpr (by omega)
      have hfraction : (BitVec.ofNat 52 m).toNat = m := by
        rw [BitVec.toNat_ofNat]
        omega
      rw [if_neg (by unfold Format.mantissaBits; simp only; omega), unpack_subnormal, hfraction,
        hcanonical.resolve_left hnormal]
  · rw [if_neg he, if_pos (by omega), unpack_packedInfinity]

/-! ## The number of a rounded form -/

/-- The double is defined and stands for the number. -/
def Denotes (x : Float) (y : EReal) : Prop :=
  x.isNaN = false ∧ value x = y

/-- A form without an undefined value stands for the number of its bits. -/
theorem denotes_ofForm {u w : UnpackedFloat}
    (h : unpack Format.binary64 (UnpackedFloat.pack Format.binary64 u) = w)
    (hnan : w.isNaN = false) : Denotes (ofForm u) (number w) := by
  constructor
  · change (ofForm u).toModel.unpack.isNaN = false
    rw [unpack_ofForm, h, hnan]
  · rw [value, unpack_ofForm, h]

theorem number_infinity (s : Sign) : number (.infinity s) = signed s ⊤ := by
  cases s
  · exact EReal.neg_top.symm
  · rfl

/-- An infinite form. -/
theorem denotes_infinity (s : Sign) : Denotes (ofForm (.infinity s)) (signed s ⊤) := by
  have hpack : unpack Format.binary64 (UnpackedFloat.pack Format.binary64 (.infinity s)) =
      .infinity s := unpack_packedInfinity s
  rw [← number_infinity]
  exact denotes_ofForm hpack rfl

/-- A zero form. -/
theorem denotes_zero (s : Sign) : Denotes (ofForm (.zero s)) 0 := by
  have hpack : unpack Format.binary64 (UnpackedFloat.pack Format.binary64 (.zero s)) = .zero s :=
    unpack_packedZero s
  exact denotes_ofForm hpack rfl

/-- A canonical form stands for its magnitude, which may be infinite. -/
theorem denotes_form (s : Sign) {m : ℕ} {e : ℤ} (hupper : m < 2 ^ 53) (hlower : -1074 ≤ e)
    (hcanonical : 2 ^ 52 ≤ m ∨ e = -1074) :
    Denotes (ofForm (form s m e)) (signed s (bounded (magnitude m e))) := by
  rcases Nat.eq_zero_or_pos m with rfl | hm
  · have hzero : signed s (bounded (magnitude 0 e)) = 0 := by simp [magnitude]
    rw [hzero]
    exact denotes_zero s
  · have hform : form s m e = .finite s m e hm := dif_neg (Nat.ne_of_gt hm)
    have hpack := unpack_pack_form s hm hupper hlower hcanonical
    rw [bounded_magnitude hupper hcanonical]
    by_cases he : e ≤ 971
    · rw [if_pos he] at hpack ⊢
      rw [← number_finite s m e hm, ← hform]
      exact denotes_ofForm hpack (by rw [hform]; rfl)
    · rw [if_neg he] at hpack ⊢
      rw [← number_infinity]
      exact denotes_ofForm hpack rfl

/-- The double of a significand that is read from a number stands for the rounded number. -/
theorem Reads.denotes {m : ℕ} {e : ℤ} {accuracy : Accuracy} {x : ℝ}
    (h : Reads m e accuracy x) (hx : 0 < x) (he : e ≤ lastDigit x) (s : Sign) :
    Denotes (ofForm (roundWithAccuracy Format.binary64 s m e accuracy)) (round (signed s x)) := by
  rcases h.roundWithAccuracy_eq hx he s with ⟨n, f, hform, hupper, hlower, hcanonical, hmagnitude⟩
  rw [hform, round_signed s hx.le, ← hmagnitude]
  exact denotes_form s hupper hlower hcanonical

end Double
end DiscreteChoice
