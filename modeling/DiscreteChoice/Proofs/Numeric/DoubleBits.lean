import DiscreteChoice.Proofs.Numeric.DoubleArithmetic

/-!
# The bits of a double

The bits of a double are a sign, an exponent field and a stored significand. What they stand for
determines them: a double that is not zero is known by its number, and of the two zeros one is the
opposite of the other.

Main results:

- Theorem `Double.unpack_eq_form`: the parts of a finite double are its form.
- Theorem `Double.eq_of_parts_eq`: a double is known by its parts.
- Theorem `Double.eq_of_denotes`: a double that is not zero is known by its number.
-/

namespace DiscreteChoice
namespace Double

open Float.Model UnpackedFloat

/-! ## Packed parts -/

/-- Packed parts as a number. -/
theorem toNat_packComponents (s : Sign) (field : BitVec 11) (fraction : BitVec 52) :
    (packComponents Format.binary64 s field fraction).toNat =
      s.toBitVec.toNat * 2 ^ 63 + field.toNat * 2 ^ 52 + fraction.toNat := by
  change (s.toBitVec ++ field ++ fraction).toNat = _
  rw [BitVec.toNat_append, BitVec.toNat_append, ← Nat.shiftLeft_add_eq_or_of_lt fraction.isLt,
    ← Nat.shiftLeft_add_eq_or_of_lt field.isLt, Nat.shiftLeft_eq, Nat.shiftLeft_eq]
  ring

/-- All bits are packed parts. -/
theorem exists_packComponents (b : BitVec 64) :
    ∃ (s : Sign) (field : BitVec 11) (fraction : BitVec 52),
      b = packComponents Format.binary64 s field fraction := by
  have hb := b.isLt
  have hsign (bit : ℕ) (hbit : bit < 2) : ∃ s : Sign, s.toBitVec.toNat = bit := by
    interval_cases bit
    · exact ⟨.positive, rfl⟩
    · exact ⟨.negative, rfl⟩
  rcases hsign (b.toNat / 2 ^ 63) (by omega) with ⟨s, hs⟩
  refine ⟨s, BitVec.ofNat 11 (b.toNat / 2 ^ 52), BitVec.ofNat 52 b.toNat, BitVec.eq_of_toNat_eq ?_⟩
  rw [toNat_packComponents, hs, BitVec.toNat_ofNat, BitVec.toNat_ofNat]
  omega

/-- The largest exponent field is kept for infinities and undefined values. -/
theorem unpack_largest (s : Sign) (fraction : BitVec 52) :
    unpack Format.binary64 (packComponents Format.binary64 s (-1#11) fraction) =
      if fraction = 0#52 then .infinity s else .notANumber := by
  unfold UnpackedFloat.unpack
  simp only [unpackMantissa_packComponents, unpackExponent_packComponents,
    unpackSign_packComponents, ofBitVec_toBitVec]
  rw [if_pos trivial]

/-! ## The parts of a double -/

namespace Parts

/-- The sign of a number with the given parts. -/
def sign (p : Parts) : Sign :=
  if p.negative then .negative else .positive

end Parts

/-- Splits the bits of a double. -/
theorem exists_bits (x : Float) : ∃ (s : Sign) (field : BitVec 11) (fraction : BitVec 52),
    x.toModel.toBits.toBitVec = packComponents Format.binary64 s field fraction ∧
      x.toBits.toNat = s.toBitVec.toNat * 2 ^ 63 + field.toNat * 2 ^ 52 + fraction.toNat := by
  rcases exists_packComponents x.toModel.toBits.toBitVec with ⟨s, field, fraction, hbits⟩
  refine ⟨s, field, fraction, hbits, ?_⟩
  rw [← toNat_packComponents, ← hbits]
  rfl

/-- The parts of a double are read off its bits. -/
theorem parts_eq {x : Float} {s : Sign} {field : BitVec 11} {fraction : BitVec 52}
    (hbits : x.toBits.toNat = s.toBitVec.toNat * 2 ^ 63 + field.toNat * 2 ^ 52 + fraction.toNat) :
    (parts x).sign = s ∧
      ((field.toNat = 0 → (parts x).significand = fraction.toNat ∧ (parts x).exponent = -1074 ∧
        (parts x).narrowBelow = false) ∧
      (field.toNat ≠ 0 → (parts x).significand = 2 ^ 52 + fraction.toNat ∧
        (parts x).exponent = field.toNat - 1075 ∧
        ((parts x).narrowBelow = true ↔ fraction.toNat = 0 ∧ 1 < field.toNat))) := by
  have hsign : s.toBitVec.toNat < 2 := s.toBitVec.isLt
  have hfield := field.isLt
  have hfraction := fraction.isLt
  have hstored : (x.toBits.toNat >>> 52) % 2048 = field.toNat := by
    rw [Nat.shiftRight_eq_div_pow]
    omega
  have hlow : x.toBits.toNat % hiddenBit = fraction.toNat := by
    rw [hiddenBit, Nat.shiftLeft_eq]
    omega
  have hhigh : x.toBits.toNat >>> 63 = s.toBitVec.toNat := by
    rw [Nat.shiftRight_eq_div_pow]
    omega
  rw [parts]
  simp only [hstored, hlow, hhigh]
  have hnegative : (if (s.toBitVec.toNat == 1) = true then Sign.negative else .positive) = s := by
    cases s <;> rfl
  split
  · rename_i hzero
    exact ⟨hnegative, fun _ => ⟨rfl, rfl, rfl⟩, fun h => absurd hzero h⟩
  · rename_i hne
    refine ⟨hnegative, fun h => absurd h hne, fun _ => ⟨Nat.add_comm _ _, rfl, ?_⟩⟩
    simp

/-- A finite double does not have the largest exponent field. -/
theorem ne_largest_of_isFinite {x : Float} (hx : x.isFinite = true) {s : Sign} {field : BitVec 11}
    {fraction : BitVec 52}
    (hpacked : x.toModel.toBits.toBitVec = packComponents Format.binary64 s field fraction) :
    field.toNat ≠ 2047 := by
  intro hlargest
  have hfield : field = -1#11 := BitVec.eq_of_toNat_eq hlargest
  change (unpack Format.binary64 x.toModel.toBits.toBitVec).isFinite = true at hx
  rw [hpacked, hfield, unpack_largest] at hx
  split at hx <;> contradiction

/-- The parts of a finite double are its form. -/
theorem unpack_eq_form {x : Float} (hx : x.isFinite = true) :
    x.toModel.unpack = form (parts x).sign (parts x).significand (parts x).exponent := by
  rcases exists_bits x with ⟨s, field, fraction, hpacked, hbits⟩
  rcases parts_eq hbits with ⟨hsign, hsubnormal, hnormal⟩
  have hunpack : x.toModel.unpack =
      unpack Format.binary64 (packComponents Format.binary64 s field fraction) := by
    rw [← hpacked]
    rfl
  have hlargest : field ≠ -1#11 := by
    rintro rfl
    exact ne_largest_of_isFinite hx hpacked rfl
  rw [hunpack, hsign]
  by_cases hleast : field = 0#11
  · subst hleast
    rcases hsubnormal rfl with ⟨hsignificand, hexponent, -⟩
    rw [unpack_subnormal, hsignificand, hexponent]
  · rcases hnormal fun h => hleast (BitVec.eq_of_toNat_eq h) with ⟨hsignificand, hexponent, -⟩
    rw [unpack_normal s fraction hleast hlargest, hsignificand, hexponent]

/-- The gap below a double is narrow when the significand is the least one that uses all digits and
the power of two is not the smallest one. -/
theorem narrowBelow_iff (x : Float) :
    (parts x).narrowBelow = true ↔ (parts x).significand = 2 ^ 52 ∧ -1074 < (parts x).exponent := by
  rcases exists_bits x with ⟨s, field, fraction, -, hbits⟩
  rcases parts_eq hbits with ⟨-, hsubnormal, hnormal⟩
  by_cases hleast : field.toNat = 0
  · rcases hsubnormal hleast with ⟨-, hexponent, hnarrow⟩
    simp [hnarrow, hexponent]
  · rcases hnormal hleast with ⟨hsignificand, hexponent, hnarrow⟩
    rw [hnarrow, hsignificand, hexponent]
    omega

/-- The parts of a finite double are canonical. -/
theorem isCanonical_parts {x : Float} (hx : x.isFinite = true) :
    (parts x).significand < 2 ^ 53 ∧ -1074 ≤ (parts x).exponent ∧ (parts x).exponent ≤ 971 ∧
      (2 ^ 52 ≤ (parts x).significand ∨ (parts x).exponent = -1074) := by
  rcases exists_bits x with ⟨s, field, fraction, hpacked, hbits⟩
  rcases parts_eq hbits with ⟨-, hsubnormal, hnormal⟩
  have hfield := field.isLt
  have hfraction := fraction.isLt
  have hlargest : field.toNat ≠ 2047 := ne_largest_of_isFinite hx hpacked
  by_cases hleast : field.toNat = 0
  · rcases hsubnormal hleast with ⟨hsignificand, hexponent, -⟩
    omega
  · rcases hnormal hleast with ⟨hsignificand, hexponent, -⟩
    omega

/-! ## Doubles and their numbers -/

/-- The number of a finite double is the magnitude of its parts with its sign. -/
theorem value_eq_signed {x : Float} (hx : x.isFinite = true) :
    value x = signed (parts x).sign
      (magnitude (parts x).significand (parts x).exponent : ℝ) := by
  rw [value, unpack_eq_form hx, form]
  split
  · rename_i hzero
    simp [number, magnitude, hzero]
  · rw [number_finite]

/-- Doubles with the same parts are equal. -/
theorem eq_of_parts_eq {x y : Float} (hsign : (parts x).sign = (parts y).sign)
    (hsignificand : (parts x).significand = (parts y).significand)
    (hexponent : (parts x).exponent = (parts y).exponent) : x = y := by
  rcases exists_bits x with ⟨s, field, fraction, -, hbits⟩
  rcases exists_bits y with ⟨t, field', fraction', -, hbits'⟩
  rcases parts_eq hbits with ⟨hs, hsubnormal, hnormal⟩
  rcases parts_eq hbits' with ⟨ht, hsubnormal', hnormal'⟩
  have hfraction := fraction.isLt
  have hfraction' := fraction'.isLt
  have hst : s = t := by rw [← hs, ← ht, hsign]
  have hequal : x.toBits.toNat = y.toBits.toNat := by
    rw [hbits, hbits', hst]
    by_cases hleast : field.toNat = 0 <;> by_cases hleast' : field'.toNat = 0
    · have := hsubnormal hleast
      have := hsubnormal' hleast'
      omega
    · have := hsubnormal hleast
      have := hnormal' hleast'
      omega
    · have := hnormal hleast
      have := hsubnormal' hleast'
      omega
    · have := hnormal hleast
      have := hnormal' hleast'
      omega
  rcases x with ⟨⟨bits, hvalid⟩⟩
  rcases y with ⟨⟨bits', hvalid'⟩⟩
  cases UInt64.toNat_inj.mp hequal
  rfl

theorem signed_coe_inj {s : Sign} {a b : ℝ} (h : signed s (a : EReal) = signed s b) : a = b := by
  cases s
  · exact EReal.coe_eq_coe_iff.mp (neg_inj.mp h)
  · exact EReal.coe_eq_coe_iff.mp h

/-- Finite doubles of one sign are known by their numbers. -/
theorem eq_of_value_eq {x y : Float} (hx : x.isFinite = true) (hy : y.isFinite = true)
    (hsign : (parts x).sign = (parts y).sign) (hvalue : value x = value y) : x = y := by
  rw [value_eq_signed hx, value_eq_signed hy, hsign] at hvalue
  have hcompare := compare_magnitude (isCanonical_parts hx) (isCanonical_parts hy)
  rw [signed_coe_inj hvalue, cmp_self_eq_eq, Ordering.then_eq_eq, Int.compare_eq_eq,
    Nat.compare_eq_eq] at hcompare
  exact eq_of_parts_eq hsign hcompare.2 hcompare.1

/-- A number that is not zero has one sign. -/
theorem sign_unique {s t : Sign} {a b : ℝ} (ha : 0 < a) (hb : 0 ≤ b)
    (h : signed s (a : EReal) = signed t b) : s = t := by
  cases s <;> cases t
  · rfl
  · have hopposite : -a = b := EReal.coe_eq_coe_iff.mp ((EReal.coe_neg a).trans h)
    linarith
  · have hopposite : a = -b := EReal.coe_eq_coe_iff.mp (h.trans (EReal.coe_neg b).symm)
    linarith
  · rfl

/-- A double that is not zero is the only one that stands for its number. -/
theorem eq_of_denotes {x y : Float} (hx : x.isFinite = true) (hne : 0 < (parts x).significand)
    (hy : Denotes y (value x)) : y = x := by
  rcases hy with ⟨hnan, hvalue⟩
  rcases (isFinite_iff x).mp hx with ⟨-, htop, hbot⟩
  have hfinite : y.isFinite = true := (isFinite_iff y).mpr ⟨hnan, hvalue ▸ htop, hvalue ▸ hbot⟩
  refine eq_of_value_eq hfinite hx (Eq.symm ?_) hvalue
  rw [value_eq_signed hfinite, value_eq_signed hx] at hvalue
  exact sign_unique (magnitude_pos _ hne) (magnitude_nonneg _ _) hvalue.symm

/-- The two zeros are each other's opposites. -/
theorem eq_zero_of_significand {x : Float} (hx : x.isFinite = true)
    (hzero : (parts x).significand = 0) : x = if (parts x).negative then -0 else 0 := by
  have hvalue : value x = 0 := by
    rw [value_eq_signed hx, hzero]
    simp [magnitude]
  split
  · rename_i hnegative
    refine eq_of_value_eq hx (by decide) ?_ (hvalue.trans ?_)
    · have hopposite : (parts (-0)).negative = true := by decide
      rw [Parts.sign, if_pos hnegative, Parts.sign, if_pos hopposite]
    · rw [(denotes_neg (x := 0) (by decide)).2, value_zero, neg_zero]
  · rename_i hpositive
    refine eq_of_value_eq hx (by decide) ?_ (hvalue.trans value_zero.symm)
    have hplain : ¬(parts 0).negative = true := by decide
    rw [Parts.sign, if_neg hpositive, Parts.sign, if_neg hplain]

end Double
end DiscreteChoice
