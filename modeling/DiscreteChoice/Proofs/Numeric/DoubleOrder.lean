import DiscreteChoice.Numeric.Double
import DiscreteChoice.Proofs.Numeric.Laws
import DiscreteChoice.Proofs.Numeric.Rounding

/-!
# The order of doubles

A double is undefined, infinite, or a sign with a significand and a power of two. In the form that
the bits of a double stand for, a larger power of two means a larger magnitude, so that comparing the
powers first and the significands second compares the numbers.

Main results:

- Theorem `Double.isCanonical_unpack`: the bits of a double stand for a canonical form.
- Theorem `Double.compare_eq`: canonical forms are compared as the numbers that they stand for.
- Instance `LawfulNumeric Float`: the comparisons of doubles are those of numbers.
-/

namespace DiscreteChoice

open Float.Model

namespace Double

/-- The number that a defined double stands for. -/
noncomputable def number : UnpackedFloat → EReal
  | .notANumber => 0
  | .infinity .positive => ⊤
  | .infinity .negative => ⊥
  | .zero _ => 0
  | .finite .positive m e _ => (magnitude m e : ℝ)
  | .finite .negative m e _ => (-magnitude m e : ℝ)

/-- A significand of at most 53 bits, all of which are used unless the power of two is the smallest
one. -/
def IsCanonical : UnpackedFloat → Prop
  | .finite _ m e _ => m < 2 ^ 53 ∧ -1074 ≤ e ∧ e ≤ 971 ∧ (2 ^ 52 ≤ m ∨ e = -1074)
  | _ => True

/-- The hidden bit stands in front of the stored ones. -/
theorem toNat_hiddenBit (v : BitVec 52) : (1#1 ++ v).toNat = 2 ^ 52 + v.toNat := by
  rw [BitVec.toNat_append, Nat.shiftLeft_eq, Nat.mul_comm, ← Nat.two_pow_add_eq_or_of_lt v.isLt]
  simp

/-- The bits of a double stand for a canonical form. -/
theorem isCanonical_unpack (x : Float.Model) : IsCanonical x.unpack := by
  have hfield : (@UnpackedFloat.unpackExponent Format.binary64 x.toBits.toBitVec).toNat < 2 ^ 11 :=
    BitVec.isLt _
  have hstored : (@UnpackedFloat.unpackMantissa Format.binary64 x.toBits.toBitVec).toNat < 2 ^ 52 :=
    BitVec.isLt _
  have hbias : (Format.binary64.exponentBias : Int) = 1023 := by decide
  unfold Float.Model.unpack UnpackedFloat.unpack
  dsimp only
  split_ifs with hmax hzero hmin hnone
  · trivial
  · trivial
  · trivial
  · -- a double of the smallest exponent field has no hidden bit
    have hfield0 : (@UnpackedFloat.unpackExponent Format.binary64 x.toBits.toBitVec).toNat = 0 := by
      rw [hmin]; rfl
    refine ⟨by omega, ?_, ?_, .inr ?_⟩ <;> omega
  · have hfield0 : (@UnpackedFloat.unpackExponent Format.binary64 x.toBits.toBitVec).toNat ≠ 0 :=
      fun h => hmin (BitVec.eq_of_toNat_eq h)
    have hfield1 : (@UnpackedFloat.unpackExponent Format.binary64 x.toBits.toBitVec).toNat ≠ 2047 :=
      fun h => hmax (BitVec.eq_of_toNat_eq h)
    refine ⟨?_, ?_, ?_, .inl ?_⟩
    · rw [toNat_hiddenBit]; omega
    · omega
    · omega
    · rw [toNat_hiddenBit]; omega

/-! ## Comparing canonical forms -/

/-- Canonical magnitudes with a smaller power of two are smaller. -/
theorem magnitude_lt_of_lt {m₁ m₂ : Nat} {e₁ e₂ : Int} (hm₁ : m₁ < 2 ^ 53) (he₁ : -1074 ≤ e₁)
    (hm₂ : 2 ^ 52 ≤ m₂ ∨ e₂ = -1074) (he : e₁ < e₂) : magnitude m₁ e₁ < magnitude m₂ e₂ := by
  have hnormal : 2 ^ 52 ≤ m₂ := hm₂.resolve_right (by omega)
  calc magnitude m₁ e₁ < 2 ^ 53 * (2 : ℝ) ^ e₁ := by
        unfold magnitude
        gcongr
        exact_mod_cast hm₁
    _ = 2 ^ 52 * (2 : ℝ) ^ (e₁ + 1) := by
        rw [zpow_add_one₀ (by norm_num)]; ring
    _ ≤ 2 ^ 52 * (2 : ℝ) ^ e₂ := by
        gcongr
        · norm_num
        · omega
    _ ≤ magnitude m₂ e₂ := by
        unfold magnitude
        gcongr
        exact_mod_cast hnormal

theorem magnitude_lt_magnitude_right {m₁ m₂ : Nat} (e : Int) :
    magnitude m₁ e < magnitude m₂ e ↔ m₁ < m₂ := by
  unfold magnitude
  rw [mul_lt_mul_iff_left₀ (by positivity), Nat.cast_lt]

/-- Canonical magnitudes are compared by the powers of two, and by the significands when these are
equal. -/
theorem compare_magnitude {m₁ m₂ : Nat} {e₁ e₂ : Int}
    (h₁ : m₁ < 2 ^ 53 ∧ -1074 ≤ e₁ ∧ e₁ ≤ 971 ∧ (2 ^ 52 ≤ m₁ ∨ e₁ = -1074))
    (h₂ : m₂ < 2 ^ 53 ∧ -1074 ≤ e₂ ∧ e₂ ≤ 971 ∧ (2 ^ 52 ≤ m₂ ∨ e₂ = -1074)) :
    (compare e₁ e₂).then (compare m₁ m₂) = cmp (magnitude m₁ e₁) (magnitude m₂ e₂) := by
  rcases h₁ with ⟨hm₁, he₁, -, hc₁⟩
  rcases h₂ with ⟨hm₂, he₂, -, hc₂⟩
  rcases lt_trichotomy e₁ e₂ with he | rfl | he
  · rw [Int.compare_eq_lt.mpr he, Ordering.lt_then, eq_comm, cmp_eq_lt_iff]
    exact magnitude_lt_of_lt hm₁ he₁ hc₂ he
  · rw [Int.compare_eq_eq.mpr rfl, Ordering.then]
    rcases lt_trichotomy m₁ m₂ with hm | rfl | hm
    · rw [Nat.compare_eq_lt.mpr hm, eq_comm, cmp_eq_lt_iff]
      exact (magnitude_lt_magnitude_right e₁).mpr hm
    · rw [Nat.compare_eq_eq.mpr rfl, cmp_self_eq_eq]
    · rw [Nat.compare_eq_gt.mpr hm, eq_comm, cmp_eq_gt_iff]
      exact (magnitude_lt_magnitude_right e₁).mpr hm
  · rw [Int.compare_eq_gt.mpr he, Ordering.gt_then, eq_comm, cmp_eq_gt_iff]
    exact magnitude_lt_of_lt hm₂ he₂ hc₁ he

/-- Numbers are compared as their extended numbers. -/
theorem cmp_coe (a b : ℝ) : cmp (a : EReal) b = cmp a b := by
  simp only [cmp, cmpUsing, EReal.coe_lt_coe_iff]

/-- The comparison of opposite numbers is swapped. -/
theorem cmp_neg (a b : ℝ) : cmp (-a) (-b) = (cmp a b).swap := by
  rw [cmp_swap]
  simp only [cmp, cmpUsing, neg_lt_neg_iff]

/-- Canonical forms are compared as the numbers that they stand for. -/
theorem compare_eq {x y : UnpackedFloat} (hx : IsCanonical x) (hy : IsCanonical y)
    (hxnan : x.isNaN = false) (hynan : y.isNaN = false) :
    x.compare y = some (cmp (number x) (number y)) := by
  have hpos {m : Nat} (e : Int) (hm : 0 < m) : (0 : EReal) < (magnitude m e : ℝ) :=
    EReal.coe_pos.mpr (magnitude_pos e hm)
  have hneg {m : Nat} (e : Int) (hm : 0 < m) : ((-magnitude m e : ℝ) : EReal) < 0 :=
    EReal.coe_neg'.mpr (neg_lt_zero.mpr (magnitude_pos e hm))
  have below {a b : EReal} (h : a < b) : cmp a b = .lt := (cmp_eq_lt_iff a b).mpr h
  have above {a b : EReal} (h : b < a) : cmp a b = .gt := (cmp_eq_gt_iff a b).mpr h
  rcases x with (_ | _) | _ | _ | ⟨_ | _, m₁, e₁, hm₁⟩ <;>
    rcases y with (_ | _) | _ | _ | ⟨_ | _, m₂, e₂, hm₂⟩ <;>
    first
    | contradiction
    | simp only [number, UnpackedFloat.compare, Option.some.injEq]
  case finite.positive.finite.positive => rw [cmp_coe, compare_magnitude hx hy]
  case finite.negative.finite.negative => rw [cmp_coe, cmp_neg, compare_magnitude hx hy]
  case finite.negative.finite.positive => exact (below ((hneg e₁ hm₁).trans (hpos e₂ hm₂))).symm
  case finite.positive.finite.negative => exact (above ((hneg e₂ hm₂).trans (hpos e₁ hm₁))).symm
  case zero.finite.positive => exact (below (hpos e₂ hm₂)).symm
  case zero.finite.negative => exact (above (hneg e₂ hm₂)).symm
  case finite.positive.zero => exact (above (hpos e₁ hm₁)).symm
  case finite.negative.zero => exact (below (hneg e₁ hm₁)).symm
  -- in all other cases both sides are zero or one is infinite
  all_goals simp [cmp, cmpUsing, compare, -EReal.coe_neg]

/-- An undefined value compares with nothing. -/
theorem compare_eq_none {x y : UnpackedFloat} (h : x.isNaN = true ∨ y.isNaN = true) :
    x.compare y = none := by
  rcases h with h | h
  · cases x <;> first | contradiction | rfl
  · cases y <;> first | contradiction | (cases x <;> rfl)

/-- The number that a double stands for. -/
noncomputable def value (x : Float) : EReal :=
  number x.toModel.unpack

/-- Doubles are compared as the numbers that they stand for. -/
theorem compare_eq_some_iff (x y : Float) (ordering : Ordering) :
    x.toModel.unpack.compare y.toModel.unpack = some ordering ↔
      x.isNaN = false ∧ y.isNaN = false ∧ cmp (value x) (value y) = ordering := by
  cases hx : x.isNaN with
  | true => simp [compare_eq_none (.inl hx)]
  | false =>
    cases hy : y.isNaN with
    | true => simp [compare_eq_none (.inr hy)]
    | false => simp [compare_eq (isCanonical_unpack _) (isCanonical_unpack _) hx hy, value]

theorem lt_iff (x y : Float) :
    x < y ↔ x.isNaN = false ∧ y.isNaN = false ∧ value x < value y := by
  have hlt : x < y ↔ x.toModel.unpack.compare y.toModel.unpack = some .lt := by
    change decide ((_ == some Ordering.lt) = true) = true ↔ _
    simp
  rw [hlt, compare_eq_some_iff, cmp_eq_lt_iff]

theorem le_iff (x y : Float) :
    x ≤ y ↔ x.isNaN = false ∧ y.isNaN = false ∧ value x ≤ value y := by
  have hle : x ≤ y ↔ ∃ ordering, x.toModel.unpack.compare y.toModel.unpack = some ordering ∧
      ordering.isLE = true := by
    change decide (Option.any Ordering.isLE _ = true) = true ↔ _
    simp [Option.any_eq_true]
  simp only [hle, compare_eq_some_iff, Ordering.isLE_iff_ne_gt, ← not_lt, ← cmp_eq_gt_iff]
  constructor
  · rintro ⟨_, ⟨hx, hy, rfl⟩, hne⟩
    exact ⟨hx, hy, hne⟩
  · rintro ⟨hx, hy, hne⟩
    exact ⟨_, ⟨hx, hy, rfl⟩, hne⟩

theorem beq_iff (x y : Float) :
    (x == y) = true ↔ x.isNaN = false ∧ y.isNaN = false ∧ value x = value y := by
  have hbeq : (x == y) = true ↔ x.toModel.unpack.compare y.toModel.unpack = some .eq := by
    change (_ == some Ordering.eq) = true ↔ _
    simp
  rw [hbeq, compare_eq_some_iff, cmp_eq_eq_iff]

/-- A double is finite when it stands for a finite number. -/
theorem isFinite_iff (x : Float) :
    x.isFinite = true ↔ x.isNaN = false ∧ value x ≠ ⊤ ∧ value x ≠ ⊥ := by
  change x.toModel.unpack.isFinite = true ↔ x.toModel.unpack.isNaN = false ∧ _
  unfold value
  rcases x.toModel.unpack with (_ | _) | _ | _ | ⟨_ | _, m, e, hm⟩ <;>
    simp [UnpackedFloat.isFinite, UnpackedFloat.isNaN, number, -EReal.coe_neg]

/-- Zero is divided by a double as the unpacked forms are. -/
theorem zero_div_eq (x : Float) : 0 / x = Float.ofModel (pack (UnpackedFloat.div Format.binary64
    (.zero .positive) x.toModel.unpack)) := by
  have hdiv : (0 / x).toModel = pack (UnpackedFloat.div Format.binary64 (.zero .positive)
      x.toModel.unpack) := by
    with_unfolding_all rfl
  exact congrArg Float.ofModel hdiv

/-- Zero divided by a double is zero or undefined. -/
theorem not_lt_zero_div (x : Float) : decide (0 < 0 / x) = false := by
  have hpacked : ∀ y, y = .notANumber ∨ y = .zero .positive ∨ y = .zero .negative →
      decide (0 < Float.ofModel (pack y)) = false := by
    rintro y (rfl | rfl | rfl) <;> decide
  rw [zero_div_eq]
  apply hpacked
  rcases x.toModel.unpack with (_ | _) | _ | _ | ⟨_ | _, m, e, hm⟩ <;>
    simp [UnpackedFloat.div] <;> rfl

/-- The double zero stands for zero. -/
theorem value_zero : value 0 = 0 := by
  have unpacked : (0 : Float).toModel.unpack = .zero .positive := by with_unfolding_all rfl
  exact congrArg number unpacked

/-- Zero divided by a positive double is zero, to the bit. -/
theorem zero_div {x : Float} (hpos : 0 < x) : 0 / x = 0 := by
  rcases (lt_iff 0 x).mp hpos with ⟨-, hdefined, hvalue⟩
  have hnumber : 0 < number x.toModel.unpack := value_zero ▸ hvalue
  change x.toModel.unpack.isNaN = false at hdefined
  rw [zero_div_eq]
  generalize x.toModel.unpack = y at hdefined hnumber
  match y with
  | .notANumber => cases hdefined
  | .infinity .positive => decide
  | .infinity .negative => simp [number] at hnumber
  | .zero _ => simp [number] at hnumber
  | .finite .positive m e hm => with_unfolding_all rfl
  | .finite .negative m e hm =>
    have hneg := EReal.coe_pos.mp hnumber
    linarith [magnitude_nonneg m e]

/-- The double one stands for one. -/
theorem value_one : value 1 = 1 := by
  have unpacked : (1 : Float).toModel.unpack = .finite .positive (2 ^ 52) (-52) (by decide) := by
    with_unfolding_all rfl
  refine (congrArg number unpacked).trans ?_
  rw [number, magnitude]
  norm_num

/-- The functions of the system, where the exponential of zero is one and the logarithm of one is
zero. -/
def MathLibrary.exact : MathLibrary where
  pow := Float.pow
  exp x := if x == 0 then 1 else Float.exp x
  ln x := if x == 1 then 0 else Float.log x

/-- Doubles with the functions of a library. -/
def With (_ : MathLibrary) : Type :=
  Float

instance (library : MathLibrary) : Numeric (With library) :=
  numeric library

noncomputable instance (library : MathLibrary) : LawfulNumeric (With library) where
  value := value
  isNaN_nan := show Float.isNaN (0 / 0) = true by decide
  isNaN_zero := show Float.isNaN 0 = false by decide
  isNaN_one := show Float.isNaN 1 = false by decide
  value_zero := value_zero
  value_one := value_one
  isFinite_iff := isFinite_iff
  lt_iff (x y : Float) := decide_eq_true_iff.trans (lt_iff x y)
  le_iff (x y : Float) := decide_eq_true_iff.trans (le_iff x y)
  eq_iff := beq_iff
  not_lt_zero_div := not_lt_zero_div

end Double

noncomputable instance : LawfulNumeric Float :=
  inferInstanceAs (LawfulNumeric (Double.With .system))

end DiscreteChoice
