import DiscreteChoice.Proofs.Numeric.RoundingLaws

/-!
# How precise rounding is

What is rounded changes by a small part of itself, as long as it is neither too large to be written nor
so small that its last digits are lost. Sums of shares change by no more than that for each of their
entries. The exponential and the logarithm are as precise as the last digit of their result.

Main results:

- Theorem `PreciseNumeric.abs_foldl_add_sub_le`: how far a sum of shares is from the exact one.
- Theorem `AccurateFunctions.abs_exp_sub_le`: how far the exponential of a difference is from the exact
  one.
-/

namespace DiscreteChoice

open Numeric LawfulNumeric RoundingNumeric

section Numerals

-- The numeral has an instance of its own, as Lean would otherwise take the one that it made for a
-- definition further up, whichever that is.
local instance numeralTwo : Nat.AtLeastTwo 2 := ⟨le_refl 2⟩

/-- The part of itself that a number changes by when it is rounded. -/
noncomputable def Numeric.roundoff : ℝ :=
  1 / 2 ^ 53

/-- What changes no more than a number of this size when it is rounded may be lost altogether. -/
noncomputable def Numeric.tiny : ℝ :=
  1 / 2 ^ 200

end Numerals

/-- The exponential of a number that may be infinite. -/
noncomputable def Numeric.realExp (y : EReal) : ℝ :=
  (EReal.exp y).toReal

/-- The number that a value stands for, zero for an infinite one. -/
noncomputable def LawfulNumeric.real {α : Type} [Numeric α] [LawfulNumeric α] (x : α) : ℝ :=
  (value x).toReal

/-- A number type whose operations give the exact result up to a small part of itself. -/
class PreciseNumeric (α : Type) [Numeric α] extends RoundingNumeric α where
  round_near (r : ℝ) : |r| ≤ 2 ^ 200 →
    ∃ s : ℝ, round (r : EReal) = s ∧ |s - r| ≤ roundoff * (|r| + tiny)
  full_le : value full ≤ ((2 ^ 53 : ℝ) : EReal)

/-- The exponential and the logarithm are the exact ones up to the last digit. -/
structure AccurateFunctions (α : Type) [Numeric α] [PreciseNumeric α] : Prop
    extends LawfulFunctions α where
  exp_near (x : α) : isNaN x = false → value x ≤ 0 →
    |real (exp x) - realExp (value x)| ≤ 2 * roundoff * (realExp (value x) + tiny)
  ln_near (x : α) (r : ℝ) : Denotes x r → 1 ≤ r →
    ∃ s : ℝ, Denotes (ln x) s ∧ |s - Real.log r| ≤ 2 * roundoff * Real.log r

namespace Numeric

theorem roundoff_pos : 0 < roundoff := by
  norm_num [roundoff]

theorem roundoff_le : roundoff ≤ 1 / 10 ^ 15 := by
  norm_num [roundoff]

theorem le_roundoff : 1 / 10 ^ 16 ≤ roundoff := by
  norm_num [roundoff]

/-- What is lost in rounding a number is far smaller than the number. -/
theorem roundoff_mul_le {x : ℝ} (h : 0 ≤ x) : roundoff * x ≤ 1 / 10 ^ 15 * x :=
  mul_le_mul_of_nonneg_right roundoff_le h

theorem tiny_pos : 0 < tiny := by
  norm_num [tiny]

theorem tiny_le : tiny ≤ 1 / 10 ^ 60 := by
  norm_num [tiny]

@[simp] theorem realExp_coe (r : ℝ) : realExp r = Real.exp r := by
  rw [realExp, EReal.exp_coe, ENNReal.toReal_ofReal (Real.exp_pos r).le]

@[simp] theorem realExp_bot : realExp ⊥ = 0 := by
  simp [realExp]

theorem realExp_nonneg (y : EReal) : 0 ≤ realExp y :=
  ENNReal.toReal_nonneg

/-- The exponential of a difference from a number is a quotient. -/
theorem realExp_sub_coe (y : EReal) (c : ℝ) : realExp (y - c) = realExp y * Real.exp (-c) := by
  induction y with
  | bot => simp
  | top => simp [realExp]
  | coe y =>
    rw [← EReal.coe_sub, realExp_coe, realExp_coe, ← Real.exp_add]
    congr 1

/-- A sum changes by no more than its entries do together. -/
theorem abs_sum_map_sub_le {β : Type} {xs : List β} {f g b : β → ℝ}
    (h : ∀ x ∈ xs, |f x - g x| ≤ b x) :
    |(xs.map f).sum - (xs.map g).sum| ≤ (xs.map b).sum := by
  induction xs with
  | nil => simp
  | cons x xs ih =>
    have hfirst := h x List.mem_cons_self
    have hrest := ih fun y hy => h y (List.mem_cons_of_mem _ hy)
    simp only [List.map_cons, List.sum_cons]
    rw [abs_le] at hfirst hrest ⊢
    constructor
    · linarith
    · linarith

/-- What changes by a small part of itself in each entry changes by a small part of itself in sum. -/
theorem abs_sum_map_sub_le_mul {β : Type} {xs : List β} {f g : β → ℝ} {a b : ℝ}
    (h : ∀ x ∈ xs, |f x - g x| ≤ a * (g x + b)) :
    |(xs.map f).sum - (xs.map g).sum| ≤ a * ((xs.map g).sum + xs.length * b) := by
  have hsum := abs_sum_map_sub_le h
  rwa [List.sum_map_mul_left, List.sum_map_add, List.map_const', List.sum_replicate,
    nsmul_eq_mul] at hsum

end Numeric

namespace LawfulNumeric

variable {α : Type} [Numeric α] [LawfulNumeric α] {x : α} {r : ℝ}

theorem coe_real (htop : value x ≠ ⊤) (hbot : value x ≠ ⊥) : (real x : EReal) = value x :=
  EReal.coe_toReal htop hbot

theorem Denotes.real_eq (h : Denotes x (r : EReal)) : real x = r := by
  rw [real, h.2, EReal.toReal_coe]

@[simp] theorem real_zero : real (0 : α) = 0 := by
  simp [real]

@[simp] theorem real_one : real (1 : α) = 1 := by
  rw [real, value_one, ← EReal.coe_one, EReal.toReal_coe]

end LawfulNumeric

namespace RoundingNumeric

variable {α : Type} [Numeric α] [RoundingNumeric α] {x : α}

theorem IsShare.coe_real (h : IsShare x) : (real x : EReal) = value x :=
  LawfulNumeric.coe_real h.ne_top h.ne_bot

theorem IsShare.real_nonneg (h : IsShare x) : 0 ≤ real x :=
  EReal.toReal_nonneg h.nonneg

theorem IsShare.real_le_one (h : IsShare x) : real x ≤ 1 := by
  have hle := h.le_one
  rw [← h.coe_real] at hle
  exact_mod_cast hle

/-- A share of a share is not larger than the share. -/
theorem IsShare.real_mul_le {y : α} (hx : IsShare x) (hy : IsShare y) : real (x * y) ≤ real x := by
  have hvalue := (denotes_mul x y hx.defined hy.defined (fun h => h.2.elim hy.ne_top hy.ne_bot)
    (fun h => h.1.elim hx.ne_top hx.ne_bot)).2
  have hle : value (x * y) ≤ value x := by
    calc value (x * y) = round α (value x * value y) := hvalue
      _ ≤ round α (value x) := round_mono (mul_le_of_le_one_right hx.nonneg hy.le_one)
      _ = value x := round_value x hx.defined
  exact EReal.toReal_le_toReal hle (hx.mul hy).ne_bot hx.ne_top

theorem IsTotal.coe_real (h : IsTotal x) : (real x : EReal) = value x :=
  LawfulNumeric.coe_real h.ne_top h.ne_bot

theorem IsTotal.real_nonneg (h : IsTotal x) : 0 ≤ real x :=
  EReal.toReal_nonneg h.nonneg

theorem IsTotal.one_le_real (h : IsTotal x) (hone : 1 ≤ value x) : 1 ≤ real x := by
  rw [← h.coe_real] at hone
  exact_mod_cast hone

end RoundingNumeric

namespace PreciseNumeric

variable {α : Type} [Numeric α] [PreciseNumeric α] {x y : α}

/-- A value that stands for a rounded number stands for one close to it. -/
theorem near_of_denotes {r : ℝ} (h : Denotes x (round α (r : EReal))) (hr : |r| ≤ 2 ^ 200) :
    Denotes x (real x : EReal) ∧ |real x - r| ≤ roundoff * (|r| + tiny) := by
  rcases round_near (α := α) r hr with ⟨s, hs, hnear⟩
  rw [hs] at h
  rw [h.real_eq]
  exact ⟨h, hnear⟩

/-- What is rounded to a number that is not too large is not too large itself. -/
theorem abs_le_of_denotes {r : ℝ} (h : Denotes x (round α (r : EReal)))
    (hfinite : isFinite x = true) (hx : |real x| ≤ 10 ^ 12) : |r| ≤ 10 ^ 13 := by
  rcases (isFinite_iff x).mp hfinite with ⟨-, htop, hbot⟩
  -- what is beyond a limit stays far from zero when it is rounded
  have hlimit {b : ℝ} (hb : |b| = 10 ^ 13) :
      ∃ s : ℝ, RoundingNumeric.round α (b : EReal) = s ∧ |s - b| ≤ 10 ^ 12 := by
    rcases round_near (α := α) b (by rw [hb]; norm_num) with ⟨s, hs, hnear⟩
    have hlost := roundoff_mul_le (add_nonneg (abs_nonneg b) tiny_pos.le)
    rw [hb] at hnear hlost
    exact ⟨s, hs, by linarith [tiny_le]⟩
  rw [abs_le] at hx ⊢
  constructor
  · by_contra hlow
    rcases hlimit (b := -10 ^ 13) (by norm_num) with ⟨s, hs, hnear⟩
    have hle : value x ≤ (s : EReal) := by
      rw [h.2, ← hs]
      exact round_mono (by exact_mod_cast (not_le.mp hlow).le)
    rw [← coe_real htop hbot, EReal.coe_le_coe_iff] at hle
    linarith [(abs_le.mp hnear).2]
  · by_contra hhigh
    rcases hlimit (b := 10 ^ 13) (by norm_num) with ⟨s, hs, hnear⟩
    have hle : (s : EReal) ≤ value x := by
      rw [h.2, ← hs]
      exact round_mono (by exact_mod_cast (not_le.mp hhigh).le)
    rw [← coe_real htop hbot, EReal.coe_le_coe_iff] at hle
    linarith [(abs_le.mp hnear).1]

/-- A rounded number that is not too large is close to the exact one. -/
theorem abs_sub_le_of_denotes {r : ℝ} (h : Denotes x (round α (r : EReal)))
    (hfinite : isFinite x = true) (hx : |real x| ≤ 10 ^ 12) :
    |real x - r| ≤ roundoff * (101 / 100 * |real x| + 2 * tiny) := by
  have hrange := abs_le_of_denotes h hfinite hx
  have hnear := (near_of_denotes h (hrange.trans (by norm_num))).2
  have hsize : |r| ≤ |real x| + |real x - r| := by
    have htriangle := abs_sub_abs_le_abs_sub r (real x)
    rw [abs_sub_comm] at htriangle
    linarith
  have hlost := roundoff_mul_le (add_nonneg (abs_nonneg r) tiny_pos.le)
  have hclose : |r| ≤ 101 / 100 * |real x| + tiny := by
    linarith [abs_nonneg (real x), tiny_pos]
  calc |real x - r| ≤ roundoff * (|r| + tiny) := hnear
    _ ≤ roundoff * (101 / 100 * |real x| + 2 * tiny) :=
        mul_le_mul_of_nonneg_left (by linarith) roundoff_pos.le

/-- A sum of shares is not larger than a number that is written exactly. -/
theorem real_le_of_isTotal (h : RoundingNumeric.IsTotal x) : real x ≤ 2 ^ 53 := by
  have hle := h.le_full.trans full_le
  rw [← h.coe_real] at hle
  exact_mod_cast hle

/-- The sum of a total and a share is close to the exact one. -/
theorem abs_add_sub_le (hx : RoundingNumeric.IsTotal x) (hy : IsShare y) {limit : ℝ}
    (hone : 1 ≤ limit) (hlimit : real (x + y) ≤ limit) :
    |real (x + y) - (real x + real y)| ≤ 101 / 100 * roundoff * limit := by
  have hdenotes := denotes_add x y hx.defined hy.defined (fun h => hx.ne_top h.1)
    (fun h => hx.ne_bot h.1)
  rw [← hx.coe_real, ← hy.coe_real, ← EReal.coe_add] at hdenotes
  have hxnonneg := hx.real_nonneg
  have hynonneg := hy.real_nonneg
  have hsum : |real x + real y| = real x + real y := abs_of_nonneg (by linarith)
  have hbound : |real x + real y| ≤ 2 ^ 200 := by
    rw [hsum]
    calc real x + real y ≤ 2 ^ 53 + 1 := add_le_add (real_le_of_isTotal hx) hy.real_le_one
      _ ≤ 2 ^ 200 := by norm_num
  have hnear := (near_of_denotes hdenotes hbound).2
  rw [hsum] at hnear
  have hroundoff := roundoff_pos
  have htiny := tiny_le
  have htinypos := tiny_pos
  -- the exact sum is hardly larger than the rounded one, which is within the limit
  have hexact : real x + real y ≤ 1001 / 1000 * limit := by
    have hlost := roundoff_mul_le (by linarith : 0 ≤ real x + real y + tiny)
    have habove := (abs_le.mp hnear).1
    linarith
  calc |real (x + y) - (real x + real y)| ≤ roundoff * (real x + real y + tiny) := hnear
    _ ≤ roundoff * (101 / 100 * limit) := by
        gcongr
        linarith
    _ = 101 / 100 * roundoff * limit := by ring

/-- A sum of shares is close to the exact one. -/
theorem abs_foldl_add_sub_le {xs : List α} (hxs : ∀ x ∈ xs, IsShare x) {total : α}
    (htotal : RoundingNumeric.IsTotal total) {limit : ℝ} (hone : 1 ≤ limit)
    (hlimit : real (xs.foldl (· + ·) total) ≤ limit) :
    |real (xs.foldl (· + ·) total) - (real total + (xs.map real).sum)| ≤
      xs.length * (101 / 100 * roundoff * limit) := by
  induction xs generalizing total with
  | nil => simp
  | cons x xs ih =>
    have hx := hxs x List.mem_cons_self
    have hrest : ∀ y ∈ xs, IsShare y := fun y hy => hxs y (List.mem_cons_of_mem _ hy)
    rcases htotal.add hx with ⟨hadd, -, -⟩
    rcases RoundingNumeric.IsTotal.foldl_add hrest hadd with ⟨hfold, hle, -⟩
    have hfirst : real (total + x) ≤ limit := by
      rw [← hadd.coe_real, ← hfold.coe_real] at hle
      exact (EReal.coe_le_coe_iff.mp hle).trans hlimit
    have hstep := abs_add_sub_le htotal hx hone hfirst
    have hothers := ih hrest hadd hlimit
    rw [List.map_cons, List.sum_cons, List.length_cons, List.foldl_cons]
    push_cast
    rw [abs_le] at hstep hothers ⊢
    constructor
    · linarith
    · linarith

/-- A share of a share is close to the exact one. -/
theorem abs_mul_sub_le (hx : IsShare x) (hy : IsShare y) :
    |real (x * y) - real x * real y| ≤ roundoff * (real x * real y + tiny) := by
  have hdenotes := denotes_mul x y hx.defined hy.defined
    (fun h => h.2.elim hy.ne_top hy.ne_bot) (fun h => h.1.elim hx.ne_top hx.ne_bot)
  rw [← hx.coe_real, ← hy.coe_real, ← EReal.coe_mul] at hdenotes
  have hproduct : |real x * real y| = real x * real y :=
    abs_of_nonneg (mul_nonneg hx.real_nonneg hy.real_nonneg)
  have hbound : |real x * real y| ≤ 2 ^ 200 := by
    rw [hproduct]
    calc real x * real y ≤ 1 * 1 :=
          mul_le_mul hx.real_le_one hy.real_le_one hy.real_nonneg zero_le_one
      _ ≤ 2 ^ 200 := by norm_num
  have hnear := (near_of_denotes hdenotes hbound).2
  rwa [hproduct] at hnear

/-- The part that a share has of a total is close to the exact one. -/
theorem abs_div_sub_le (hx : IsShare x) (hy : RoundingNumeric.IsTotal y) (hone : 1 ≤ real y) :
    |real (x / y) - real x / real y| ≤ roundoff * (real x / real y + tiny) := by
  have hone' : 1 ≤ value y := by
    rw [← hy.coe_real]
    exact_mod_cast hone
  have hdenotes := hy.denotes_div hone' hx.defined
  rw [← hx.coe_real, ← hy.coe_real, ← EReal.coe_div] at hdenotes
  have hquotient : |real x / real y| = real x / real y :=
    abs_of_nonneg (div_nonneg hx.real_nonneg hy.real_nonneg)
  have hbound : |real x / real y| ≤ 2 ^ 200 := by
    rw [hquotient]
    calc real x / real y ≤ 1 := (div_le_one (by linarith)).mpr (hx.real_le_one.trans hone)
      _ ≤ 2 ^ 200 := by norm_num
  have hnear := (near_of_denotes hdenotes hbound).2
  rwa [hquotient] at hnear

end PreciseNumeric

/-! ## The exponential -/

namespace Numeric

/-- A number is never much larger than its exponential. -/
theorem mul_exp_neg_le (t : ℝ) : t * Real.exp (-t) ≤ 37 / 100 := by
  have hle : t ≤ Real.exp (t - 1) := by
    have := Real.add_one_le_exp (t - 1)
    linarith
  calc t * Real.exp (-t) ≤ Real.exp (t - 1) * Real.exp (-t) := by gcongr
    _ = Real.exp (-1) := by
        rw [← Real.exp_add]
        congr 1
        ring
    _ ≤ 37 / 100 := by linarith [Real.exp_neg_one_lt_d9]

/-- The exponential falls at least as fast as the powers of two. -/
theorem exp_neg_le : Real.exp (-99) ≤ roundoff / 100 := by
  have hone : Real.exp (-1) ≤ 1 / 2 := by linarith [Real.exp_neg_one_lt_d9]
  have hpower : Real.exp (-99) = Real.exp (-1) ^ 99 := by
    rw [← Real.exp_nat_mul]
    norm_num
  calc Real.exp (-99) = Real.exp (-1) ^ 99 := hpower
    _ ≤ (1 / 2) ^ 99 := by gcongr
    _ ≤ roundoff / 100 := by norm_num [roundoff]

/-- The exponential of a small number is hardly further from one than the number is from zero. -/
theorem abs_exp_sub_one_le {d limit : ℝ} (hd : |d| ≤ limit) (hlimit : limit ≤ 1) :
    |Real.exp d - 1| ≤ (1 + limit) * |d| := by
  have hsecond := Real.abs_exp_sub_one_sub_id_le (hd.trans hlimit)
  calc |Real.exp d - 1| = |Real.exp d - 1 - d + d| := by ring_nf
    _ ≤ |Real.exp d - 1 - d| + |d| := abs_add_le _ _
    _ ≤ |d| * |d| + |d| := by
        rw [abs_mul_abs_self, ← pow_two]
        linarith
    _ ≤ (1 + limit) * |d| := by nlinarith [abs_nonneg d]

/-- The logarithms of close numbers are close. -/
theorem abs_log_sub_log_le {a b e : ℝ} (hb : 0 < b) (hnear : |b - a| ≤ e * b) (he : e ≤ 1 / 1000) :
    |Real.log b - Real.log a| ≤ 1002 / 1000 * e := by
  have hnonneg : 0 ≤ e := by
    have := (abs_nonneg _).trans hnear
    exact nonneg_of_mul_nonneg_left this hb
  rw [abs_le] at hnear
  have ha : 0 < a := by nlinarith
  have hratio : Real.log b - Real.log a = Real.log (b / a) := (Real.log_div hb.ne' ha.ne').symm
  have hupper : b / a ≤ 1 + 1002 / 1000 * e := by
    rw [div_le_iff₀ ha]
    nlinarith
  have hlower : a / b ≤ 1 + e := by
    rw [div_le_iff₀ hb]
    linarith
  have hinv : (b / a)⁻¹ = a / b := inv_div b a
  have hbelow := Real.one_sub_inv_le_log_of_pos (div_pos hb ha)
  have habove := Real.log_le_sub_one_of_pos (div_pos hb ha)
  rw [hinv] at hbelow
  rw [hratio, abs_le]
  constructor
  · linarith
  · linarith

/-- A logarithm is at most half of the number. -/
theorem log_le_half {x : ℝ} (hx : 0 < x) : Real.log x ≤ x / 2 := by
  have hhalf := Real.log_le_sub_one_of_pos (half_pos hx)
  rw [Real.log_div hx.ne' two_ne_zero] at hhalf
  linarith [Real.log_two_lt_d9]

/-- The exponential of a rounded number is close to that of the number. -/
theorem abs_exp_add_sub_le {t change : ℝ} (hnonneg : 0 ≤ t) (hle : t ≤ 100)
    (hchange : |change| ≤ roundoff * (t + tiny)) :
    |Real.exp (-t + change) - Real.exp (-t)| ≤ 2 / 5 * roundoff := by
  have hroundoff := roundoff_pos
  have htiny := tiny_le
  have htinypos := tiny_pos
  have hchange' : |change| ≤ 1 / 1000 := by
    have hlost := roundoff_mul_le (add_nonneg hnonneg htinypos.le)
    linarith
  have hexp : |Real.exp change - 1| ≤ 1001 / 1000 * |change| := by
    have hnear := abs_exp_sub_one_le hchange' (by norm_num)
    linarith
  have hweight := mul_exp_neg_le t
  have hexpone : Real.exp (-t) ≤ 1 := Real.exp_le_one_iff.mpr (by linarith)
  have hfactor : Real.exp (-t + change) - Real.exp (-t) =
      Real.exp (-t) * (Real.exp change - 1) := by
    rw [Real.exp_add]
    ring
  rw [hfactor, abs_mul, abs_of_pos (Real.exp_pos _)]
  calc Real.exp (-t) * |Real.exp change - 1|
      ≤ Real.exp (-t) * (1001 / 1000 * (roundoff * (t + tiny))) := by
        gcongr
        exact hexp.trans (by gcongr)
    _ = 1001 / 1000 * roundoff * (t * Real.exp (-t) + tiny * Real.exp (-t)) := by ring
    _ ≤ 1001 / 1000 * roundoff * (37 / 100 + 1 / 1000) := by
        gcongr
        nlinarith
    _ ≤ 2 / 5 * roundoff := by linarith

/-- The exponential keeps the order. -/
theorem realExp_mono {y z : EReal} (hz : z ≠ ⊤) (h : y ≤ z) : realExp y ≤ realExp z := by
  refine ENNReal.toReal_mono ?_ (EReal.exp_monotone h)
  simpa using hz

theorem realExp_le_one {y : EReal} (h : y ≤ 0) : realExp y ≤ 1 := by
  have hle := realExp_mono EReal.zero_ne_top h
  rwa [← EReal.coe_zero, realExp_coe, Real.exp_zero] at hle

end Numeric

namespace AccurateFunctions

open PreciseNumeric

variable {α : Type} [Numeric α] [PreciseNumeric α] {x c : α}

/-- The exponential of a number that is far below zero is lost. -/
theorem real_exp_le_of_le (functions : AccurateFunctions α) (hx : isNaN x = false)
    (hle : value x ≤ ((-99 : ℝ) : EReal)) : real (exp x) ≤ roundoff / 20 := by
  have hnonpos : value x ≤ 0 := hle.trans (by exact_mod_cast (by norm_num : (-99 : ℝ) ≤ 0))
  have hnear := functions.exp_near x hx hnonpos
  have hexact : realExp (value x) ≤ roundoff / 100 :=
    (realExp_mono (EReal.coe_ne_top _) hle).trans (by rw [realExp_coe]; exact exp_neg_le)
  have hroundoff := roundoff_pos
  have hsmall := roundoff_le
  have htiny := tiny_le
  have hnonneg := realExp_nonneg (value x)
  have habove := (abs_le.mp hnear).2
  nlinarith

/-- The exponential of a difference of at least a hundred is lost, as the exact one is. -/
theorem abs_exp_sub_le_of_far (functions : AccurateFunctions α) (hx : isNaN x = false)
    (hc : isFinite c = true) (hfar : value x - value c ≤ ((-100 : ℝ) : EReal)) :
    |real (exp (x - c)) - realExp (value x - value c)| ≤
      2 * roundoff * (realExp (value x - value c) + 1 / 4) := by
  rcases (isFinite_iff c).mp hc with ⟨hcnan, hctop, hcbot⟩
  have hdifference : value x - value c ≤ 0 :=
    hfar.trans (by exact_mod_cast (by norm_num : (-100 : ℝ) ≤ 0))
  have hle : value x ≤ value c := EReal.sub_nonpos.mp hdifference
  have hxtop : value x ≠ ⊤ := ne_top_of_le_ne_top hctop hle
  rcases sub_nonpos hx hcnan hxtop hcbot hle with ⟨hnan, hnonpos⟩
  have hrounded : value (x - c) ≤ ((-99 : ℝ) : EReal) := by
    rcases round_near (α := α) (-100) (by norm_num) with ⟨s, hs, hnear⟩
    have hs99 : s ≤ -99 := by
      have hlost := roundoff_mul_le (add_nonneg (abs_nonneg (-100)) tiny_pos.le)
      have habs : |(-100 : ℝ)| = 100 := by norm_num
      rw [habs] at hnear hlost
      linarith [(abs_le.mp hnear).2, tiny_le]
    calc value (x - c) = round α (value x - value c) :=
          (denotes_sub x c hx hcnan (fun h => hxtop h.1) (fun h => hcbot h.2)).2
      _ ≤ round α ((-100 : ℝ) : EReal) := round_mono hfar
      _ = (s : EReal) := hs
      _ ≤ ((-99 : ℝ) : EReal) := by exact_mod_cast hs99
  have hlost := functions.real_exp_le_of_le hnan hrounded
  have hexactlost : realExp (value x - value c) ≤ roundoff / 100 := by
    refine (realExp_mono (EReal.coe_ne_top _) (hfar.trans ?_)).trans
      (by rw [realExp_coe]; exact exp_neg_le)
    exact_mod_cast (by norm_num : (-100 : ℝ) ≤ -99)
  have hroundoff := roundoff_pos
  have hnonneg := (functions.isShare_exp _ hnan hnonpos).real_nonneg
  have hexact := mul_nonneg hroundoff.le (realExp_nonneg (value x - value c))
  rw [abs_le]
  constructor
  · linarith
  · linarith [realExp_nonneg (value x - value c)]

/-- The exponential of a difference of at most a hundred is close to the exact one. -/
theorem abs_exp_sub_le_of_near (functions : AccurateFunctions α) (hx : isFinite x = true)
    (hc : isFinite c = true) (hle : real x ≤ real c) (hnear : real c - real x ≤ 100) :
    |real (exp (x - c)) - Real.exp (real x - real c)| ≤
      2 * roundoff * (Real.exp (real x - real c) + 1 / 4) := by
  rcases (isFinite_iff x).mp hx with ⟨hxnan, hxtop, hxbot⟩
  rcases (isFinite_iff c).mp hc with ⟨hcnan, hctop, hcbot⟩
  have hdenotes := denotes_sub x c hxnan hcnan (fun h => hxtop h.1) (fun h => hcbot h.2)
  rw [← coe_real hxtop hxbot, ← coe_real hctop hcbot, ← EReal.coe_sub] at hdenotes
  have habs : |real x - real c| = real c - real x := by
    rw [abs_sub_comm, abs_of_nonneg (by linarith)]
  have hrange : |real x - real c| ≤ 2 ^ 200 := by
    rw [habs]
    exact hnear.trans (by norm_num)
  rcases near_of_denotes hdenotes hrange with ⟨hvalue, hclose⟩
  have hnonpos : value (x - c) ≤ 0 := by
    have hxc : value x ≤ value c := by
      rw [← coe_real hxtop hxbot, ← coe_real hctop hcbot]
      exact_mod_cast hle
    exact (sub_nonpos hxnan hcnan hxtop hcbot hxc).2
  have hexp := functions.exp_near _ hdenotes.1 hnonpos
  rw [hvalue.2, realExp_coe] at hexp
  rw [habs] at hclose
  have hmoved := abs_exp_add_sub_le (by linarith) hnear hclose
  have harg : -(real c - real x) + (real (x - c) - (real x - real c)) = real (x - c) := by ring
  rw [harg, neg_sub] at hmoved
  generalize Real.exp (real x - real c) = exact at *
  have hroundoff := roundoff_pos
  have htiny := tiny_le
  have hsmall := roundoff_le
  rw [abs_le] at hexp hmoved ⊢
  constructor
  · nlinarith
  · nlinarith

/-- The exponential of what a value is below a finite one is close to the exact one. -/
theorem abs_exp_sub_le (functions : AccurateFunctions α) (hx : isNaN x = false)
    (hc : isFinite c = true) (hle : value x ≤ value c) :
    |real (exp (x - c)) - realExp (value x - value c)| ≤
      2 * roundoff * (realExp (value x - value c) + 1 / 4) := by
  rcases (isFinite_iff c).mp hc with ⟨-, hctop, hcbot⟩
  have hxtop : value x ≠ ⊤ := ne_top_of_le_ne_top hctop hle
  by_cases hxbot : value x = ⊥
  · refine functions.abs_exp_sub_le_of_far hx hc ?_
    rw [hxbot, EReal.bot_sub]
    exact bot_le
  · have hxfinite : isFinite x = true := (isFinite_iff x).mpr ⟨hx, hxtop, hxbot⟩
    have hdifference : value x - value c = ((real x - real c : ℝ) : EReal) := by
      rw [EReal.coe_sub, coe_real hxtop hxbot, coe_real hctop hcbot]
    by_cases hnear : real c - real x ≤ 100
    · rw [← coe_real hxtop hxbot, ← coe_real hctop hcbot, EReal.coe_le_coe_iff] at hle
      rw [hdifference, realExp_coe]
      exact functions.abs_exp_sub_le_of_near hxfinite hc hle hnear
    · refine functions.abs_exp_sub_le_of_far hx hc ?_
      rw [hdifference, EReal.coe_le_coe_iff]
      linarith

end AccurateFunctions
end DiscreteChoice
