import DiscreteChoice.Proofs.Numeric.Laws

/-!
# Laws of rounding

What the results about the choice models assume of arithmetic and of the exponential and the
logarithm. The operations give the exact result rounded, and rounding keeps the order. Sums of shares
of one grow no further than a number that one can still be divided by.

Main results:

- Theorem `IsShare.mul`: a share of a share is a share.
- Theorem `IsTotal.foldl_add`: a sum of shares is at least as large as each of them.
- Theorem `IsTotal.div_pos`: the largest share has a positive part of a sum of shares.
-/

namespace DiscreteChoice

open Numeric LawfulNumeric

/-- The value is defined and stands for the number. -/
def LawfulNumeric.Denotes {α : Type} [Numeric α] [LawfulNumeric α] (x : α) (r : EReal) : Prop :=
  isNaN x = false ∧ value x = r

/-- A number type whose operations give the exact result rounded. -/
class RoundingNumeric (α : Type) [Numeric α] extends LawfulNumeric α where
  /-- The number that the value next to a number stands for. -/
  round : EReal → EReal
  round_mono : Monotone round
  round_value (x : α) : isNaN x = false → round (value x) = value x
  denotes_neg (x : α) : isNaN x = false → Denotes (-x) (-value x)
  denotes_add (x y : α) : isNaN x = false → isNaN y = false → ¬(value x = ⊤ ∧ value y = ⊥) →
    ¬(value x = ⊥ ∧ value y = ⊤) → Denotes (x + y) (round (value x + value y))
  denotes_sub (x y : α) : isNaN x = false → isNaN y = false → ¬(value x = ⊤ ∧ value y = ⊤) →
    ¬(value x = ⊥ ∧ value y = ⊥) → Denotes (x - y) (round (value x - value y))
  denotes_mul (x y : α) : isNaN x = false → isNaN y = false →
    ¬(value x = 0 ∧ (value y = ⊤ ∨ value y = ⊥)) → ¬((value x = ⊤ ∨ value x = ⊥) ∧ value y = 0) →
    Denotes (x * y) (round (value x * value y))
  denotes_div (x y : α) : isNaN x = false → isNaN y = false →
    ¬((value x = ⊤ ∨ value x = ⊥) ∧ (value y = ⊤ ∨ value y = ⊥)) → value y ≠ 0 →
    Denotes (x / y) (round (value x / value y))
  /-- A number that adding one does not change. -/
  full : α
  full_finite : isFinite full = true
  one_le_full : 1 ≤ value full
  full_add_one : value (full + 1) = value full
  one_div_full : 0 < value (1 / full)

/-- A defined value that is not finite is infinite. -/
theorem LawfulNumeric.isFinite_eq_false_iff {α : Type} [Numeric α] [LawfulNumeric α] {x : α}
    (hx : isNaN x = false) : isFinite x = false ↔ value x = ⊤ ∨ value x = ⊥ := by
  rw [← Bool.not_eq_true, isFinite_iff, hx]
  tauto

namespace RoundingNumeric

variable {α : Type} [Numeric α] [RoundingNumeric α] {x y : α}

@[simp] theorem round_zero : round α 0 = 0 := by
  have h := round_value (0 : α) isNaN_zero
  rwa [value_zero] at h

@[simp] theorem round_one : round α 1 = 1 := by
  have h := round_value (1 : α) isNaN_one
  rwa [value_one] at h

/-- Negative zero stands for zero. -/
theorem denotes_neg_zero : Denotes (-0 : α) 0 := by
  have h := denotes_neg (0 : α) isNaN_zero
  rwa [value_zero, neg_zero] at h

/-! ## Single operations -/

/-- Taking away what is not less leaves nothing positive. -/
theorem sub_nonpos (hx : isNaN x = false) (hy : isNaN y = false) (hxtop : value x ≠ ⊤)
    (hybot : value y ≠ ⊥) (h : value x ≤ value y) :
    isNaN (x - y) = false ∧ value (x - y) ≤ 0 := by
  rcases denotes_sub x y hx hy (fun hboth => hxtop hboth.1) (fun hboth => hybot hboth.2) with
    ⟨hnan, hvalue⟩
  refine ⟨hnan, ?_⟩
  calc value (x - y) = round α (value x - value y) := hvalue
    _ ≤ round α 0 := round_mono (EReal.sub_nonpos.mpr h)
    _ = 0 := round_zero

/-- Nothing is left when what is taken away stands for the same number. -/
theorem denotes_sub_of_value_eq (hx : isFinite x = true) (hy : Denotes y (value x)) :
    Denotes (x - y) 0 := by
  rcases (isFinite_iff x).mp hx with ⟨hnan, htop, hbot⟩
  have h := denotes_sub x y hnan hy.1 (fun hboth => htop hboth.1) (fun hboth => hbot hboth.1)
  rwa [hy.2, EReal.sub_self htop hbot, round_zero] at h

/-- Nothing is left when everything is taken away. -/
theorem denotes_sub_self (hx : isFinite x = true) : Denotes (x - x) 0 :=
  denotes_sub_of_value_eq hx ⟨isNaN_of_isFinite hx, rfl⟩

/-- Adding zero changes no number. -/
theorem denotes_add_zero (hx : isNaN x = false) : Denotes (x + 0) (value x) := by
  have hzero : value (0 : α) ≠ ⊤ ∧ value (0 : α) ≠ ⊥ := by simp
  have h := denotes_add x 0 hx isNaN_zero (fun hboth => hzero.2 hboth.2)
    (fun hboth => hzero.1 hboth.2)
  rwa [value_zero, add_zero, round_value x hx] at h

/-- Adding what is not negative makes nothing smaller. -/
theorem le_add (hx : isNaN x = false) (hy : isNaN y = false) (hxbot : value x ≠ ⊥)
    (h : 0 ≤ value y) : isNaN (x + y) = false ∧ value x ≤ value (x + y) := by
  have hybot : value y ≠ ⊥ := by
    intro hbot
    rw [hbot] at h
    exact absurd h (not_le.mpr EReal.bot_lt_zero)
  rcases denotes_add x y hx hy (fun hboth => hybot hboth.2) (fun hboth => hxbot hboth.1) with
    ⟨hnan, hvalue⟩
  refine ⟨hnan, ?_⟩
  calc value x = round α (value x) := (round_value x hx).symm
    _ ≤ round α (value x + value y) := round_mono (le_add_of_nonneg_right h)
    _ = value (x + y) := hvalue.symm

/-! ## Scales -/

/-- The value is a scale that a nest may have. -/
structure IsScale (s : α) : Prop where
  defined : isNaN s = false
  pos : 0 < value s
  le_one : value s ≤ 1

/-- What the check of a scale accepts. -/
theorem IsScale.of_check {s : α} (h : (lt 0 s && le s 1) = true) : IsScale s := by
  rw [Bool.and_eq_true, lt_iff, le_iff, value_zero, value_one] at h
  exact ⟨h.1.2.1, h.1.2.2, h.2.2.2⟩

variable {s : α}

theorem IsScale.ne_top (hs : IsScale s) : value s ≠ ⊤ :=
  ne_top_of_le_ne_top (EReal.coe_ne_top 1) hs.le_one

theorem IsScale.ne_bot (hs : IsScale s) : value s ≠ ⊥ :=
  ne_bot_of_gt hs.pos

/-- Scaling a defined value is rounded. -/
theorem IsScale.denotes_mul (hs : IsScale s) (hx : isNaN x = false) :
    Denotes (s * x) (round α (value s * value x)) :=
  RoundingNumeric.denotes_mul s x hs.defined hx (fun hboth => hs.pos.ne' hboth.1)
    (fun hboth => hboth.1.elim hs.ne_top hs.ne_bot)

/-- Scaling keeps what is not negative so, and makes it no larger. -/
theorem IsScale.mul_mem_of_nonneg (hs : IsScale s) (hx : isNaN x = false) (h : 0 ≤ value x) :
    0 ≤ value (s * x) ∧ value (s * x) ≤ value x := by
  rw [(hs.denotes_mul hx).2]
  constructor
  · calc (0 : EReal) = round α 0 := round_zero.symm
      _ ≤ round α (value s * value x) := round_mono (mul_nonneg hs.pos.le h)
  · calc round α (value s * value x) ≤ round α (value x) :=
          round_mono (mul_le_of_le_one_left h hs.le_one)
      _ = value x := round_value x hx

/-- Scaling keeps what is not positive so, and makes it no smaller. -/
theorem IsScale.mul_mem_of_nonpos (hs : IsScale s) (hx : isNaN x = false) (h : value x ≤ 0) :
    value x ≤ value (s * x) ∧ value (s * x) ≤ 0 := by
  rw [(hs.denotes_mul hx).2]
  constructor
  · calc value x = round α (value x) := (round_value x hx).symm
      _ ≤ round α (value s * value x) := by
          have hle := EReal.mul_le_mul_of_nonpos_right hs.le_one h
          rw [one_mul] at hle
          exact round_mono hle
  · calc round α (value s * value x) ≤ round α 0 :=
          round_mono (mul_nonpos_of_nonneg_of_nonpos hs.pos.le h)
      _ = 0 := round_zero

/-- Scaling makes a positive infinity of nothing else. -/
theorem IsScale.mul_eq_top_iff (hs : IsScale s) (hx : isNaN x = false) :
    value (s * x) = ⊤ ↔ value x = ⊤ := by
  constructor
  · intro htop
    rcases le_total 0 (value x) with hpos | hneg
    · have hle := (hs.mul_mem_of_nonneg hx hpos).2
      rwa [htop, top_le_iff] at hle
    · have hle := (hs.mul_mem_of_nonpos hx hneg).2
      rw [htop, top_le_iff] at hle
      exact absurd hle EReal.zero_ne_top
  · intro htop
    have hround := round_value x hx
    rw [(hs.denotes_mul hx).2, htop, EReal.mul_top_of_pos hs.pos]
    rwa [htop] at hround

/-- Scaling makes a negative infinity of nothing else. -/
theorem IsScale.mul_eq_bot_iff (hs : IsScale s) (hx : isNaN x = false) :
    value (s * x) = ⊥ ↔ value x = ⊥ := by
  constructor
  · intro hbot
    rcases le_total 0 (value x) with hpos | hneg
    · have hle := (hs.mul_mem_of_nonneg hx hpos).1
      rw [hbot, le_bot_iff] at hle
      exact absurd hle EReal.zero_ne_bot
    · have hle := (hs.mul_mem_of_nonpos hx hneg).1
      rwa [hbot, le_bot_iff] at hle
  · intro hbot
    have hround := round_value x hx
    rw [(hs.denotes_mul hx).2, hbot, EReal.mul_bot_of_pos hs.pos]
    rwa [hbot] at hround

/-- Scaling keeps what is finite and what is not. -/
theorem IsScale.isFinite_mul (hs : IsScale s) (hx : isNaN x = false) :
    isFinite (s * x) = isFinite x := by
  rw [Bool.eq_iff_iff, isFinite_iff, isFinite_iff, ne_eq, ne_eq, hs.mul_eq_top_iff hx,
    hs.mul_eq_bot_iff hx, (hs.denotes_mul hx).1, hx]

/-- Dividing by a scale is rounded. -/
theorem IsScale.denotes_div (hs : IsScale s) (hx : isNaN x = false) :
    Denotes (x / s) (round α (value x / value s)) :=
  RoundingNumeric.denotes_div x s hx hs.defined (fun hboth => hboth.2.elim hs.ne_top hs.ne_bot)
    hs.pos.ne'

/-- Dividing by a scale leaves a value defined. -/
theorem IsScale.isNaN_div (hs : IsScale s) (hx : isNaN x = false) : isNaN (x / s) = false :=
  (hs.denotes_div hx).1

/-- Whether a quotient by a scale is finite depends on the number that is divided. -/
theorem IsScale.isFinite_div_congr (hs : IsScale s) (hx : isNaN x = false)
    (hy : Denotes y (value x)) : isFinite (y / s) = isFinite (x / s) := by
  have hvalue : value (y / s) = value (x / s) := by
    rw [(hs.denotes_div hy.1).2, (hs.denotes_div hx).2, hy.2]
  rw [Bool.eq_iff_iff, isFinite_iff, isFinite_iff, hvalue, hs.isNaN_div hx, hs.isNaN_div hy.1]

/-! ## Shares of one -/

/-- The value stands for a share of one. -/
structure IsShare (x : α) : Prop where
  defined : isNaN x = false
  nonneg : 0 ≤ value x
  le_one : value x ≤ 1

theorem isShare_zero : IsShare (0 : α) where
  defined := isNaN_zero
  nonneg := value_zero.ge
  le_one := by
    rw [value_zero]
    exact zero_le_one

theorem isShare_one : IsShare (1 : α) where
  defined := isNaN_one
  nonneg := by
    rw [value_one]
    exact zero_le_one
  le_one := value_one.le

theorem IsShare.ne_top (h : IsShare x) : value x ≠ ⊤ :=
  ne_top_of_le_ne_top (EReal.coe_ne_top 1) h.le_one

theorem IsShare.ne_bot (h : IsShare x) : value x ≠ ⊥ :=
  ne_bot_of_le_ne_bot EReal.zero_ne_bot h.nonneg

/-- Shares are finite. -/
theorem IsShare.isFinite (h : IsShare x) : isFinite x = true :=
  (isFinite_iff x).mpr ⟨h.defined, h.ne_top, h.ne_bot⟩

/-- A share of a share is a share. -/
theorem IsShare.mul (hx : IsShare x) (hy : IsShare y) : IsShare (x * y) := by
  rcases denotes_mul x y hx.defined hy.defined
    (fun hboth => hboth.2.elim hy.ne_top hy.ne_bot) (fun hboth => hboth.1.elim hx.ne_top hx.ne_bot)
    with ⟨hnan, hvalue⟩
  refine ⟨hnan, ?_, ?_⟩
  · calc (0 : EReal) = round α 0 := round_zero.symm
      _ ≤ round α (value x * value y) := round_mono (mul_nonneg hx.nonneg hy.nonneg)
      _ = value (x * y) := hvalue.symm
  · calc value (x * y) = round α (value x * value y) := hvalue
      _ ≤ round α 1 := round_mono (mul_le_one₀ hx.le_one hy.nonneg hy.le_one)
      _ = 1 := round_one

/-! ## Sums of shares -/

/-- The value stands for a sum of shares. -/
structure IsTotal (x : α) : Prop where
  defined : isNaN x = false
  nonneg : 0 ≤ value x
  le_full : value x ≤ value (full : α)

theorem full_ne_top : value (full : α) ≠ ⊤ :=
  ((isFinite_iff _).mp full_finite).2.1

theorem IsTotal.ne_top (h : IsTotal x) : value x ≠ ⊤ :=
  ne_top_of_le_ne_top full_ne_top h.le_full

theorem IsTotal.ne_bot (h : IsTotal x) : value x ≠ ⊥ :=
  ne_bot_of_le_ne_bot EReal.zero_ne_bot h.nonneg

theorem isTotal_zero : IsTotal (0 : α) where
  defined := isNaN_zero
  nonneg := value_zero.ge
  le_full := by
    rw [value_zero]
    exact zero_le_one.trans one_le_full

theorem isTotal_neg_zero : IsTotal (-0 : α) where
  defined := denotes_neg_zero.1
  nonneg := denotes_neg_zero.2.ge
  le_full := by
    rw [denotes_neg_zero.2]
    exact zero_le_one.trans one_le_full

/-- The sum of a total and a share is a total that is not less than either. -/
theorem IsTotal.add (hx : IsTotal x) (hy : IsShare y) :
    IsTotal (x + y) ∧ value x ≤ value (x + y) ∧ value y ≤ value (x + y) := by
  rcases denotes_add x y hx.defined hy.defined (fun hboth => hx.ne_top hboth.1)
    (fun hboth => hx.ne_bot hboth.1) with ⟨hnan, hvalue⟩
  have hleft := (le_add hx.defined hy.defined hx.ne_bot hy.nonneg).2
  have hright : value y ≤ value (x + y) := by
    calc value y = round α (value y) := (round_value y hy.defined).symm
      _ ≤ round α (value x + value y) := round_mono (le_add_of_nonneg_left hx.nonneg)
      _ = value (x + y) := hvalue.symm
  have hfull : value (x + y) ≤ value (full : α) := by
    have hfullnan := isNaN_of_isFinite (full_finite (α := α))
    calc value (x + y) = round α (value x + value y) := hvalue
      _ ≤ round α (value (full : α) + value (1 : α)) := by
          apply round_mono
          rw [value_one]
          exact add_le_add hx.le_full hy.le_one
      _ = value (full + 1 : α) := by
          refine (denotes_add full 1 hfullnan isNaN_one (fun hboth => full_ne_top hboth.1) ?_).2.symm
          intro hboth
          rw [value_one] at hboth
          exact EReal.coe_ne_top 1 hboth.2
      _ = value (full : α) := full_add_one
  exact ⟨⟨hnan, hx.nonneg.trans hleft, hfull⟩, hleft, hright⟩

/-- A sum of shares is a total that is not less than any of them. -/
theorem IsTotal.foldl_add {xs : List α} (hxs : ∀ x ∈ xs, IsShare x) {total : α}
    (htotal : IsTotal total) :
    IsTotal (xs.foldl (· + ·) total) ∧ value total ≤ value (xs.foldl (· + ·) total) ∧
      ∀ x ∈ xs, value x ≤ value (xs.foldl (· + ·) total) := by
  induction xs generalizing total with
  | nil => exact ⟨htotal, le_rfl, by simp⟩
  | cons x xs ih =>
    rcases htotal.add (hxs x List.mem_cons_self) with ⟨hsum, hleft, hright⟩
    rcases ih (fun y hy => hxs y (List.mem_cons_of_mem _ hy)) hsum with ⟨hall, hbefore, hrest⟩
    refine ⟨hall, hleft.trans hbefore, ?_⟩
    intro y hy
    rcases List.mem_cons.mp hy with rfl | hy
    · exact hright.trans hbefore
    · exact hrest y hy

/-- A sum of zeros is zero. -/
theorem denotes_foldl_add_zero {xs : List α} (hxs : ∀ x ∈ xs, Denotes x 0) {total : α}
    (htotal : Denotes total 0) : Denotes (xs.foldl (· + ·) total) 0 := by
  induction xs generalizing total with
  | nil => exact htotal
  | cons x xs ih =>
    rcases hxs x List.mem_cons_self with ⟨hx, hzero⟩
    have hsum := denotes_add total x htotal.1 hx (by simp [htotal.2]) (by simp [htotal.2])
    rw [htotal.2, hzero, add_zero, round_zero] at hsum
    exact ih (fun y hy => hxs y (List.mem_cons_of_mem _ hy)) hsum

/-- A value divided by a sum of shares with a whole in it is rounded. -/
theorem IsTotal.denotes_div (hy : IsTotal y) (hone : 1 ≤ value y) (hx : isNaN x = false) :
    Denotes (x / y) (round α (value x / value y)) :=
  RoundingNumeric.denotes_div x y hx hy.defined (fun hboth => hboth.2.elim hy.ne_top hy.ne_bot)
    (zero_lt_one.trans_le hone).ne'

/-- A share divided by a sum of shares with a whole in it is a share. -/
theorem IsShare.div (hx : IsShare x) (hy : IsTotal y) (hone : 1 ≤ value y) : IsShare (x / y) := by
  rcases hy.denotes_div hone hx.defined with ⟨hnan, hvalue⟩
  have hpos : 0 < value y := zero_lt_one.trans_le hone
  refine ⟨hnan, ?_, ?_⟩
  · calc (0 : EReal) = round α 0 := round_zero.symm
      _ ≤ round α (value x / value y) := round_mono (EReal.div_nonneg hx.nonneg hpos.le)
      _ = value (x / y) := hvalue.symm
  · calc value (x / y) = round α (value x / value y) := hvalue
      _ ≤ round α 1 := by
          apply round_mono
          rw [EReal.div_le_iff_le_mul hpos hy.ne_top, mul_one]
          exact hx.le_one.trans hone
      _ = 1 := round_one

/-- The whole has a positive part of a sum of shares. -/
theorem IsTotal.div_pos (hy : IsTotal y) (hone : 1 ≤ value y) (hx : isNaN x = false)
    (hwhole : value x = 1) : 0 < value (x / y) := by
  have hfull : value (1 / full : α) = round α (value (1 : α) / value (full : α)) :=
    (RoundingNumeric.denotes_div 1 full isNaN_one (isNaN_of_isFinite full_finite)
      (fun hboth => hboth.1.elim isShare_one.ne_top isShare_one.ne_bot)
      (zero_lt_one.trans_le one_le_full).ne').2
  calc (0 : EReal) < value (1 / full : α) := one_div_full
    _ = round α (value (1 : α) / value (full : α)) := hfull
    _ ≤ round α (value x / value y) := by
        apply round_mono
        rw [value_one, hwhole, EReal.div_eq_inv_mul, EReal.div_eq_inv_mul, mul_one, mul_one]
        exact EReal.inv_strictAntiOn.antitoneOn (zero_lt_one.trans_le hone)
          (zero_lt_one.trans_le one_le_full) hy.le_full
    _ = value (x / y) := (hy.denotes_div hone hx).2.symm

end RoundingNumeric

open RoundingNumeric in
/-- The exponential and the logarithm as far as the choice models rely on them. -/
structure LawfulFunctions (α : Type) [Numeric α] [RoundingNumeric α] : Prop where
  isShare_exp (x : α) : isNaN x = false → value x ≤ 0 → IsShare (exp x)
  exp_zero (x : α) : isNaN x = false → value x = 0 → value (exp x) = 1
  ln_nonneg (x : α) : isNaN x = false → 1 ≤ value x → isNaN (ln x) = false ∧ 0 ≤ value (ln x)

end DiscreteChoice
