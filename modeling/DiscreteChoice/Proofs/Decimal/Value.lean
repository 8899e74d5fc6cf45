import DiscreteChoice.Decimal.Layout
import DiscreteChoice.Proofs.Decimal.Literal

/-!
# The numbers of decimals

A decimal stands for its digits times a power of ten. The positional text of a decimal is a literal
without an exponent: the digits of the number, with zeros filled in on either side of them where the
decimal point stands outside of them.

Main results:

- Theorems `lt_pow_digitCount` and `pow_digitCount_le`: how large a number with so many digits is.
- Theorem `toReal_trimZeros`: dropping zeros at the right end does not change the number.
- Theorem `exists_digits_positional`: the positional text denotes the same number.
-/

namespace DiscreteChoice
namespace Decimal

/-- The number that a decimal stands for. -/
noncomputable def toReal (d : Decimal) : ℝ :=
  d.digits * ((10 : ℕ) : ℝ) ^ d.exponent

theorem toReal_def (d : Decimal) : d.toReal = d.digits * 10 ^ d.exponent := rfl

/-! ## Digits -/

theorem digitCount_pos (n : ℕ) : 0 < digitCount n :=
  Nat.length_toDigits_pos

theorem lt_pow_digitCount (n : ℕ) : n < 10 ^ digitCount n :=
  (Nat.length_toDigits_le_iff (by norm_num) (digitCount_pos n)).mp le_rfl

/-- A positive number reaches the power of ten of its first digit. -/
theorem pow_digitCount_le {n : ℕ} (hn : 0 < n) : 10 ^ (digitCount n - 1) ≤ n := by
  rcases Nat.eq_zero_or_pos (digitCount n - 1) with hone | hmore
  · rw [hone]
    exact hn
  · by_contra hlt
    have hshort : digitCount n ≤ digitCount n - 1 :=
      (Nat.length_toDigits_le_iff (by norm_num) hmore).mpr (not_le.mp hlt)
    omega

theorem powerOfTen_eq (n : ℕ) : powerOfTen n = 10 ^ n := rfl

/-- The digits of a number are read as the number. -/
@[simp] theorem digitsValue_digitChars (n : ℕ) : digitsValue (digitChars n) = n := by
  have hread := Nat.ofDigitChars_toDigits (b := 10) (n := n) (by norm_num) le_rfl
  rw [Nat.ofDigitChars] at hread
  rw [digitsValue, digitsValueFrom, digitChars]
  simp only [digitValue, Nat.mul_comm _ 10]
  exact hread

theorem areDigits_digitChars (n : ℕ) : AreDigits (digitChars n) := by
  intro c hc
  have hdigit := Nat.isDigit_of_mem_toDigits (b := 10) (by norm_num) le_rfl hc
  simpa [Char.isDigit, isDigit, Char.le_def] using hdigit

theorem areDigits_zeros (n : ℕ) : AreDigits (zeros n) := by
  intro c hc
  rw [List.eq_of_mem_replicate hc]
  rfl

@[simp] theorem digitsValue_zeros (n : ℕ) : digitsValue (zeros n) = 0 := by
  induction n with
  | zero => rfl
  | succ n ih =>
    have hlast : zeros (n + 1) = zeros n ++ ['0'] := List.replicate_succ'
    rw [hlast, digitsValue_append_singleton, ih]
    rfl

theorem AreDigits.append {cs ds : List Char} (h : AreDigits cs) (h' : AreDigits ds) :
    AreDigits (cs ++ ds) :=
  List.forall_mem_append.mpr ⟨h, h'⟩

/-! ## Zeros at the right end -/

/-- A zero at the right end goes into the power of ten. -/
theorem toReal_drop_zero {d : Decimal} (h : d.digits % 10 = 0) :
    toReal ⟨d.digits / 10, d.exponent + 1⟩ = d.toReal := by
  have hdigits : ((d.digits / 10 : ℕ) : ℝ) * 10 = d.digits := by
    exact_mod_cast Nat.div_mul_cancel (Nat.dvd_of_mod_eq_zero h)
  rw [toReal_def, toReal_def, zpow_add_one₀ (by norm_num), ← hdigits]
  ring

/-- Dropping zeros at the right end does not change the number. -/
theorem toReal_trimZeros (d : Decimal) : d.trimZeros.toReal = d.toReal := by
  have hgo (n : ℕ) : ∀ d : Decimal, (trimZeros.go n d).toReal = d.toReal := by
    induction n with
    | zero => exact fun d => rfl
    | succ n ih =>
      intro d
      rw [trimZeros.go]
      split
      · rename_i hzero
        rw [ih, toReal_drop_zero hzero.1]
      · rfl
  exact hgo _ d

/-! ## Positional texts -/

/-- Digits, and maybe a point with more digits, are a literal. -/
theorem isLiteral_of_digits {whole point fraction : List Char} (isWhole : AreDigits whole)
    (isFraction : IsFraction point fraction) (ne_nil : whole ≠ []) :
    IsLiteral (whole ++ point) ⟨digitsValue (whole ++ fraction), -fraction.length⟩ := by
  have hliteral := IsLiteral.mk isWhole isFraction (List.append_ne_nil_of_left_ne_nil ne_nil _) .absent
  rwa [List.append_nil, zero_sub] at hliteral

/-- The positional text of a decimal is digits, and maybe a point with more digits, which denote the
same number. -/
theorem exists_digits_positional (d : Decimal) :
    ∃ whole point fraction, d.positional = String.ofList (whole ++ point) ∧ AreDigits whole ∧
      whole ≠ [] ∧ IsFraction point fraction ∧
      toReal ⟨digitsValue (whole ++ fraction), -fraction.length⟩ = d.toReal := by
  have hdigits := areDigits_digitChars d.digits
  have hne : digitChars d.digits ≠ [] := Nat.toDigits_ne_nil
  rw [positional]
  split_ifs with hexponent hplaces
  · -- zeros are filled in on the right, and there is no point
    rcases Int.eq_ofNat_of_zero_le hexponent with ⟨n, hn⟩
    refine ⟨digitChars d.digits ++ zeros d.exponent.toNat, [], [], by rw [List.append_nil],
      hdigits.append (areDigits_zeros _), List.append_ne_nil_of_left_ne_nil hne _, .absent, ?_⟩
    rw [List.append_nil, digitsValue_append, digitsValue_zeros, digitsValue_digitChars,
      toReal_def, toReal_def, hn]
    simp [zeros, powerOfTen_eq]
  · -- the point stands among the digits
    have hlength : ((digitChars d.digits).length : ℤ) - ((digitChars d.digits).length -
        (-d.exponent).toNat : ℕ) = -d.exponent := by
      omega
    refine ⟨_, _, _, rfl, fun c hc => hdigits c (List.mem_of_mem_take hc), ?_,
      .present fun c hc => hdigits c (List.mem_of_mem_drop hc), ?_⟩
    · rw [ne_eq, List.take_eq_nil_iff, not_or]
      exact ⟨by omega, hne⟩
    · rw [List.take_append_drop, digitsValue_digitChars, List.length_drop, Nat.cast_sub (by omega),
        hlength, neg_neg]
  · -- zeros are filled in on the left, behind the point
    refine ⟨['0'], _, zeros ((-d.exponent).toNat - (digitChars d.digits).length) ++
      digitChars d.digits, rfl, areDigits_zeros 1, List.cons_ne_nil _ _,
      .present ((areDigits_zeros _).append hdigits), ?_⟩
    have hzeros : ['0'] ++ (zeros ((-d.exponent).toNat - (digitChars d.digits).length) ++
        digitChars d.digits) =
        zeros ((-d.exponent).toNat - (digitChars d.digits).length + 1) ++ digitChars d.digits := rfl
    have hlength : -((zeros ((-d.exponent).toNat - (digitChars d.digits).length) ++
        digitChars d.digits).length : ℤ) = d.exponent := by
      rw [List.length_append, zeros, List.length_replicate]
      omega
    rw [hzeros, digitsValue_append, digitsValue_zeros, digitsValue_digitChars, hlength]
    simp

end Decimal
end DiscreteChoice
