import DiscreteChoice.Logit.Flat
import DiscreteChoice.Proofs.Numeric.RoundingLaws

/-!
# Sums of exponentials

Shifting by the largest entry makes every exponential a share of one, and that of the largest entry
one itself. Their sum is at least one, so that its logarithm and every quotient by it are defined.

Main results:

- Theorem `maximum?_spec`: the maximum is an entry that no other one exceeds.
- Theorem `Logit.logSumExp?_spec`: a log-sum-exp is defined and not less than any entry.
- Theorem `Logit.flatProbabilities_spec`: the flat model gives every alternative a share of one, and
  some alternative a positive one.
-/

namespace DiscreteChoice

open Numeric LawfulNumeric RoundingNumeric

variable {α : Type} [Numeric α]

/-! ## The largest entry -/

theorem maximum?_eq_none_iff {xs : List α} : maximum? xs = none ↔ xs = [] := by
  cases xs with
  | nil => simp [maximum?]
  | cons x xs => simp [maximum?]

/-- The larger of two defined values is one of them, and no less than either. -/
theorem maximum_spec [LawfulNumeric α] {x y : α} (hx : isNaN x = false) (hy : isNaN y = false) :
    (maximum x y = x ∨ maximum x y = y) ∧ value x ≤ value (maximum x y) ∧
      value y ≤ value (maximum x y) := by
  cases hlt : lt x y with
  | true =>
    rw [maximum_of_lt hlt]
    exact ⟨.inr rfl, ((lt_iff x y).mp hlt).2.2.le, le_rfl⟩
  | false =>
    rw [maximum_of_not_lt hlt hx]
    refine ⟨.inl rfl, le_rfl, le_of_not_gt fun hgt => ?_⟩
    have : lt x y = true := (lt_iff x y).mpr ⟨hx, hy, hgt⟩
    simp [hlt] at this

/-- The maximum of defined values is one of them, and no less than any. -/
theorem maximum?_spec [LawfulNumeric α] {xs : List α} (hxs : ∀ x ∈ xs, isNaN x = false)
    {largest : α} (h : maximum? xs = some largest) :
    largest ∈ xs ∧ ∀ x ∈ xs, value x ≤ value largest := by
  cases xs with
  | nil => cases h
  | cons first xs =>
    obtain rfl : xs.foldl maximum first = largest := Option.some.inj h
    clear h
    induction xs generalizing first with
    | nil => simp
    | cons x xs ih =>
      have hfirst := hxs first List.mem_cons_self
      have hx := hxs x (by simp)
      rcases maximum_spec hfirst hx with ⟨hor, hlefirst, hlex⟩
      have hnan : isNaN (maximum first x) = false := by
        rcases hor with heq | heq
        · rw [heq, hfirst]
        · rw [heq, hx]
      have hall : ∀ y ∈ maximum first x :: xs, isNaN y = false := by
        intro y hy
        rcases List.mem_cons.mp hy with rfl | hy
        · exact hnan
        · exact hxs y (by simp [hy])
      rcases ih (maximum first x) hall with ⟨hmem, hle⟩
      rw [List.foldl_cons]
      constructor
      · rcases List.mem_cons.mp hmem with hmax | hmem
        · rw [hmax]
          rcases hor with heq | heq <;> simp [heq]
        · simp [hmem]
      · intro y hy
        have hmax := hle _ List.mem_cons_self
        rcases List.mem_cons.mp hy with rfl | hy
        · exact hlefirst.trans hmax
        · rcases List.mem_cons.mp hy with rfl | hy
          · exact hlex.trans hmax
          · exact hle y (List.mem_cons_of_mem _ hy)

namespace Logit

variable [RoundingNumeric α]

/-! ## Exponentials below the largest entry -/

/-- The exponential of what an entry is below a finite one is a share. -/
theorem isShare_exp_sub (functions : LawfulFunctions α) {x largest : α} (hx : isNaN x = false)
    (hlargest : isFinite largest = true) (hle : value x ≤ value largest) :
    IsShare (exp (x - largest)) := by
  rcases (isFinite_iff largest).mp hlargest with ⟨hnan, htop, hbot⟩
  rcases sub_nonpos hx hnan (ne_top_of_le_ne_top htop hle) hbot hle with ⟨hdefined, hnonpos⟩
  exact functions.isShare_exp _ hdefined hnonpos

/-- The exponential of what an entry is below itself is one. -/
theorem value_exp_sub_self (functions : LawfulFunctions α) {x : α} (hx : isFinite x = true) :
    value (exp (x - x)) = 1 := by
  rcases denotes_sub_self hx with ⟨hdefined, hzero⟩
  exact functions.exp_zero _ hdefined hzero

/-- The exponentials of a list below its largest entry add up to a total of at least one. -/
theorem isTotal_foldl_exp_sub (functions : LawfulFunctions α) {xs : List α}
    (hxs : ∀ x ∈ xs, isNaN x = false) {largest : α} (hmax : maximum? xs = some largest)
    (hlargest : isFinite largest = true) {start : α} (hstart : IsTotal start) :
    IsTotal ((xs.map fun x => exp (x - largest)).foldl (· + ·) start) ∧
      1 ≤ value ((xs.map fun x => exp (x - largest)).foldl (· + ·) start) := by
  rcases maximum?_spec hxs hmax with ⟨hmem, hle⟩
  have hshares : ∀ weight ∈ xs.map fun x => exp (x - largest), IsShare weight := by
    intro weight hweight
    rcases List.mem_map.mp hweight with ⟨x, hx, rfl⟩
    exact isShare_exp_sub functions (hxs x hx) hlargest (hle x hx)
  rcases IsTotal.foldl_add hshares hstart with ⟨htotal, -, hbound⟩
  refine ⟨htotal, ?_⟩
  have hone := hbound _ (List.mem_map_of_mem hmem)
  rwa [value_exp_sub_self functions hlargest] at hone

/-! ## Log-sum-exp -/

omit [RoundingNumeric α] in
/-- There is a log-sum-exp when the largest entry is finite. -/
theorem logSumExp?_eq_some_iff {xs : List α} {logsum : α} :
    logSumExp? xs = some logsum ↔ ∃ largest, maximum? xs = some largest ∧
      isFinite largest = true ∧ largest + ln (sum (xs.map fun x => exp (x - largest))) = logsum := by
  unfold logSumExp?
  cases maximum? xs with
  | none => simp
  | some largest =>
    cases hfinite : isFinite largest with
    | true => simp [hfinite]
    | false => simp [hfinite]

omit [RoundingNumeric α] in
/-- There is no log-sum-exp when there is no finite largest entry. -/
theorem logSumExp?_eq_none_iff {xs : List α} :
    logSumExp? xs = none ↔ ∀ largest, maximum? xs = some largest → isFinite largest = false := by
  unfold logSumExp?
  cases maximum? xs with
  | none => simp
  | some largest => simp

/-- A log-sum-exp is defined and not less than any entry, and the entries are not infinitely large. -/
theorem logSumExp?_spec (functions : LawfulFunctions α) {xs : List α}
    (hxs : ∀ x ∈ xs, isNaN x = false) {logsum : α} (h : logSumExp? xs = some logsum) :
    isNaN logsum = false ∧ value logsum ≠ ⊥ ∧
      ∀ x ∈ xs, value x ≤ value logsum ∧ value x ≠ ⊤ := by
  rcases logSumExp?_eq_some_iff.mp h with ⟨largest, hmax, hlargest, rfl⟩
  rcases (isFinite_iff largest).mp hlargest with ⟨hnan, htop, hbot⟩
  rcases isTotal_foldl_exp_sub functions hxs hmax hlargest isTotal_neg_zero with ⟨htotal, hone⟩
  rcases functions.ln_nonneg _ htotal.defined hone with ⟨hln, hnonneg⟩
  rcases le_add hnan hln hbot hnonneg with ⟨hdefined, hle⟩
  refine ⟨hdefined, ne_bot_of_le_ne_bot hbot hle, ?_⟩
  intro x hx
  have hxle := (maximum?_spec hxs hmax).2 x hx
  exact ⟨hxle.trans hle, ne_top_of_le_ne_top htop hxle⟩

/-! ## The flat model -/

omit [Numeric α] [RoundingNumeric α] in
/-- The utilities of the available alternatives are those that are there. -/
theorem mem_availableUtilities {v : UtilityVector α} {u : α} :
    u ∈ v.availableUtilities ↔ some u ∈ v.entries := by
  simp [UtilityVector.availableUtilities]

/-- The flat model fails only when nothing is available, and gives every alternative a share of one,
and some alternative a positive one. -/
theorem flatProbabilities_spec (functions : LawfulFunctions α) {v : UtilityVector α}
    (hfinite : ∀ u ∈ v.availableUtilities, isFinite u = true) (hsome : v.availableUtilities ≠ []) :
    ∃ p, flatProbabilities v = .ok p ∧ (∀ q ∈ p, IsShare q) ∧ ∃ q ∈ p, 0 < value q := by
  have hdefined : ∀ u ∈ v.availableUtilities, isNaN u = false :=
    fun u hu => isNaN_of_isFinite (hfinite u hu)
  cases hmax : maximum? v.availableUtilities with
  | none => exact absurd (maximum?_eq_none_iff.mp hmax) hsome
  | some largest =>
    rcases maximum?_spec hdefined hmax with ⟨hmem, hle⟩
    have hlargest := hfinite largest hmem
    have htotal := isTotal_foldl_exp_sub functions hdefined hmax hlargest isTotal_zero
    rw [List.foldl_map] at htotal
    rcases htotal with ⟨htotal, hone⟩
    have hp : flatProbabilities v = .ok (v.entries.map fun entry => weight largest entry /
        v.availableUtilities.foldl (fun total u => total + exp (u - largest)) 0) := by
      rw [flatProbabilities, hmax]
      exact if_pos hlargest
    refine ⟨_, hp, ?_, ?_⟩
    · intro q hq
      rcases Array.mem_map.mp hq with ⟨entry, hentry, rfl⟩
      cases entry with
      | none => exact isShare_zero.div htotal hone
      | some u =>
        have hu := mem_availableUtilities.mpr hentry
        exact (isShare_exp_sub functions (hdefined u hu) hlargest (hle u hu)).div htotal hone
    · have hentry := mem_availableUtilities.mp hmem
      have hshare := isShare_exp_sub functions (hdefined largest hmem) hlargest le_rfl
      exact ⟨_, Array.mem_map.mpr ⟨some largest, hentry, rfl⟩,
        htotal.div_pos hone hshare.defined (value_exp_sub_self functions hlargest)⟩

/-- The flat model has a logsum unless nothing is available. -/
theorem flatLogsum_spec {v : UtilityVector α}
    (hfinite : ∀ u ∈ v.availableUtilities, isFinite u = true) (hsome : v.availableUtilities ≠ []) :
    ∃ logsum, flatLogsum v = .ok logsum := by
  cases hmax : maximum? v.availableUtilities with
  | none => exact absurd (maximum?_eq_none_iff.mp hmax) hsome
  | some largest =>
    have hmem := (maximum?_spec (fun u hu => isNaN_of_isFinite (hfinite u hu)) hmax).1
    have hlogsum := logSumExp?_eq_some_iff.mpr ⟨largest, hmax, hfinite largest hmem, rfl⟩
    rw [flatLogsum, hlogsum]
    exact ⟨_, rfl⟩

end Logit
end DiscreteChoice
