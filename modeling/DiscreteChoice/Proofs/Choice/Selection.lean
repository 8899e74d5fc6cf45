import DiscreteChoice.Choice.Selection
import DiscreteChoice.Proofs.Numeric.Laws
import DiscreteChoice.Proofs.Outcome

/-!
# What can be selected

Whatever the draw is, only a position with a positive probability is selected. The walk through the
probabilities passes over the others, and falls back on the last positive one. Whether anything can be
selected does not depend on the draw.

Main results:

- Theorem `Selection.value_select_eq_error`: when a selection fails, whatever the draw is.
- Theorem `Selection.value_selectAll`: a list of draws selects what each of them does.
- Theorem `Selection.select_positive`: the selected position has a positive probability.
- Theorem `Selection.selectAll_positive`: so has every position that is selected by a list of draws.
-/

namespace DiscreteChoice
namespace Selection

open Numeric

variable {α : Type} [Numeric α]

/-- A position has a positive probability. -/
def IsPositive (probabilities : List α) (position : Nat) : Prop :=
  ∃ p, probabilities[position]? = some p ∧ lt 0 p = true

/-! ## Accepted probabilities -/

/-- Probabilities with a total are finite and not negative. -/
theorem totalFrom_ok {probabilities : List α} {total sum : α} {position : Nat}
    (h : totalFrom position sum probabilities = .ok total) :
    ∀ p ∈ probabilities, isFinite p = true ∧ lt p 0 = false := by
  induction probabilities generalizing position sum with
  | nil => simp
  | cons p ps ih =>
    rw [totalFrom] at h
    split at h
    · simp at h
    · rename_i haccepted
      simp only [Bool.or_eq_true, Bool.not_eq_true', not_or, Bool.not_eq_false,
        Bool.not_eq_true] at haccepted
      intro q hq
      rcases List.mem_cons.mp hq with rfl | hq
      · exact haccepted
      · exact ih h q hq

/-- Probabilities with a mass are finite and not negative. -/
theorem mass_ok {probabilities : List α} {total : α} (h : mass probabilities = .ok total) :
    ∀ p ∈ probabilities, isFinite p = true ∧ lt p 0 = false := by
  simp only [mass, bind_eq_ok] at h
  rcases h with ⟨sum, hsum, -⟩
  exact totalFrom_ok hsum

/-! ## The walk through the probabilities -/

/-- The walk ends at the last position that was passed on to it or at one whose probability it does
not pass over. -/
theorem firstReaching_eq_some {scale draw sum : α} {last : Option Nat} {probabilities : List α}
    {position found : Nat}
    (h : firstReaching scale draw position sum last probabilities = some found) :
    last = some found ∨
      ∃ i p, found = position + i ∧ probabilities[i]? = some p ∧ le p 0 = false := by
  induction probabilities generalizing position sum last with
  | nil => exact .inl h
  | cons p ps ih =>
    rw [firstReaching] at h
    -- what is found behind the first probability is found one position further on
    have hbehind : (∃ i q, found = position + 1 + i ∧ ps[i]? = some q ∧ le q 0 = false) →
        ∃ i q, found = position + i ∧ (p :: ps)[i]? = some q ∧ le q 0 = false := by
      rintro ⟨i, q, rfl, hq, hpositive⟩
      exact ⟨i + 1, q, by omega, by simpa using hq, hpositive⟩
    split at h
    · rcases ih h with hlast | hfound
      · exact .inl hlast
      · exact .inr (hbehind hfound)
    · rename_i hp
      have hp' : le p 0 = false := by simpa using hp
      simp only at h
      split at h
      · obtain rfl : position = found := by simpa using h
        exact .inr ⟨0, p, rfl, rfl, hp'⟩
      · rcases ih h with hlast | hfound
        · obtain rfl : position = found := by simpa using hlast
          exact .inr ⟨0, p, rfl, rfl, hp'⟩
        · exact .inr (hbehind hfound)

/-- The walk finds nothing when nothing was passed on to it and it passes over every probability. -/
theorem firstReaching_eq_none {scale draw sum : α} {last : Option Nat} {probabilities : List α}
    {position : Nat} :
    firstReaching scale draw position sum last probabilities = none ↔
      last = none ∧ ∀ p ∈ probabilities, le p 0 = true := by
  induction probabilities generalizing position sum last with
  | nil => simp [firstReaching]
  | cons p ps ih =>
    rw [firstReaching, List.forall_mem_cons]
    by_cases hp : le p 0 = true
    · rw [if_pos hp, ih]
      tauto
    · rw [if_neg hp]
      dsimp only
      split
      · simp [hp]
      · rw [ih]
        simp [hp]

/-! ## Errors -/

/-- Probabilities are refused for the first of them that is negative or not finite. -/
theorem totalFrom_eq_error {probabilities : List α} {e : ChoiceError α} {position : Nat} {total : α} :
    totalFrom position total probabilities = .error e ↔
      ∃ front p back, probabilities = front ++ p :: back ∧
        (∀ q ∈ front, (!isFinite q || lt q 0) = false) ∧ (!isFinite p || lt p 0) = true ∧
        e = .invalidProbability (position + front.length) p := by
  induction probabilities generalizing position total with
  | nil => simp [totalFrom]
  | cons p ps ih =>
    rw [totalFrom]
    cases hp : (!isFinite p || lt p 0) with
    | true =>
      rw [if_pos rfl]
      constructor
      · intro h
        exact ⟨[], p, ps, rfl, by simp, hp, (Except.error.inj h).symm⟩
      · rintro ⟨front, q, back, hsplit, hfront, -, rfl⟩
        cases front with
        | nil =>
          rcases List.cons.inj hsplit with ⟨rfl, -⟩
          rfl
        | cons first front =>
          rcases List.cons.inj hsplit with ⟨rfl, -⟩
          have haccepted := hfront p List.mem_cons_self
          rw [hp] at haccepted
          cases haccepted
    | false =>
      rw [if_neg Bool.false_ne_true, ih]
      constructor
      · rintro ⟨front, q, back, rfl, hfront, hq, rfl⟩
        refine ⟨p :: front, q, back, rfl, List.forall_mem_cons.mpr ⟨hp, hfront⟩, hq, ?_⟩
        rw [List.length_cons, Nat.add_right_comm, Nat.add_assoc]
      · rintro ⟨front, q, back, hsplit, hfront, hq, rfl⟩
        cases front with
        | nil =>
          rcases List.cons.inj hsplit with ⟨rfl, -⟩
          rw [hp] at hq
          cases hq
        | cons first front =>
          rcases List.cons.inj hsplit with ⟨rfl, rfl⟩
          refine ⟨front, q, back, rfl, (List.forall_mem_cons.mp hfront).2, hq, ?_⟩
          rw [List.length_cons, Nat.add_right_comm, Nat.add_assoc]

/-- A selection fails when the probabilities have no mass, or none of them is positive. -/
theorem value_select_eq_error {id : DecisionMakerId} {probabilities : List α} {draw : α}
    {e : ChoiceError α} :
    (select id probabilities draw).value = .error e ↔
      mass probabilities = .error e ∨
        (∃ total, mass probabilities = .ok total) ∧ e = .zeroMass ∧
          ∀ p ∈ probabilities, le p 0 = true := by
  cases hmass : mass probabilities with
  | error cause => simp [select_of_error hmass]
  | ok total =>
    rw [select, hmass]
    dsimp only
    split
    · rename_i position hfound
      have hnot : ¬ ∀ p ∈ probabilities, le p 0 = true := fun hall => by
        rw [firstReaching_eq_none.mpr ⟨rfl, hall⟩] at hfound
        cases hfound
      simp [hnot]
    · rename_i hnone
      have hall := (firstReaching_eq_none.mp hnone).2
      constructor
      · intro h
        exact .inr ⟨⟨total, rfl⟩, (Except.error.inj h).symm, hall⟩
      · rintro (h | ⟨-, rfl, -⟩)
        · cases h
        · rfl

/-- An error of a selection does not depend on the draw. -/
theorem value_select_eq_error_of_error {id : DecisionMakerId} {probabilities : List α} {draw : α}
    {e : ChoiceError α} (h : (select id probabilities draw).value = .error e) (other : α) :
    (select id probabilities other).value = .error e :=
  value_select_eq_error.mpr (value_select_eq_error.mp h)

/-- A selected position is one of a probability that is not passed over, and then the probabilities
have a mass. -/
theorem exists_of_value_select {id : DecisionMakerId} {probabilities : List α} {draw : α}
    {position : Nat} (h : (select id probabilities draw).value = .ok position) :
    (∃ total, mass probabilities = .ok total) ∧
      ∃ p, probabilities[position]? = some p ∧ le p 0 = false := by
  unfold select at h
  split at h
  · cases h
  · rename_i total hmass
    refine ⟨⟨total, hmass⟩, ?_⟩
    dsimp only at h
    split at h
    · rename_i found hfound
      rcases Except.ok.inj h with rfl
      rcases firstReaching_eq_some hfound with hlast | ⟨i, p, rfl, hp, hle⟩
      · cases hlast
      · rw [Nat.zero_add]
        exact ⟨p, hp, hle⟩
    · cases h

/-! ## Lists of draws -/

/-- A list of draws selects what each of them does, up to the first that fails. -/
theorem value_selectAll (id : DecisionMakerId) (probabilities draws : List α) :
    (selectAll id probabilities draws).value =
      draws.mapM fun draw => (select id probabilities draw).value := by
  induction draws with
  | nil => rfl
  | cons draw draws ih =>
    rw [selectAll, List.mapM_cons, ← ih, Logged.value_bind]
    cases (select id probabilities draw).value with
    | error e => rfl
    | ok position =>
      rw [ok_bind]
      dsimp only
      rw [Logged.value_bind]
      cases (selectAll id probabilities draws).value <;> rfl

/-! ## Positive probabilities -/

variable [LawfulNumeric α]

/-- The selected position has a positive probability. -/
theorem select_positive {id : DecisionMakerId} {probabilities : List α} {draw : α}
    {position : Nat} (h : (select id probabilities draw).value = .ok position) :
    IsPositive probabilities position := by
  rcases exists_of_value_select h with ⟨⟨total, hmass⟩, p, hp, hle⟩
  have hfinite := (mass_ok hmass p (List.mem_of_getElem? hp)).1
  exact ⟨p, hp, LawfulNumeric.lt_zero_of_not_le hfinite hle⟩

/-- Every position that is selected by a list of draws has a positive probability. -/
theorem selectAll_positive {id : DecisionMakerId} {probabilities draws : List α}
    {positions : List Nat}
    (h : (selectAll id probabilities draws).value = .ok positions) :
    ∀ position ∈ positions, IsPositive probabilities position := by
  intro position hposition
  rw [value_selectAll] at h
  rcases mem_of_mapM_eq_ok h hposition with ⟨draw, -, hselected⟩
  exact select_positive hselected

end Selection
end DiscreteChoice
