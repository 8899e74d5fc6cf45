import DiscreteChoice.Proofs.Choice.Selection
import DiscreteChoice.Proofs.Numeric.Extended

/-!
# Selection inverts the distribution

In exact arithmetic a draw selects the position at which the sum of the probabilities passes it. What
the draws of a position are is told by the sum of the probabilities in front of it and by that sum with
its own, where the first positive probability also takes the draws below it and the last one those above
it.

Main results:

- Theorem `Selection.firstReaching_mono`: a larger draw does not select an earlier position.
- Theorem `Selection.firstReaching_real`: where the walk ends.
- Theorem `Selection.select_inverseCdf`: which draws select which position, and when there is none.
-/

namespace DiscreteChoice
namespace Selection

open Numeric Extended

/-! ## Larger draws -/

/-- A larger draw does not end the walk earlier. -/
theorem firstReaching_mono {α : Type} [Numeric α] {scale draw other : α}
    (hdraws : ∀ sum : α, le other sum = true → le draw sum = true) {probabilities : List α}
    {sum : α} {last : Option Nat} {position found further : Nat}
    (h : firstReaching scale draw position sum last probabilities = some found)
    (hother : firstReaching scale other position sum last probabilities = some further) :
    found ≤ further := by
  induction probabilities generalizing position sum last with
  | nil =>
    rw [firstReaching] at h hother
    rw [h] at hother
    exact (Option.some.inj hother).le
  | cons p ps ih =>
    rw [firstReaching] at h hother
    by_cases hp : le p 0 = true
    · rw [if_pos hp] at h hother
      exact ih h hother
    · rw [if_neg hp] at h hother
      dsimp only at h hother
      by_cases hreached : le draw (sum + p / scale) = true
      · -- the walk of the larger draw has come at least as far
        rw [if_pos hreached] at h
        rcases Option.some.inj h with rfl
        split at hother
        · exact (Option.some.inj hother).le
        · rcases firstReaching_eq_some hother with hlast | ⟨i, q, rfl, -, -⟩
          · exact (Option.some.inj hlast).le
          · omega
      · have hpassed : ¬ le other (sum + p / scale) = true := fun hle => hreached (hdraws _ hle)
        rw [if_neg hreached] at h
        rw [if_neg hpassed] at hother
        exact ih h hother

/-! ## The mass of weights -/

/-- What weights are divided by: their sum, unless it is near one. -/
noncomputable def scaleOf (weights : List ℝ) : ℝ :=
  if 1e-9 < |weights.sum - 1| then weights.sum else 1

/-- The total of weights is their sum. -/
theorem totalFrom_real {weights : List ℝ} (hweights : ∀ w ∈ weights, 0 ≤ w) (position : Nat)
    (total : ℝ) :
    totalFrom position (real total) (weights.map real) = .ok (real (total + weights.sum)) := by
  induction weights generalizing position total with
  | nil => simp [totalFrom]
  | cons w ws ih =>
    rcases List.forall_mem_cons.mp hweights with ⟨hw, hws⟩
    have hnonneg : lt (real w) 0 = false := by
      rw [← Bool.not_eq_true, zero_def, lt_real]
      exact not_lt.mpr hw
    rw [List.map_cons, totalFrom, hnonneg, isFinite_real, real_add, List.sum_cons, ← add_assoc]
    exact ih hws (position + 1) (total + w)

/-- The mass of weights is their sum, if it is positive. -/
theorem mass_real {weights : List ℝ} (hweights : ∀ w ∈ weights, 0 ≤ w) :
    mass (weights.map real) =
      if weights.sum ≤ 0 then .error .zeroMass else .ok (real weights.sum) := by
  rw [mass, zero_def, totalFrom_real hweights, ok_bind, zero_add]
  simp only [le_real, pure_eq_ok]

/-- Weights that are not negative sum to something positive unless all of them are zero. -/
theorem sum_le_zero_iff {weights : List ℝ} (hweights : ∀ w ∈ weights, 0 ≤ w) :
    weights.sum ≤ 0 ↔ ∀ w ∈ weights, w = 0 := by
  constructor
  · intro hsum w hw
    exact le_antisymm ((List.single_le_sum hweights w hw).trans hsum) (hweights w hw)
  · intro hzero
    exact (List.sum_eq_zero hzero).le

/-- What weights with a positive sum are divided by is positive. -/
theorem scaleOf_pos {weights : List ℝ} (hsum : 0 < weights.sum) : 0 < scaleOf weights := by
  unfold scaleOf
  split_ifs
  · exact hsum
  · exact one_pos

/-- Weights are scaled when their sum is not near one. -/
theorem needsScaling_real (total : ℝ) :
    needsScaling (real total) = true ↔ 1e-9 < |total - 1| := by
  have htolerance : (tolerance : Extended) = real 1e-9 := by
    rw [tolerance, ofDecimal_def]
    norm_num
  rw [needsScaling, htolerance, one_def, real_sub, abs_real, lt_real]

/-- Weights with a positive sum are walked through with their scale. -/
theorem value_select_real {weights : List ℝ} (hweights : ∀ w ∈ weights, 0 ≤ w)
    (hsum : 0 < weights.sum) (id : DecisionMakerId) (draw : Extended) (position : ℕ) :
    (select id (weights.map real) draw).value = .ok position ↔
      firstReaching (real (scaleOf weights)) draw 0 (real 0) none (weights.map real) =
        some position := by
  have hscale : (if needsScaling (real weights.sum) then real weights.sum else 1) =
      real (scaleOf weights) := by
    rw [scaleOf, apply_ite real, one_def]
    simp only [needsScaling_real]
  rw [select, mass_real hweights, if_neg (not_le.mpr hsum)]
  dsimp only
  rw [hscale, ← zero_def]
  split
  · rename_i found hfound
    rw [hfound, Except.ok.injEq, Option.some.injEq]
  · rename_i hnone
    rw [hnone]
    simp

/-! ## Where the walk ends -/

/-- The draw hits the weight at a position when the walk starts from a sum: it is above what the
weights in front come to, and at most what they come to with this one. The first positive weight is
also hit from below, and the last one from above. -/
def Hits (scale draw sum : ℝ) (weights : List ℝ) (position : ℕ) : Prop :=
  ∃ front w back, weights = front ++ w :: back ∧ front.length = position ∧ 0 < w ∧
    (sum + front.sum / scale < draw ∨ ∀ v ∈ front, v = 0) ∧
    (draw ≤ sum + (front.sum + w) / scale ∨ ∀ v ∈ back, v = 0)

section Hits

variable {scale draw sum w : ℝ} {weights : List ℝ} {position : ℕ}

/-- A zero is not hit, and changes nothing for the weights behind it. -/
theorem hits_zero_cons : Hits scale draw sum (0 :: weights) position ↔
    ∃ behind, position = behind + 1 ∧ Hits scale draw sum weights behind := by
  constructor
  · rintro ⟨front, v, back, hsplit, rfl, hv, habove, hupTo⟩
    cases front with
    | nil =>
      rcases List.cons.inj hsplit with ⟨rfl, -⟩
      exact absurd hv (lt_irrefl 0)
    | cons first front =>
      rcases List.cons.inj hsplit with ⟨rfl, rfl⟩
      rw [List.sum_cons, zero_add] at habove hupTo
      exact ⟨front.length, rfl, front, v, back, rfl, rfl, hv,
        habove.imp_right fun hzero => (List.forall_mem_cons.mp hzero).2, hupTo⟩
  · rintro ⟨_, rfl, front, v, back, rfl, rfl, hv, habove, hupTo⟩
    refine ⟨0 :: front, v, back, rfl, rfl, hv, ?_, ?_⟩ <;> rw [List.sum_cons, zero_add]
    · exact habove.imp_right fun hzero => List.forall_mem_cons.mpr ⟨rfl, hzero⟩
    · exact hupTo

/-- The first weight is hit, and no other, by a draw that it reaches. -/
theorem hits_cons_of_le (hscale : 0 < scale) (hw : 0 < w) (hweights : ∀ v ∈ weights, 0 ≤ v)
    (hdraw : draw ≤ sum + w / scale) : Hits scale draw sum (w :: weights) position ↔ position = 0 := by
  constructor
  · rintro ⟨front, v, back, hsplit, rfl, hv, habove, -⟩
    cases front with
    | nil => rfl
    | cons first front =>
      rcases List.cons.inj hsplit with ⟨rfl, rfl⟩
      rcases habove with habove | hzero
      · -- what stands in front of any other weight reaches the draw
        have hfront : 0 ≤ front.sum :=
          List.sum_nonneg fun u hu => hweights u (List.mem_append_left _ hu)
        have hle : sum + w / scale ≤ sum + (w :: front).sum / scale := by
          rw [List.sum_cons]
          gcongr
          linarith
        exact absurd (hdraw.trans hle) (not_le.mpr habove)
      · exact absurd (hzero w List.mem_cons_self) hw.ne'
  · rintro rfl
    refine ⟨[], w, weights, rfl, rfl, hw, .inr (by simp), .inl ?_⟩
    rwa [List.sum_nil, zero_add]

/-- A draw that the first weight does not reach hits it when there is no other, or else hits one
behind it. -/
theorem hits_cons_of_lt (hw : 0 < w) (hdraw : sum + w / scale < draw) :
    Hits scale draw sum (w :: weights) position ↔
      (∃ behind, position = behind + 1 ∧ Hits scale draw (sum + w / scale) weights behind) ∨
        position = 0 ∧ ∀ v ∈ weights, v = 0 := by
  have hshift (front : List ℝ) :
      sum + (w :: front).sum / scale = sum + w / scale + front.sum / scale := by
    rw [List.sum_cons, add_div, add_assoc]
  have hshift' (front : List ℝ) (v : ℝ) :
      sum + ((w :: front).sum + v) / scale = sum + w / scale + (front.sum + v) / scale := by
    rw [List.sum_cons, add_assoc, add_div, add_assoc]
  constructor
  · rintro ⟨front, v, back, hsplit, rfl, hv, habove, hupTo⟩
    cases front with
    | nil =>
      rcases List.cons.inj hsplit with ⟨rfl, rfl⟩
      rw [List.sum_nil, zero_add] at hupTo
      exact .inr ⟨rfl, hupTo.resolve_left (not_le.mpr hdraw)⟩
    | cons first front =>
      rcases List.cons.inj hsplit with ⟨rfl, rfl⟩
      have habove := habove.resolve_right fun hzero => hw.ne' (hzero w List.mem_cons_self)
      rw [hshift] at habove
      rw [hshift'] at hupTo
      exact .inl ⟨front.length, rfl, front, v, back, rfl, rfl, hv, .inl habove, hupTo⟩
  · rintro (⟨_, rfl, front, v, back, rfl, rfl, hv, habove, hupTo⟩ | ⟨rfl, hzero⟩)
    · refine ⟨w :: front, v, back, rfl, rfl, hv, .inl ?_, ?_⟩
      · rw [hshift]
        rcases habove with habove | hzero
        · exact habove
        · rwa [List.sum_eq_zero hzero, zero_div, add_zero]
      · rwa [hshift']
    · exact ⟨[], w, weights, rfl, rfl, hw, .inr (by simp), .inr hzero⟩

end Hits

/-- The walk ends at the weight that the draw hits, and otherwise, when all weights are zero, at the
position that was passed on to it. -/
theorem firstReaching_real {scale : ℝ} (hscale : 0 < scale) {weights : List ℝ}
    (hweights : ∀ w ∈ weights, 0 ≤ w) {draw sum : ℝ} {last : Option ℕ} {position found : ℕ} :
    firstReaching (real scale) (real draw) position (real sum) last (weights.map real) =
        some found ↔
      (∃ behind, found = position + behind ∧ Hits scale draw sum weights behind) ∨
        last = some found ∧ ∀ w ∈ weights, w = 0 := by
  induction weights generalizing position sum last with
  | nil => simp [firstReaching, Hits]
  | cons w ws ih =>
    rcases List.forall_mem_cons.mp hweights with ⟨hw, hws⟩
    rw [List.map_cons, firstReaching, zero_def]
    simp only [le_real, real_div w hscale.ne', real_add]
    rcases hw.eq_or_lt with rfl | hpositive
    · -- a zero is passed over
      rw [if_pos le_rfl, ih hws, List.forall_mem_cons, eq_self_iff_true, true_and]
      simp only [hits_zero_cons]
      refine or_congr_left ⟨?_, ?_⟩
      · rintro ⟨behind, rfl, hhits⟩
        exact ⟨behind + 1, by omega, behind, rfl, hhits⟩
      · rintro ⟨_, rfl, behind, rfl, hhits⟩
        exact ⟨behind, by omega, hhits⟩
    · have hnotzero : ¬ ∀ v ∈ w :: ws, v = 0 := fun hzero =>
        hpositive.ne' (hzero w List.mem_cons_self)
      rw [if_neg (not_le.mpr hpositive), eq_false hnotzero, and_false, or_false]
      by_cases hdraw : draw ≤ sum + w / scale
      · rw [if_pos hdraw]
        simp only [hits_cons_of_le hscale hpositive hws hdraw, exists_eq_right, Nat.add_zero]
        rw [Option.some.injEq, eq_comm]
      · rw [if_neg hdraw, ih hws]
        simp only [hits_cons_of_lt hpositive (not_le.mp hdraw)]
        constructor
        · rintro (⟨behind, rfl, hhits⟩ | ⟨hlast, hzero⟩)
          · exact ⟨behind + 1, by omega, .inl ⟨behind, rfl, hhits⟩⟩
          · exact ⟨0, (Option.some.inj hlast).symm, .inr ⟨rfl, hzero⟩⟩
        · rintro ⟨_, rfl, ⟨behind, rfl, hhits⟩ | ⟨rfl, hzero⟩⟩
          · exact .inl ⟨behind, by omega, hhits⟩
          · exact .inr ⟨rfl, hzero⟩

/-! ## Selection -/

/-- A list has a first entry that is undefined, infinite or negative, or it is one of weights. -/
theorem invalid_or_weights (probabilities : List Extended) :
    (∃ front p back, probabilities = front ++ p :: back ∧ p.IsInvalid ∧ ∀ q ∈ front, ¬ q.IsInvalid) ∨
      ∃ weights : List ℝ, probabilities = weights.map real ∧ ∀ w ∈ weights, 0 ≤ w := by
  induction probabilities with
  | nil => exact .inr ⟨[], rfl, by simp⟩
  | cons p ps ih =>
    by_cases hp : p.IsInvalid
    · exact .inl ⟨[], p, ps, rfl, hp, by simp⟩
    · rcases exists_real_of_not_isInvalid hp with ⟨w, hw, rfl⟩
      rcases ih with ⟨front, q, back, rfl, hq, hfront⟩ | ⟨weights, rfl, hweights⟩
      · exact .inl ⟨real w :: front, q, back, rfl, hq, List.forall_mem_cons.mpr ⟨hp, hfront⟩⟩
      · exact .inr ⟨w :: weights, rfl, List.forall_mem_cons.mpr ⟨hw, hweights⟩⟩

/-- A position is refused when it is the first that is undefined, infinite or negative. -/
theorem value_select_eq_invalid {id : DecisionMakerId} {probabilities : List Extended}
    {draw p : Extended} {position : ℕ} :
    (select id probabilities draw).value = .error (.invalidProbability position p) ↔
      ∃ front back, probabilities = front ++ p :: back ∧ front.length = position ∧ p.IsInvalid ∧
        ∀ q ∈ front, ¬ q.IsInvalid := by
  have hmass : mass probabilities = .error (.invalidProbability position p) ↔
      totalFrom 0 0 probabilities = .error (.invalidProbability position p) := by
    rw [mass, bind_eq_error]
    refine or_iff_left ?_
    rintro ⟨total, -, h⟩
    split at h <;> cases h
  rw [value_select_eq_error, hmass, totalFrom_eq_error]
  simp only [isInvalid_iff, Bool.not_eq_true, reduceCtorEq, false_and, and_false, or_false,
    Nat.zero_add, ChoiceError.invalidProbability.injEq]
  constructor
  · rintro ⟨front, q, back, hsplit, hfront, hq, rfl, rfl⟩
    exact ⟨front, back, hsplit, rfl, hq, hfront⟩
  · rintro ⟨front, back, hsplit, rfl, hp, hfront⟩
    exact ⟨front, p, back, hsplit, hfront, hp, rfl, rfl⟩

/-- Weights have nothing to select when all of them are zero. -/
theorem value_select_weights_eq_zeroMass {id : DecisionMakerId} {weights : List ℝ}
    (hweights : ∀ w ∈ weights, 0 ≤ w) {draw : Extended} :
    (select id (weights.map real) draw).value = .error .zeroMass ↔ ∀ w ∈ weights, w = 0 := by
  rw [value_select_eq_error, mass_real hweights, ← sum_le_zero_iff hweights]
  split
  · rename_i hsum
    exact iff_of_true (.inl rfl) hsum
  · rename_i hsum
    refine iff_of_false ?_ hsum
    rintro (h | ⟨-, -, hall⟩)
    · cases h
    · refine hsum ((sum_le_zero_iff hweights).mpr fun w hw => ?_)
      have hle := hall (real w) (List.mem_map_of_mem hw)
      rw [zero_def, le_real] at hle
      exact le_antisymm hle (hweights w hw)

/-- There is nothing to select when every entry is zero. -/
theorem value_select_eq_zeroMass {id : DecisionMakerId} {probabilities : List Extended}
    {draw : Extended} :
    (select id probabilities draw).value = .error .zeroMass ↔ ∀ p ∈ probabilities, p = 0 := by
  rcases invalid_or_weights probabilities with
    ⟨front, p, back, rfl, hp, hfront⟩ | ⟨weights, rfl, hweights⟩
  · have hrefused : (select id (front ++ p :: back) draw).value =
        .error (.invalidProbability front.length p) :=
      value_select_eq_invalid.mpr ⟨front, back, rfl, rfl, hp, hfront⟩
    rw [hrefused]
    refine iff_of_false (by simp) fun hzero => ?_
    rw [hzero p (by simp), isInvalid_iff, zero_def] at hp
    simp at hp
  · rw [value_select_weights_eq_zeroMass hweights, List.forall_mem_map]
    simp only [zero_def, real.injEq]

/-- Every draw selects among weights one of which is positive. -/
theorem exists_value_select {id : DecisionMakerId} {weights : List ℝ}
    (hweights : ∀ w ∈ weights, 0 ≤ w) (hpositive : ∃ w ∈ weights, 0 < w) (draw : Extended) :
    ∃ position, (select id (weights.map real) draw).value = .ok position := by
  cases hselect : (select id (weights.map real) draw).value with
  | ok position => exact ⟨position, rfl⟩
  | error e =>
    rcases hpositive with ⟨w, hw, hpositive⟩
    have hmass : e = .zeroMass := by
      rcases value_select_eq_error.mp hselect with hmass | ⟨-, rfl, -⟩
      · rw [mass_real hweights] at hmass
        split at hmass
        · exact (Except.error.inj hmass).symm
        · cases hmass
      · rfl
    rw [hmass] at hselect
    have hzero := (value_select_weights_eq_zeroMass hweights).mp hselect w hw
    exact absurd hzero hpositive.ne'

/-- A selected position is one of weights with a positive sum. -/
theorem exists_weights_of_value_select {id : DecisionMakerId} {probabilities : List Extended}
    {draw : Extended} {position : ℕ}
    (h : (select id probabilities draw).value = .ok position) :
    ∃ weights : List ℝ, probabilities = weights.map real ∧ (∀ w ∈ weights, 0 ≤ w) ∧
      0 < weights.sum := by
  rcases invalid_or_weights probabilities with
    ⟨front, p, back, rfl, hp, hfront⟩ | ⟨weights, rfl, hweights⟩
  · rw [value_select_eq_invalid.mpr ⟨front, back, rfl, rfl, hp, hfront⟩] at h
    cases h
  · refine ⟨weights, rfl, hweights, lt_of_not_ge fun hsum => ?_⟩
    have hzero := (sum_le_zero_iff hweights).mp hsum
    rw [(value_select_weights_eq_zeroMass hweights).mpr hzero] at h
    cases h

/-- A larger draw does not select an earlier position. -/
theorem value_select_mono {id : DecisionMakerId} {probabilities : List Extended} {draw other : ℝ}
    (hle : draw ≤ other) {position further : ℕ}
    (h : (select id probabilities (real draw)).value = .ok position)
    (hother : (select id probabilities (real other)).value = .ok further) : position ≤ further := by
  rcases exists_weights_of_value_select h with ⟨weights, rfl, hweights, hsum⟩
  rw [value_select_real hweights hsum] at h hother
  refine firstReaching_mono (fun sum hsum => ?_) h hother
  rw [LawfulNumeric.le_iff] at hsum ⊢
  exact ⟨rfl, hsum.2.1, (EReal.coe_le_coe_iff.mpr hle).trans hsum.2.2⟩

/-- Selection inverts the distribution of the probabilities. It is refused for the first entry that is
undefined, infinite or negative, and for want of any that is not zero. Otherwise every draw selects,
namely the positive weight whose sum with those in front of it reaches the draw when they alone do not,
where the first positive weight also takes what is below it and the last one what is above it. A larger
draw never selects an earlier position, and no error depends on the draw. -/
theorem select_inverseCdf (id : DecisionMakerId) (probabilities : List Extended) :
    (∀ draw position p,
      (select id probabilities draw).value = .error (.invalidProbability position p) ↔
        ∃ front back, probabilities = front ++ p :: back ∧ front.length = position ∧ p.IsInvalid ∧
          ∀ q ∈ front, ¬ q.IsInvalid) ∧
    (∀ draw, (select id probabilities draw).value = .error .zeroMass ↔ ∀ p ∈ probabilities, p = 0) ∧
    (∀ weights : List ℝ, probabilities = weights.map real → (∀ w ∈ weights, 0 ≤ w) →
      (∃ w ∈ weights, 0 < w) → ∀ draw : ℝ,
        (∃ position, (select id probabilities (real draw)).value = .ok position) ∧
        ∀ position, (select id probabilities (real draw)).value = .ok position ↔
          ∃ front w back, weights = front ++ w :: back ∧ front.length = position ∧ 0 < w ∧
            (front.sum / scaleOf weights < draw ∨ ∀ v ∈ front, v = 0) ∧
            (draw ≤ (front.sum + w) / scaleOf weights ∨ ∀ v ∈ back, v = 0)) ∧
    (∀ draw other : ℝ, draw ≤ other → ∀ position further,
      (select id probabilities (real draw)).value = .ok position →
      (select id probabilities (real other)).value = .ok further → position ≤ further) ∧
    ∀ draw other e, (select id probabilities draw).value = .error e →
      (select id probabilities other).value = .error e := by
  refine ⟨fun draw position p => value_select_eq_invalid, fun draw => value_select_eq_zeroMass, ?_,
    fun draw other hle position further h hother => value_select_mono hle h hother,
    fun draw other e h => value_select_eq_error_of_error h other⟩
  rintro weights rfl hweights hpositive draw
  refine ⟨exists_value_select hweights hpositive (real draw), fun position => ?_⟩
  have hsum : 0 < weights.sum := by
    rcases hpositive with ⟨w, hw, hpositive⟩
    exact hpositive.trans_le (List.single_le_sum hweights w hw)
  rw [value_select_real hweights hsum, firstReaching_real (scaleOf_pos hsum) hweights]
  simp only [Hits, zero_add, reduceCtorEq, false_and, or_false, exists_eq_left']

/-- A draw that meets the first of two halves selects it, and one above it passes over the zero between
them. An undefined entry is refused where it stands. -/
theorem select_halves :
    (select 7 [real 0.5, real 0, real 0.5] (real 0.5)).value = .ok 0 ∧
      (select 7 [real 0.5, real 0, real 0.5] (real 0.75)).value = .ok 2 ∧
      (select 7 [real 0.5, undefined] (real 0.75)).value =
        .error (.invalidProbability 1 undefined) := by
  have hscale : scaleOf [0.5, 0, 0.5] = 1 := by
    norm_num [scaleOf]
  rcases select_inverseCdf 7 [real 0.5, real 0, real 0.5] with ⟨-, -, hdraws, -, -⟩
  have hselect := hdraws [0.5, 0, 0.5] rfl (by norm_num) ⟨0.5, by simp, by norm_num⟩
  rw [hscale] at hselect
  refine ⟨((hselect 0.5).2 0).mpr ?_, ((hselect 0.75).2 2).mpr ?_, ?_⟩
  · exact ⟨[], 0.5, [0, 0.5], rfl, rfl, by norm_num, .inr (by simp), .inl (by norm_num)⟩
  · exact ⟨[0.5, 0], 0.5, [], rfl, rfl, by norm_num, .inl (by norm_num), .inr (by simp)⟩
  · refine ((select_inverseCdf 7 [real 0.5, undefined]).1 (real 0.75) 1 undefined).mpr ?_
    refine ⟨[real 0.5], [], rfl, rfl, .undefined, ?_⟩
    rw [List.forall_mem_singleton, isInvalid_iff, zero_def]
    norm_num

end Selection
end DiscreteChoice
