import DiscreteChoice.Proofs.Choice.Chosen
import DiscreteChoice.Proofs.Formula.Folding
import DiscreteChoice.Proofs.Logit.Shares
import DiscreteChoice.Proofs.Nest.Layout
import DiscreteChoice.Proofs.Numeric.DoubleArithmetic

/-!
# When a decision fails

A decision fails when nothing is available, and when everything that is available is lost in the
nesting, which takes a composite utility that is too large to be written. Drawing a choice fails also
when every probability is too small to be written. Nothing else makes a decision of a compiled model
fail.

Main results:

- Theorem `Selection.select_eq_error_iff`: shares of one can be drawn from unless none is positive.
- Theorem `Chooser.run_eq_error_iff`: exactly when a decision fails, and with which error.
-/

namespace DiscreteChoice

open Numeric LawfulNumeric RoundingNumeric

variable {α : Type} [Numeric α]

namespace Selection

variable [RoundingNumeric α]

/-- Shares of one are accepted. -/
theorem totalFrom_shares {shares : List α} (hshares : ∀ p ∈ shares, IsShare p) (position : Nat)
    (total : α) : totalFrom position total shares = .ok (shares.foldl (· + ·) total) := by
  induction shares generalizing position total with
  | nil => rfl
  | cons p ps ih =>
    have hp := hshares p List.mem_cons_self
    have hnonneg : lt p 0 = false := by
      rw [← Bool.not_eq_true, lt_iff, value_zero]
      exact fun h => absurd hp.nonneg (not_le.mpr h.2.2)
    rw [totalFrom, hp.isFinite, hnonneg]
    exact ih (fun q hq => hshares q (List.mem_cons_of_mem _ hq)) (position + 1) (total + p)

/-- A sum of shares is positive unless none of them is. -/
theorem le_foldl_add_zero_iff {shares : List α} (hshares : ∀ p ∈ shares, IsShare p) :
    le (shares.foldl (· + ·) 0) 0 = true ↔ ∀ p ∈ shares, lt 0 p = false := by
  rcases IsTotal.foldl_add hshares isTotal_zero with ⟨htotal, -, hbound⟩
  constructor
  · intro hle p hp
    have hzero := ((le_iff _ _).mp hle).2.2
    rw [← Bool.not_eq_true, lt_iff]
    exact fun hpositive => absurd ((hbound p hp).trans hzero) (not_le.mpr hpositive.2.2)
  · intro hnone
    have hzeros : ∀ p ∈ shares, Denotes p 0 := by
      intro p hp
      have hshare := hshares p hp
      refine ⟨hshare.defined, le_antisymm (le_of_not_gt fun hpositive => ?_) hshare.nonneg⟩
      have hlt : lt 0 p = true := (lt_iff 0 p).mpr ⟨isNaN_zero, hshare.defined, by simpa⟩
      simp [hnone p hp] at hlt
    rcases denotes_foldl_add_zero hzeros ⟨isNaN_zero, value_zero⟩ with ⟨hnan, hzero⟩
    rw [le_iff, hzero, value_zero]
    exact ⟨hnan, isNaN_zero, le_rfl⟩

/-- Shares of one have a mass unless none is positive. -/
theorem mass_eq_error_iff {shares : List α} (hshares : ∀ p ∈ shares, IsShare p)
    {e : ChoiceError α} :
    mass shares = .error e ↔ e = .zeroMass ∧ ∀ p ∈ shares, lt 0 p = false := by
  rw [mass, totalFrom_shares hshares, ok_bind, ← le_foldl_add_zero_iff hshares]
  split
  · rename_i hle
    rw [Except.error.injEq, eq_comm]
    exact ⟨fun h => ⟨h, hle⟩, fun h => h.1⟩
  · rename_i hle
    constructor
    · intro h
      simp at h
    · rintro ⟨-, hzero⟩
      exact absurd hzero hle

/-- A position can be drawn from shares of one unless none of them is positive. -/
theorem select_eq_error_iff {shares : List α} (hshares : ∀ p ∈ shares, IsShare p)
    (id : DecisionMakerId) (draw : α) {e : ChoiceError α} :
    (select id shares draw).value = .error e ↔ e = .zeroMass ∧ ∀ p ∈ shares, lt 0 p = false := by
  rw [value_select_eq_error, mass_eq_error_iff hshares]
  refine or_iff_left ?_
  -- shares with a mass have one that the walk does not pass over
  rintro ⟨⟨total, hmass⟩, -, hall⟩
  have hzero : mass shares = .error .zeroMass := by
    refine (mass_eq_error_iff hshares).mpr ⟨rfl, fun p hp => ?_⟩
    rw [← Bool.not_eq_true, lt_iff]
    exact fun hlt => absurd ((le_iff _ _).mp (hall p hp)).2.2 (not_le.mpr hlt.2.2)
  rw [hmass] at hzero
  cases hzero

end Selection

/-! ## The available utilities -/

/-- The utility of an available alternative is finite. -/
theorem Alternative.isFinite_appraise {alternative : Alternative α} {context : Context α}
    {position : Nat} {u : α} (h : (alternative.appraise context position).value = some u) :
    isFinite u = true := by
  unfold Alternative.appraise at h
  rw [Logged.value_bind] at h
  split at h
  · rw [Logged.value_bind] at h
    split at h
    · rename_i hfinite
      rcases Option.some.inj h with rfl
      exact hfinite
    · cases h
  · cases h

namespace Chooser

variable (chooser : Chooser α) (context : Context α)

/-- There is one utility for each alternative. -/
theorem size_utilities : (chooser.utilities context).size = chooser.model.size := by
  simp [utilities, Model.utilities, UtilityVector.size, Model.size]

/-- The available utilities are finite. -/
theorem isFinite_utilities : ∀ u ∈ (chooser.utilities context).availableUtilities,
    isFinite u = true := by
  intro u hu
  have hentry := Logit.mem_availableUtilities.mp hu
  simp only [utilities, Model.utilities, Logged.value_bind, Logged.value_pure,
    Logged.value_forAll, List.mem_toArray, List.mem_map] at hentry
  rcases hentry with ⟨entry, -, hutility⟩
  exact Alternative.isFinite_appraise hutility

end Chooser

omit [Numeric α] in
/-- Something is available when there is an available utility. -/
theorem UtilityVector.availableCount_eq_zero_iff {v : UtilityVector α} :
    v.availableCount = 0 ↔ v.availableUtilities = [] := by
  rw [availableCount, availableUtilities, List.countP_eq_zero, List.filterMap_eq_nil_iff]
  simp

/-! ## Outcomes -/

/-- The alternatives have probabilities, none of which is positive. -/
def Logit.Vanishes (tree : NestTree α) (v : UtilityVector α) : Prop :=
  ∃ probabilities total, Logit.probabilities tree v = .ok (probabilities, total) ∧
    ∀ p ∈ probabilities, lt 0 p = false

namespace Logit

variable {tree : NestTree α} {count : Nat} {v : UtilityVector α}

/-- Probabilities that could not be found do not vanish. -/
theorem not_vanishes_of_error {e : ChoiceError α} (h : probabilities tree v = .error e) :
    ¬Vanishes tree v := by
  rintro ⟨p, total, hok, -⟩
  rw [h] at hok
  cases hok

/-- Probabilities that were found vanish when none of them is positive. -/
theorem vanishes_iff_of_ok {p : Array α} {total : α} (h : probabilities tree v = .ok (p, total)) :
    Vanishes tree v ↔ ∀ q ∈ p, lt 0 q = false := by
  rw [Vanishes, h]
  simp

/-- Probabilities do not vanish without nesting. -/
theorem not_vanishes_of_isFlat [RoundingNumeric α] (functions : LawfulFunctions α)
    (formed : tree.IsFormed count) (hfinite : ∀ u ∈ v.availableUtilities, isFinite u = true)
    (hsize : v.size ≤ count) (hflat : tree.isFlat = true) : ¬Vanishes tree v := by
  by_cases hsome : v.availableUtilities = []
  · exact not_vanishes_of_error (probabilities_of_nothing formed hsome)
  · have hdrops : ¬Drops tree v 0 := not_drops_of_isFlat formed hflat 0
    rcases probabilities_spec functions formed hfinite hsize hsome hdrops with
      ⟨p, total, hp, -, hshares, hpositive⟩
    rw [vanishes_iff_of_ok hp]
    intro hvanishes
    rcases hpositive hflat with ⟨q, hq, hlt⟩
    have hpos : lt 0 q = true := by
      rw [lt_iff, value_zero]
      exact ⟨isNaN_zero, (hshares q hq).defined, hlt⟩
    simp [hvanishes q hq] at hpos

end Logit

namespace EvaluatedDecision

variable [RoundingNumeric α]

/-- A choice is drawn from shares of one unless none of them is positive. -/
theorem choose_eq_error_iff {decision : EvaluatedDecision α} {probabilities : Array α}
    (hshares : ∀ p ∈ probabilities, IsShare p)
    (hsize : probabilities.size = decision.chooser.model.size) {e : ChoiceError α} :
    (decision.choose probabilities).value = .error e ↔
      e = .zeroMass ∧ ∀ p ∈ probabilities, lt 0 p = false := by
  have hlist : ∀ p ∈ probabilities.toList, IsShare p := by simpa using hshares
  have hselect : (Selection.select decision.id probabilities.toList
      (decision.chooser.draws decision.id 0)).value = .error e ↔
        e = .zeroMass ∧ ∀ p ∈ probabilities, lt 0 p = false := by
    simpa using Selection.select_eq_error_iff hlist decision.id (decision.chooser.draws decision.id 0)
  rw [← hselect]
  have hchoose : (decision.choose probabilities).value =
      (Selection.select decision.id probabilities.toList
        (decision.chooser.draws decision.id 0)).value.bind
          (decision.alternativeAt probabilities.size) := rfl
  rw [hchoose]
  cases hselected : (Selection.select decision.id probabilities.toList
      (decision.chooser.draws decision.id 0)).value with
  | error cause => simp [Except.bind]
  | ok position =>
    -- a selected position is that of an alternative
    rcases Selection.select_positive hselected with ⟨p, hp, -⟩
    have hids : decision.chooser.model.ids.size = decision.chooser.model.size := Array.size_map
    have hbound : position < decision.chooser.model.ids.size := by
      rw [Array.getElem?_toList] at hp
      rw [hids, ← hsize]
      exact (Array.getElem?_eq_some_iff.mp hp).1
    simp [Except.bind, alternativeAt, Array.getElem?_eq_getElem hbound]

/-- A decision has no outcome when the root of the nesting is lost, and when a choice is drawn and no
alternative has a positive probability. -/
theorem outcome_eq_error_iff (functions : LawfulFunctions α) {decision : EvaluatedDecision α}
    (formed : decision.chooser.model.nests.IsFormed decision.chooser.model.size)
    (hfinite : ∀ u ∈ decision.utilities.availableUtilities, isFinite u = true)
    (hsize : decision.utilities.size = decision.chooser.model.size)
    (hsome : decision.utilities.availableUtilities ≠ []) (mode : OutputMode) {e : ChoiceError α} :
    (decision.outcome mode).value = .error e ↔
      (e = .nothingAvailable decision.id ∧
        Logit.Drops decision.chooser.model.nests decision.utilities 0) ∨
      (e = .zeroMass ∧ mode.hasChoice = true ∧
        Logit.Vanishes decision.chooser.model.nests decision.utilities) := by
  by_cases hdrops : Logit.Drops decision.chooser.model.nests decision.utilities 0
  · rcases Logit.probabilities_of_drops functions formed hfinite hdrops with ⟨hp, hlogsum⟩
    have hvanishes : ¬Logit.Vanishes decision.chooser.model.nests decision.utilities :=
      Logit.not_vanishes_of_error hp
    have houtcome : (decision.outcome mode).value = .error (.nothingAvailable decision.id) := by
      have hprobabilities : decision.probabilities = .error (.nothingAvailable decision.id) := hp
      have hlogsum' : decision.logsum = .error (.nothingAvailable decision.id) := hlogsum
      cases mode <;> simp [outcome, hprobabilities, hlogsum', Except.map]
    rw [houtcome, Except.error.injEq, eq_comm]
    simp [hdrops, hvanishes]
  · rcases Logit.probabilities_spec functions formed hfinite hsize.le hsome hdrops with
      ⟨p, total, hp, hlogsum, hshares, -⟩
    have hprobabilities : decision.probabilities = .ok (p, total) := hp
    have hlogsum' : decision.logsum = .ok total := hlogsum
    have hpsize : p.size = decision.chooser.model.size :=
      (Logit.size_probabilities hp).trans hsize
    have hchoose : (decision.choose p).value = .error e ↔ e = .zeroMass ∧ ∀ q ∈ p, lt 0 q = false :=
      choose_eq_error_iff hshares hpsize
    have hdrawn (result : AlternativeId → Outcome α) :
        (decision.choose p).value.map result = .error e ↔
          e = .zeroMass ∧ ∀ q ∈ p, lt 0 q = false := by
      rw [← hchoose]
      cases (decision.choose p).value <;> simp [Except.map]
    rw [Logit.vanishes_iff_of_ok hp]
    cases mode with
    | choice => simp [outcome, hprobabilities, OutputMode.hasChoice, hdrawn, hdrops]
    | all => simp [outcome, hprobabilities, OutputMode.hasChoice, hdrawn, hdrops]
    | probabilities => simp [outcome, hprobabilities, OutputMode.hasChoice, hdrops]
    | logsum => simp [outcome, hlogsum', OutputMode.hasChoice, hdrops, Except.map]

end EvaluatedDecision

open DiscreteChoice.Parser in
/-- The text of zero compiles to the constant. -/
theorem Formula.compile_zero {library : Double.MathLibrary} :
    Formula.compile "0" .empty = .ok ⟨"0", .constant (0 : Double.With library)⟩ := by
  have htokens : Token.ofText "0" =
      .ok [⟨.number (0 : Double.With library), 0⟩, ⟨.endOfText, 1⟩] := by
    with_unfolding_all rfl
  have hparse : Expr.ofText "0" = .ok (.constant (0 : Double.With library)) := by
    refine Formula.ofText_of_tokens 1 htokens fun depth => ?_
    simp [expression, conditional, levels, chain, power, unary, unaryAt?, primary, current,
      startsWith, chainFrom, operatorAt?]
  rw [Formula.compile, hparse]
  rfl

namespace Chooser

/-- A decision of a compiled model fails when nothing is available, when everything that is available
is lost below the root, and when a choice is drawn from probabilities of zero. What is available in a
nest is lost only where a composite utility overflows, and only nested probabilities vanish. -/
theorem run_eq_error_iff [RoundingNumeric α] (functions : LawfulFunctions α)
    {config : ModelConfig α} {model : Model α} (compiled : Model.compile config = .ok model)
    (draws : DrawSource α) (traced : List DecisionMakerId) (context : Context α) :
    let chooser : Chooser α := ⟨model, draws, traced⟩
    let v := chooser.utilities context
    (∀ mode e, (chooser.run context mode).value = .error e ↔
      (e = .nothingAvailable context.id ∧ (v.availableCount = 0 ∨ Logit.Drops model.nests v 0)) ∨
      (e = .zeroMass ∧ mode.hasChoice = true ∧ Logit.Vanishes model.nests v)) ∧
    (∀ index < model.nests.size, Logit.Drops model.nests v index ↔
      Logit.Holds model.nests v (.nest index) ∧
        Logit.childValue? v (Logit.composites model.nests v) (.nest index) = none) ∧
    ((∃ index, Logit.Drops model.nests v index) ↔ ∃ index, Logit.Overflows model.nests v index) ∧
    (Logit.Vanishes model.nests v → model.nests.isFlat = false) := by
  intro chooser v
  have formed := Model.isFormed_nests compiled
  have hfinite : ∀ u ∈ v.availableUtilities, isFinite u = true :=
    chooser.isFinite_utilities context
  have hsize : v.size = model.size := chooser.size_utilities context
  refine ⟨?_, ?_, Logit.exists_drops_iff, ?_⟩
  · intro mode e
    by_cases hcount : v.availableCount = 0
    · have hevaluate : (chooser.evaluate context).value = .error (.nothingAvailable context.id) :=
        (chooser.value_evaluate context).trans (if_pos hcount)
      have hnone : v.availableUtilities = [] :=
        UtilityVector.availableCount_eq_zero_iff.mp hcount
      have hvanishes : ¬Logit.Vanishes model.nests v :=
        Logit.not_vanishes_of_error (Logit.probabilities_of_nothing formed hnone)
      rw [run, Logged.value_bind, hevaluate]
      change Except.error _ = Except.error e ↔ _
      rw [Except.error.injEq]
      constructor
      · rintro rfl
        exact .inl ⟨rfl, .inl hcount⟩
      · rintro (⟨rfl, -⟩ | ⟨-, -, hzero⟩)
        · rfl
        · exact absurd hzero hvanishes
    · have hevaluate : ∃ trace, (chooser.evaluate context).value = .ok ⟨chooser, v, trace⟩ :=
        ⟨_, (chooser.value_evaluate context).trans (if_neg hcount)⟩
      rcases hevaluate with ⟨trace, hevaluate⟩
      have hsome : v.availableUtilities ≠ [] :=
        fun hnone => hcount (UtilityVector.availableCount_eq_zero_iff.mpr hnone)
      rw [run, Logged.value_bind, hevaluate, or_iff_right hcount]
      exact EvaluatedDecision.outcome_eq_error_iff functions formed hfinite hsize hsome mode
  · intro index hindex
    exact Logit.drops_iff functions formed hfinite hindex
  · intro hvanishes
    rw [← Bool.not_eq_true]
    intro hflat
    exact Logit.not_vanishes_of_isFlat functions formed hfinite hsize.le hflat hvanishes

/-! ## A nest of a tiny scale -/

/-- A model with two alternatives in a nest whose scale is smaller than every normal double. -/
def tinyScale : ModelConfig (Double.With .coarse) where
  name := "tiny scale"
  scopes := ∅
  constants := ∅
  alternatives := [⟨1, "first", some "0", [], none, none⟩, ⟨2, "second", some "0", [], none, none⟩]
  nests := some (.nest "root" 1
    [.nested (.nest "inner" (Float.ofBits 2024) [.alternative 1, .alternative 2])])

/-- The compiled model. -/
def tinyScaleModel : Model (Double.With .coarse) where
  name := "tiny scale"
  schema := .empty
  alternatives := #[
    ⟨1, "first", [⟨none, ⟨"0", .constant 0⟩, 1⟩], none, none⟩,
    ⟨2, "second", [⟨none, ⟨"0", .constant 0⟩, 1⟩], none, none⟩]
  positions := ((∅ : Std.TreeMap AlternativeId Nat).insert 1 0).insert 2 1
  nests := ⟨#[
    ⟨"root", 1, [.nest 1]⟩,
    ⟨"inner", Float.ofBits 2024, [.alternative 0, .alternative 1]⟩]⟩

/-- A decision of the model without anything known about the trip. -/
def tinyScaleContext : Context (Double.With .coarse) :=
  ⟨7, ⟨none, none, none⟩, .empty, #[1, 2], #[none, none], #[], #[], .empty⟩

/-- The model with draws of zero and nobody traced. -/
def tinyScaleChooser : Chooser (Double.With .coarse) :=
  ⟨tinyScaleModel, fun _ _ => 0, []⟩

theorem compile_tinyScale : Model.compile tinyScale = .ok tinyScaleModel := by
  have hschema : Schema.ofTables (∅ : Std.TreeMap String Scope)
      (∅ : Std.TreeMap String (Double.With .coarse)) = .ok .empty := rfl
  simp only [Model.compile, tinyScale, hschema, Alternative.compile, Alternative.compileUtility,
    Alternative.compileTerms, Alternative.compileAvailability, Formula.compile_zero,
    CompileError.within, List.mapM_cons, List.mapM_nil, ok_bind, pure_eq_ok, Option.isNone_some,
    Bool.false_and, Bool.false_eq_true, if_false, List.append_nil]
  with_unfolding_all rfl

theorem availableCount_tinyScale :
    (tinyScaleChooser.utilities tinyScaleContext).availableCount = 2 := by
  with_unfolding_all rfl

set_option maxRecDepth 4000 in
/-- The composite utility of the inner nest is the logarithm of two divided by its scale, which is
infinite, so that the root has none. -/
theorem value_run_tinyScale : (tinyScaleChooser.run tinyScaleContext .probabilities).value =
    .error (.nothingAvailable 7) := by
  with_unfolding_all rfl

/-- Both alternatives are available, and still the decision fails. -/
theorem run_tinyScale :
    Model.compile tinyScale = .ok tinyScaleModel ∧
      (tinyScaleChooser.utilities tinyScaleContext).availableCount = 2 ∧
      (tinyScaleChooser.run tinyScaleContext .probabilities).value =
        .error (.nothingAvailable 7) :=
  ⟨compile_tinyScale, availableCount_tinyScale, value_run_tinyScale⟩

/-- The decision fails because the root is lost, and it is lost because the composite utility of the
nest inside it overflows. -/
theorem tinyScale_drops :
    Logit.Drops tinyScaleModel.nests (tinyScaleChooser.utilities tinyScaleContext) 0 ∧
      ∃ index, Logit.Overflows tinyScaleModel.nests
        (tinyScaleChooser.utilities tinyScaleContext) index := by
  rcases run_eq_error_iff Double.lawful_coarse compile_tinyScale (fun _ _ => 0) []
    tinyScaleContext with ⟨hfails, -, hoverflows, -⟩
  have hdrops : Logit.Drops tinyScaleModel.nests
      (tinyScaleChooser.utilities tinyScaleContext) 0 := by
    rcases (hfails .probabilities _).mp value_run_tinyScale with ⟨-, hzero | hdrops⟩ | ⟨hzero, -⟩
    · have hcount := availableCount_tinyScale
      rw [tinyScaleChooser, hzero] at hcount
      cases hcount
    · exact hdrops
    · cases hzero
  exact ⟨hdrops, hoverflows.mp ⟨0, hdrops⟩⟩

end Chooser
end DiscreteChoice
