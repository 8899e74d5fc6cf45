import DiscreteChoice.Model.Alternative
import DiscreteChoice.Proofs.Numeric.Laws
import DiscreteChoice.Proofs.Outcome

/-!
# Compiling alternatives

What a compiled alternative has to do with the written one, and when there is a compiled one. The
utility expression of an alternative is a part of its utility like the others, with the factor one.

Main results:

- Theorem `Coefficient.resolve_eq_ok`: which numbers factors stand for.
- Theorem `Alternative.compile_eq_ok`: what a written alternative compiles to.
- Theorem `Alternative.exists_compile_iff`: when an alternative is accepted.
-/

namespace DiscreteChoice

open Numeric

variable {α : Type} [Numeric α] {schema : Schema α}

omit [Numeric α] in
/-- Saying where an error was met changes no success. -/
theorem CompileError.within_eq_ok {β : Type} {alternative : String} {field : Field}
    {x : Except (CompileError α) β} {value : β} :
    within alternative field x = .ok value ↔ x = .ok value := by
  cases x <;> simp [within]

/-! ## Terms -/

/-- The number that a factor stands for: a finite number for itself, and the name of a constant for
its value. -/
inductive Coefficient.Denotes (schema : Schema α) : Coefficient α → α → Prop
  | number {value : α} (finite : isFinite value = true) : Denotes schema (.number value) value
  | named {name : String} {value : α} (constant : schema.get? name = some (.constant value)) :
      Denotes schema (.named name) value

/-- A factor is resolved to the number that it stands for. -/
theorem Coefficient.resolve_eq_ok {coefficient : Coefficient α} {value : α} :
    coefficient.resolve schema = .ok value ↔ coefficient.Denotes schema value := by
  constructor
  · intro h
    cases coefficient with
    | number found =>
      rw [resolve] at h
      split_ifs at h with hfinite
      rcases Except.ok.inj h with rfl
      exact .number hfinite
    | named name =>
      rw [resolve] at h
      split at h
      · rename_i found hconstant
        rcases Except.ok.inj h with rfl
        exact .named hconstant
      · cases h
      · cases h
  · rintro (hfinite | hconstant)
    · exact if_pos hfinite
    · rw [resolve, hconstant]

/-- A compiled term is that of a written one. -/
structure TermConfig.CompilesTo (config : TermConfig α) (schema : Schema α)
    (term : UtilityTerm α) : Prop where
  description : term.description = config.description
  formula : Formula.compile config.expression schema = .ok term.formula
  coefficient : config.coefficient.Denotes schema term.coefficient

/-- A written term is compiled to its compiled one. -/
theorem TermConfig.compile_eq_ok {config : TermConfig α} {term : UtilityTerm α} :
    config.compile schema = .ok term ↔ config.CompilesTo schema term := by
  simp only [compile, bind_eq_ok, pure_eq_ok, Coefficient.resolve_eq_ok]
  constructor
  · rintro ⟨formula, hformula, coefficient, hcoefficient, h⟩
    rcases Except.ok.inj h with rfl
    exact ⟨rfl, hformula, hcoefficient⟩
  · rintro ⟨hdescription, hformula, hcoefficient⟩
    exact ⟨term.formula, hformula, term.coefficient, hcoefficient, by rw [← hdescription]⟩

/-- A written term can be compiled when its expression can and its factor stands for a number. -/
theorem TermConfig.exists_compilesTo_iff {config : TermConfig α} :
    (∃ term, config.CompilesTo schema term) ↔
      (∃ formula, Formula.compile config.expression schema = .ok formula) ∧
        ∃ value, config.coefficient.Denotes schema value := by
  constructor
  · rintro ⟨term, -, hformula, hcoefficient⟩
    exact ⟨⟨_, hformula⟩, _, hcoefficient⟩
  · rintro ⟨⟨formula, hformula⟩, value, hvalue⟩
    exact ⟨⟨config.description, formula, value⟩, rfl, hformula, hvalue⟩

namespace Alternative

/-- The terms of an alternative are compiled one by one. -/
theorem compileTerms_eq_ok {name : String} {index : Nat} {configs : List (TermConfig α)}
    {terms : List (UtilityTerm α)} :
    compileTerms name schema index configs = .ok terms ↔
      List.Forall₂ (fun config term => config.CompilesTo schema term) configs terms := by
  induction configs generalizing index terms with
  | nil => simp [compileTerms, eq_comm]
  | cons config configs ih =>
    simp only [compileTerms, bind_eq_ok, pure_eq_ok, CompileError.within_eq_ok,
      TermConfig.compile_eq_ok, ih, List.forall₂_cons_left_iff, Except.ok.injEq]
    constructor
    · rintro ⟨term, hterm, terms, hterms, rfl⟩
      exact ⟨term, terms, hterm, hterms, rfl⟩
    · rintro ⟨term, terms, hterm, hterms, rfl⟩
      exact ⟨term, hterm, terms, hterms, rfl⟩

end Alternative

/-! ## Alternatives -/

/-- The utility expression of an alternative as a term, with the factor one. -/
def TermConfig.ofUtility (text : String) : TermConfig α :=
  ⟨none, text, .number 1⟩

/-- The parts of the utility of an alternative as they are written, the utility expression first. -/
def AlternativeConfig.parts (config : AlternativeConfig α) : List (TermConfig α) :=
  config.utility.toList.map .ofUtility ++ config.terms

/-- A compiled alternative is that of a written one, with its terms in order. -/
structure AlternativeConfig.CompilesTo (config : AlternativeConfig α) (schema : Schema α)
    (alternative : Alternative α) : Prop where
  id : alternative.id = config.id
  name : alternative.name = config.name
  zone : alternative.zone = config.zone
  terms : List.Forall₂ (fun part term => part.CompilesTo schema term) config.parts alternative.terms
  availability : Option.Rel (fun text formula => Formula.compile text schema = .ok formula)
    config.availability alternative.availability

namespace Alternative

/-- An alternative without a utility expression and without terms has no parts. -/
theorem parts_eq_nil_iff {config : AlternativeConfig α} :
    config.parts = [] ↔ config.utility = none ∧ config.terms = [] := by
  simp [AlternativeConfig.parts]

/-- The compiled utility expression is that of a term with the factor one. -/
theorem ofUtility_compilesTo_iff [LawfulNumeric α] {text : String} {term : UtilityTerm α} :
    (TermConfig.ofUtility text).CompilesTo schema term ↔
      ∃ formula, Formula.compile text schema = .ok formula ∧ term = ⟨none, formula, 1⟩ := by
  constructor
  · rintro ⟨hdescription, hformula, hcoefficient⟩
    obtain ⟨description, formula, coefficient⟩ := term
    cases hcoefficient
    cases hdescription
    exact ⟨formula, hformula, rfl⟩
  · rintro ⟨formula, hformula, rfl⟩
    exact ⟨rfl, hformula, .number LawfulNumeric.isFinite_one⟩

/-- The utility expression is compiled like a term with the factor one. -/
theorem compileUtility_eq_ok [LawfulNumeric α] {config : AlternativeConfig α}
    {terms : List (UtilityTerm α)} :
    compileUtility config schema = .ok terms ↔
      List.Forall₂ (fun (part : TermConfig α) term => part.CompilesTo schema term)
        (config.utility.toList.map .ofUtility) terms := by
  rw [compileUtility]
  cases config.utility with
  | none => simp [eq_comm]
  | some text =>
    simp only [bind_eq_ok, CompileError.within_eq_ok, pure_eq_ok, Except.ok.injEq,
      Option.toList_some, List.map_cons, List.map_nil, List.forall₂_cons_left_iff,
      List.forall₂_nil_left_iff, ofUtility_compilesTo_iff]
    constructor
    · rintro ⟨formula, hformula, rfl⟩
      exact ⟨_, [], ⟨formula, hformula, rfl⟩, rfl, rfl⟩
    · rintro ⟨_, _, ⟨formula, hformula, rfl⟩, rfl, rfl⟩
      exact ⟨formula, hformula, rfl⟩

/-- The availability is compiled when there is one. -/
theorem compileAvailability_eq_ok {config : AlternativeConfig α}
    {availability : Option (Formula α)} :
    compileAvailability config schema = .ok availability ↔
      Option.Rel (fun text formula => Formula.compile text schema = .ok formula)
        config.availability availability := by
  rw [compileAvailability]
  cases config.availability with
  | none => cases availability <;> simp
  | some text =>
    simp only [bind_eq_ok, CompileError.within_eq_ok, pure_eq_ok, Except.ok.injEq]
    cases availability <;> simp

/-- An alternative is compiled when its utility has a part, and its parts and its availability
are. -/
theorem compile_eq_ok [LawfulNumeric α] {config : AlternativeConfig α}
    {alternative : Alternative α} :
    compile config schema = .ok alternative ↔
      config.parts ≠ [] ∧ config.CompilesTo schema alternative := by
  rw [compile]
  split_ifs with hnone
  · have hparts : config.parts = [] := by simpa [parts_eq_nil_iff] using hnone
    simp [hparts]
  · have hparts : config.parts ≠ [] := by simpa [parts_eq_nil_iff] using hnone
    simp only [bind_eq_ok, compileUtility_eq_ok, compileTerms_eq_ok, compileAvailability_eq_ok,
      pure_eq_ok, Except.ok.injEq]
    constructor
    · rintro ⟨utility, hutility, terms, hterms, availability, havailability, rfl⟩
      exact ⟨hparts, rfl, rfl, rfl, List.rel_append hutility hterms, havailability⟩
    · rintro ⟨-, hid, hname, hzone, hterms, havailability⟩
      rcases forall₂_append_left hterms with ⟨utility, terms, hutility, hterms, happend⟩
      refine ⟨utility, hutility, terms, hterms, alternative.availability, havailability, ?_⟩
      rw [happend, ← hid, ← hname, ← hzone]

/-- An alternative is accepted when its utility has a part, all its texts compile and all its
factors stand for numbers. -/
theorem exists_compile_iff [LawfulNumeric α] {config : AlternativeConfig α} :
    (∃ alternative, compile config schema = .ok alternative) ↔
      config.parts ≠ [] ∧
      (∀ part ∈ config.parts,
        (∃ formula, Formula.compile part.expression schema = .ok formula) ∧
          ∃ value, part.coefficient.Denotes schema value) ∧
      ∀ text, config.availability = some text →
        ∃ formula, Formula.compile text schema = .ok formula := by
  have hparts : (∃ terms, List.Forall₂
      (fun (part : TermConfig α) (term : UtilityTerm α) => part.CompilesTo schema term)
        config.parts terms) ↔ _ := exists_forall₂_iff
  simp only [TermConfig.exists_compilesTo_iff] at hparts
  rw [← hparts]
  simp only [compile_eq_ok]
  constructor
  · rintro ⟨alternative, hnil, hcompiles⟩
    refine ⟨hnil, ⟨_, hcompiles.terms⟩, fun text htext => ?_⟩
    have havailability := hcompiles.availability
    rw [htext] at havailability
    generalize alternative.availability = availability at havailability
    cases havailability with
    | some h => exact ⟨_, h⟩
  · rintro ⟨hnil, ⟨terms, hterms⟩, havailability⟩
    have hrel : ∃ availability, Option.Rel
        (fun text formula => Formula.compile text schema = .ok formula)
          config.availability availability := by
      cases htext : config.availability with
      | none => exact ⟨none, .none⟩
      | some text =>
        rcases havailability text htext with ⟨formula, hformula⟩
        exact ⟨some formula, .some hformula⟩
    rcases hrel with ⟨availability, hrel⟩
    exact ⟨⟨config.id, config.name, terms, availability, config.zone⟩, hnil, rfl, rfl, rfl, hterms,
      hrel⟩

end Alternative
end DiscreteChoice
