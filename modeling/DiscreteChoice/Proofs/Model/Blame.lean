import DiscreteChoice.Proofs.Formula.Binding
import DiscreteChoice.Proofs.Model.Acceptance

/-!
# What an error of a model blames

An alternative is written in pieces, each of which is compiled by itself: the texts of its
expressions, and the factors of its terms. A model with a piece that does not compile fails with the
error of that piece, under the name of the alternative and of the field; of several ones the first
one is blamed, alternative by alternative and in each of them field by field.

Main results:

- Theorem `CompileError.IsBare.rootCause_eq`: an error without an alternative is its own root cause.
- Theorem `Alternative.discard_compile`: an alternative is compiled as its pieces in a row are.
- Theorem `Alternative.exists_piece_of_compile`: which piece of an alternative is blamed.
- Theorem `Model.compile_blames_first`: which alternative of a model is blamed, and for what.
-/

namespace DiscreteChoice

variable {α : Type}

/-! ## Errors and where they are met -/

namespace CompileError

/-- The error does not say in which alternative it was met. -/
def IsBare (error : CompileError α) : Prop :=
  ∀ alternative field cause, error ≠ .inAlternative alternative field cause

/-- An error without an alternative is its own root cause. -/
theorem IsBare.rootCause_eq {error : CompileError α} (h : error.IsBare) :
    error.rootCause = error := by
  cases error with
  | inAlternative alternative field cause => exact absurd rfl (h alternative field cause)
  | _ => rfl

/-- An error that is met in an alternative has the error that was met as its cause. -/
theorem within_eq_error {β : Type} {alternative : String} {field : Field}
    {x : Except (CompileError α) β} {error : CompileError α} :
    within alternative field x = .error error ↔
      ∃ cause, x = .error cause ∧ error = .inAlternative alternative field cause := by
  cases x <;> simp [within, eq_comm]

/-- What is compiled does not matter to where an error was met. -/
theorem within_map {β γ : Type} (alternative : String) (field : Field)
    (x : Except (CompileError α) β) (f : β → γ) :
    within alternative field (x.map f) = (within alternative field x).map f := by
  cases x <;> rfl

end CompileError

/-! ## Pieces -/

/-- What is compiled by itself in an alternative. -/
inductive Piece (α : Type) where
  | expression (text : String)
  | factor (coefficient : Coefficient α)

/-- The pieces of a term, which has the given index: first its expression and then its factor. -/
def TermConfig.pieces (term : TermConfig α) (index : Nat) : List (Field × Piece α) :=
  [(term.field index, .expression term.expression), (term.field index, .factor term.coefficient)]

/-- The pieces of terms, the first of which has the given index. -/
def TermConfig.piecesOfAll (index : Nat) (terms : List (TermConfig α)) : List (Field × Piece α) :=
  (terms.zipIdx index).flatMap fun entry => entry.1.pieces entry.2

/-- The pieces of an alternative with their fields: its utility, its terms in order, and its
availability. -/
def AlternativeConfig.pieces (config : AlternativeConfig α) : List (Field × Piece α) :=
  config.utility.toList.map (fun text => (.utility, .expression text)) ++
    TermConfig.piecesOfAll 0 config.terms ++
    config.availability.toList.map (fun text => (.availability, .expression text))

variable [Numeric α] {schema : Schema α}

/-- Compiles a piece alone. -/
def Piece.check (schema : Schema α) : Piece α → Except (CompileError α) Unit
  | expression text => (Formula.compile text schema).map fun _ => ()
  | factor coefficient => (coefficient.resolve schema).map fun _ => ()

/-- Compiles a piece of an alternative. -/
def Piece.checkWithin (schema : Schema α) (alternative : String) (entry : Field × Piece α) :
    Except (CompileError α) Unit :=
  CompileError.within alternative entry.1 (entry.2.check schema)

/-- The error of a text says nothing about an alternative. -/
theorem Formula.isBare_of_compile {text : String} {error : CompileError α}
    (h : Formula.compile text schema = .error error) : error.IsBare := by
  rcases compile_eq_error.mp h with ⟨cause, -, rfl⟩ | ⟨e, -, hbind⟩
  · exact nofun
  · rcases Expr.exists_isBlamed_of_bind hbind with ⟨front, m, back, -, -, hblamed⟩
    cases hblamed <;> exact nofun

/-- The error of a factor says nothing about an alternative. -/
theorem Coefficient.isBare_of_resolve {coefficient : Coefficient α} {error : CompileError α}
    (h : coefficient.resolve schema = .error error) : error.IsBare := by
  unfold resolve at h
  split at h
  · split_ifs at h
    rcases Except.error.inj h with rfl
    exact nofun
  · split at h
    · cases h
    · rcases Except.error.inj h with rfl
      exact nofun
    · rcases Except.error.inj h with rfl
      exact nofun

/-- The error of a piece alone says nothing about an alternative. -/
theorem Piece.isBare_of_check {piece : Piece α} {error : CompileError α}
    (h : piece.check schema = .error error) : error.IsBare := by
  cases piece with
  | expression text =>
    cases hcompile : Formula.compile text schema with
    | ok formula => simp [check, hcompile, Except.map] at h
    | error cause =>
      rw [check, hcompile] at h
      rw [← Except.error.inj h]
      exact Formula.isBare_of_compile hcompile
  | factor coefficient =>
    cases hresolve : coefficient.resolve schema with
    | ok value => simp [check, hresolve, Except.map] at h
    | error cause =>
      rw [check, hresolve] at h
      rw [← Except.error.inj h]
      exact coefficient.isBare_of_resolve hresolve

/-! ## Alternatives -/

namespace Alternative

variable {config : AlternativeConfig α}

/-- A term is compiled as its pieces in a row are. -/
theorem discard_compileTerm (name : String) (term : TermConfig α) (index : Nat) :
    (CompileError.within name (term.field index) (term.compile schema)).map (fun _ => ()) =
      forM (term.pieces index) (Piece.checkWithin schema name) := by
  rw [TermConfig.pieces, List.forM_cons, List.forM_cons, List.forM_nil, Piece.checkWithin,
    Piece.checkWithin, Piece.check, Piece.check, TermConfig.compile]
  cases Formula.compile term.expression schema <;> cases term.coefficient.resolve schema <;> rfl

/-- Terms are compiled as their pieces in a row are. -/
theorem discard_compileTerms (name : String) (terms : List (TermConfig α)) (index : Nat) :
    (compileTerms name schema index terms).map (fun _ => ()) =
      forM (TermConfig.piecesOfAll index terms) (Piece.checkWithin schema name) := by
  induction terms generalizing index with
  | nil => rfl
  | cons term terms ih =>
    have hpieces : TermConfig.piecesOfAll index (term :: terms) =
        term.pieces index ++ TermConfig.piecesOfAll (index + 1) terms := rfl
    rw [hpieces, List.forM_append, ← discard_compileTerm, ← ih, compileTerms]
    cases CompileError.within name (term.field index) (term.compile schema) <;>
      cases compileTerms name schema (index + 1) terms <;> rfl

/-- A text that may be missing is compiled as a piece, if it is there. -/
theorem discard_compileText {β : Type} (name : String) (field : Field) (text : String)
    (f : Formula α → β) :
    (CompileError.within name field (Formula.compile text schema) >>= fun formula =>
        pure (f formula)).map (fun _ => ()) =
      Piece.checkWithin schema name (field, .expression text) := by
  rw [Piece.checkWithin, Piece.check, CompileError.within_map]
  cases CompileError.within name field (Formula.compile text schema) <;> rfl

/-- The utility expression is compiled as a piece, if there is one. -/
theorem discard_compileUtility :
    (compileUtility config schema).map (fun _ => ()) =
      forM (config.utility.toList.map fun text => (Field.utility, .expression text))
        (Piece.checkWithin schema config.name) := by
  rw [compileUtility]
  cases config.utility with
  | none => rfl
  | some text =>
    exact (discard_compileText config.name .utility text _).trans (bind_pure _).symm

/-- The availability is compiled as a piece, if there is one. -/
theorem discard_compileAvailability :
    (compileAvailability config schema).map (fun _ => ()) =
      forM (config.availability.toList.map fun text => (Field.availability, .expression text))
        (Piece.checkWithin schema config.name) := by
  rw [compileAvailability]
  cases config.availability with
  | none => rfl
  | some text =>
    exact (discard_compileText config.name .availability text _).trans (bind_pure _).symm

/-- An alternative with a utility is compiled as its pieces in a row are, up to the first one that
fails. -/
theorem discard_compile (h : config.utility ≠ none ∨ config.terms ≠ []) :
    (compile config schema).map (fun _ => ()) =
      forM config.pieces (Piece.checkWithin schema config.name) := by
  have hparts : ¬(config.utility.isNone && config.terms.isEmpty) := by
    simpa [Classical.or_iff_not_imp_left] using h
  rw [AlternativeConfig.pieces, List.forM_append, List.forM_append, ← discard_compileUtility,
    ← discard_compileTerms, ← discard_compileAvailability, compile, if_neg hparts]
  cases compileUtility config schema <;> cases compileTerms config.name schema 0 config.terms <;>
    cases compileAvailability config schema <;> rfl

/-- An alternative with a utility is refused for its first piece that fails, under the name of the
alternative and of the field. -/
theorem exists_piece_of_compile (hutility : config.utility ≠ none ∨ config.terms ≠ [])
    {error : CompileError α} (h : compile config schema = .error error) :
    ∃ before field piece after cause, config.pieces = before ++ (field, piece) :: after ∧
      (∀ earlier ∈ before, earlier.2.check schema = .ok ()) ∧ piece.check schema = .error cause ∧
      error = .inAlternative config.name field cause := by
  have hpieces : (compile config schema).map (fun _ => ()) = _ := discard_compile hutility
  rw [h] at hpieces
  rcases exists_of_forM_eq_error hpieces.symm with
    ⟨before, ⟨field, piece⟩, after, hsplit, hbefore, hfails⟩
  rcases CompileError.within_eq_error.mp hfails with ⟨cause, hcause, rfl⟩
  exact ⟨before, field, piece, after, cause, hsplit,
    fun earlier hearlier => CompileError.within_eq_ok.mp (hbefore earlier hearlier), hcause, rfl⟩

end Alternative

/-! ## Models -/

namespace Model

/-- A model whose variables are declared fails as the first of its alternatives does that fails. -/
theorem compile_eq_error_of_alternatives {config : ModelConfig α}
    (hschema : Schema.ofTables config.scopes config.constants = .ok schema)
    {error : CompileError α}
    (h : (config.alternatives.mapM fun a => Alternative.compile a schema) = .error error) :
    compile config = .error error := by
  rw [compile, hschema, ok_bind, h, error_bind]

/-- A model whose variables are declared and that has an alternative that does not compile fails
with the error of the first such alternative. An alternative without a utility expression and without
terms is to blame as a whole. Any other one is blamed by its name for the first of its fields that
fails: its utility, its terms in order, each of them for its expression before its factor, and its
availability. What is wrong there is said under that name once, and is what is wrong with the text
or the factor alone. -/
theorem compile_blames_first {config : ModelConfig α}
    (hschema : Schema.ofTables config.scopes config.constants = .ok schema)
    (hfails : ∃ a ∈ config.alternatives, ∀ alternative,
      Alternative.compile a schema ≠ .ok alternative) :
    ∃ front a back error, config.alternatives = front ++ a :: back ∧
      (∀ earlier ∈ front, ∃ alternative, Alternative.compile earlier schema = .ok alternative) ∧
      Alternative.compile a schema = .error error ∧ compile config = .error error ∧
      (a.utility = none ∧ a.terms = [] ∧ error = .invalidModel (.noUtility a.name) ∨
        (a.utility ≠ none ∨ a.terms ≠ []) ∧
          ∃ before field piece after cause, a.pieces = before ++ (field, piece) :: after ∧
            (∀ earlier ∈ before, earlier.2.check schema = .ok ()) ∧
            piece.check schema = .error cause ∧ error = .inAlternative a.name field cause ∧
            cause.IsBare ∧ error.rootCause = cause) := by
  cases hmap : config.alternatives.mapM fun a => Alternative.compile a schema with
  | ok alternatives =>
    rcases hfails with ⟨a, ha, hnone⟩
    rcases exists_forall₂_iff.mp ⟨alternatives, mapM_eq_ok.mp hmap⟩ a ha with ⟨alternative, hok⟩
    exact absurd hok (hnone alternative)
  | error error =>
    rcases mapM_eq_error.mp hmap with ⟨front, a, back, hsplit, hfront, ha⟩
    refine ⟨front, a, back, error, hsplit, hfront, ha,
      compile_eq_error_of_alternatives hschema hmap, ?_⟩
    by_cases hnone : a.utility = none ∧ a.terms = []
    · rw [Alternative.compile_noUtility schema hnone.1 hnone.2] at ha
      exact .inl ⟨hnone.1, hnone.2, (Except.error.inj ha).symm⟩
    · rw [not_and_or] at hnone
      rcases Alternative.exists_piece_of_compile hnone ha with
        ⟨before, field, piece, after, cause, hpieces, hbefore, hcause, rfl⟩
      have hbare := Piece.isBare_of_check hcause
      exact .inr ⟨hnone, before, field, piece, after, cause, hpieces, hbefore, hcause, rfl, hbare,
        hbare.rootCause_eq⟩

/-- An alternative with two mistakes: the factor of its term is no constant, and its availability is
not declared. -/
def arduousWalk : AlternativeConfig Float :=
  ⟨4, "walk", some "@time", [⟨some "effort", "@time", .named "steepness"⟩], some "@daylight", none⟩

/-- A model in which the second alternative is mistaken and the third one has no utility. -/
def arduous : ModelConfig Float :=
  { driveOrWalk with
    alternatives := [⟨7, "drive", some "@time", [], none, none⟩, arduousWalk,
      ⟨5, "swim", none, [], none, none⟩] }

/-- The first alternative compiles, and the second one is blamed for the factor of its term. -/
theorem compile_blames_first_walk :
    Schema.ofTables arduous.scopes arduous.constants = .ok arduous.schema ∧
      arduousWalk ∈ arduous.alternatives ∧
      compile arduous = .error
        (.inAlternative "walk" (.namedTerm "effort") (.unknownVariable "steepness" 0)) := by
  have hschema : Schema.ofTables arduous.scopes arduous.constants = .ok arduous.schema :=
    Schema.ofTables_eq_ok.mpr ⟨declarable_driveOrWalk, rfl⟩
  have hmem : arduousWalk ∈ arduous.alternatives := by simp [arduous]
  have hdrive : (Alternative.compile ⟨7, "drive", some "@time", [], none, none⟩
      arduous.schema).toOption.isSome = true := by cbv
  have hwalk : Alternative.compile arduousWalk arduous.schema = .error
      (.inAlternative "walk" (.namedTerm "effort") (.unknownVariable "steepness" 0)) := by cbv
  rcases compile_blames_first hschema ⟨arduousWalk, hmem, by simp [hwalk]⟩ with
    ⟨front, a, back, error, hsplit, hfront, ha, hcompile, -⟩
  refine ⟨hschema, hmem, ?_⟩
  rw [arduous] at hsplit
  cases front with
  | nil =>
    rw [List.nil_append, List.cons.injEq] at hsplit
    rw [hsplit.1, ha] at hdrive
    exact absurd hdrive Bool.false_ne_true
  | cons first front =>
    rw [List.cons_append, List.cons.injEq] at hsplit
    cases front with
    | nil =>
      rw [List.nil_append, List.cons.injEq] at hsplit
      rw [← hsplit.2.1, hwalk] at ha
      rw [hcompile, ← Except.error.inj ha]
    | cons second rest =>
      rw [List.cons_append, List.cons.injEq] at hsplit
      rcases hfront second (by simp) with ⟨alternative, hsecond⟩
      rw [← hsplit.2.1, hwalk] at hsecond
      cases hsecond

end Model
end DiscreteChoice
