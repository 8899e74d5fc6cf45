import DiscreteChoice.Proofs.Formula.Variables
import DiscreteChoice.Proofs.Model.Alternatives
import DiscreteChoice.Proofs.Nest.Acceptance
import DiscreteChoice.Proofs.Numeric.DoubleOrder
import DiscreteChoice.Proofs.Schema.Declarations

/-!
# Accepted models

A model is compiled in stages: its variables, its alternatives, their ids and their nesting. It is
accepted exactly when it is well formed, and the compiled model then has everything in the order in
which it is written.

Main results:

- Theorem `Model.exists_numberAlternatives_iff`: when the alternatives of a list can be numbered.
- Theorem `Model.getElem?_numberAlternatives`: the number of an alternative is its place in the
  list.
- Theorem `NestConfig.isValid_iff`: a nesting is valid for the positions of ids when it is valid for
  the ids.
- Theorem `Model.compile_iff_isWellFormed`: a model is accepted exactly when it is well formed.
-/

namespace DiscreteChoice

open Numeric

variable {α : Type}

/-! ## Numbered alternatives -/

namespace Model

/-- The alternatives of a list can be numbered when their ids differ and have no number yet. -/
theorem exists_numberAlternatives_iff {name : String} {start : Nat}
    {alternatives : List (Alternative α)} {positions : Std.TreeMap AlternativeId Nat} :
    (∃ positions', numberAlternatives name start alternatives positions = .ok positions') ↔
      (alternatives.map (·.id)).Nodup ∧ ∀ a ∈ alternatives, a.id ∉ positions := by
  induction alternatives generalizing start positions with
  | nil => simp [numberAlternatives]
  | cons first rest ih =>
    rw [numberAlternatives]
    split_ifs with hold
    · have hmem : first.id ∈ positions := hold
      simp [hmem]
    · have hmem : first.id ∉ positions := hold
      have hinsert (a : Alternative α) : a.id ∉ positions.insert first.id start ↔
          a.id ≠ first.id ∧ a.id ∉ positions := by
        rw [Std.TreeMap.mem_insert, Std.LawfulEqCmp.compare_eq_iff_eq, not_or, eq_comm]
      simp only [ih, hinsert, List.map_cons, List.nodup_cons, List.mem_map, not_exists, not_and,
        List.forall_mem_cons, hmem, not_false_eq_true, true_and]
      constructor
      · rintro ⟨hnodup, hrest⟩
        exact ⟨⟨fun a ha => (hrest a ha).1, hnodup⟩, fun a ha => (hrest a ha).2⟩
      · rintro ⟨⟨hdistinct, hnodup⟩, hrest⟩
        exact ⟨hnodup, fun a ha => ⟨hdistinct a ha, hrest a ha⟩⟩

/-- The number of an alternative is its place in the list. -/
theorem getElem?_numberAlternatives {name : String} {start : Nat}
    {alternatives : List (Alternative α)} {positions positions' : Std.TreeMap AlternativeId Nat}
    (h : numberAlternatives name start alternatives positions = .ok positions')
    {id : AlternativeId} {position : Nat} :
    positions'[id]? = some position ↔
      positions[id]? = some position ∨
        ∃ i, (alternatives.map (·.id))[i]? = some id ∧ position = start + i := by
  induction alternatives generalizing start positions with
  | nil =>
    rcases Except.ok.inj h with rfl
    simp
  | cons first rest ih =>
    rw [numberAlternatives] at h
    split_ifs at h with hold
    have hnew : positions[first.id]? = none := by simpa using hold
    have hfirst : (positions.insert first.id start)[id]? = some position ↔
        positions[id]? = some position ∨ first.id = id ∧ position = start := by
      simp only [Std.TreeMap.getElem?_insert, Std.LawfulEqCmp.compare_eq_iff_eq]
      split_ifs with hid
      · subst hid
        simp [hnew, eq_comm]
      · simp [hid]
    rw [ih h, hfirst, or_assoc, List.map_cons]
    refine or_congr_right ⟨?_, ?_⟩
    · rintro (⟨rfl, rfl⟩ | ⟨i, hi, rfl⟩)
      · exact ⟨0, rfl, rfl⟩
      · exact ⟨i + 1, hi, by omega⟩
    · rintro ⟨_ | i, hi, rfl⟩
      · exact .inl ⟨Option.some.inj hi, rfl⟩
      · exact .inr ⟨i, hi, by omega⟩

/-- Distinct ids are numbered by their places. -/
theorem getElem?_positions {name : String} {alternatives : List (Alternative α)}
    {positions : Std.TreeMap AlternativeId Nat}
    (h : numberAlternatives name 0 alternatives ∅ = .ok positions) (id : AlternativeId)
    (position : Nat) :
    positions[id]? = some position ↔ (alternatives.map (·.id))[position]? = some id := by
  rw [getElem?_numberAlternatives h]
  simp

end Model

/-! ## Valid nestings -/

variable [Numeric α]

open LawfulNumeric in
/-- A nesting is valid for a list of ids when every scale is in (0, 1], no name is used twice, every
nest has a member, and the ids that are named are those of the list, each once. -/
structure NestConfig.IsValidFor [LawfulNumeric α] (config : NestConfig α)
    (ids : List AlternativeId) : Prop where
  scales : ∀ nest ∈ config.nests,
    isNaN nest.scale = false ∧ 0 < value nest.scale ∧ value nest.scale ≤ 1
  names : (config.nests.map NestConfig.name).Nodup
  members : ∀ nest ∈ config.nests, nest.members ≠ []
  ids : config.ids.Perm ids

/-- A nesting is valid for the places of distinct ids when it is valid for the ids. -/
theorem NestConfig.isValid_iff [LawfulNumeric α] {config : NestConfig α} {ids : List AlternativeId}
    {positions : Std.TreeMap AlternativeId Nat} (hnodup : ids.Nodup)
    (hplaces : ∀ (id : AlternativeId) (position : Nat),
      positions[id]? = some position ↔ ids[position]? = some id) :
    config.IsValid positions ↔ config.IsValidFor ids := by
  have hknown (id : AlternativeId) : (∃ position, positions[id]? = some position) ↔ id ∈ ids := by
    simp only [hplaces, List.mem_iff_getElem?]
  constructor
  · rintro ⟨hscales, hnames, hmembers, hnamed, honce⟩
    refine ⟨hscales, hnames, hmembers, List.perm_iff_count.mpr fun id => ?_⟩
    by_cases hid : id ∈ ids
    · rcases (hknown id).mpr hid with ⟨position, hposition⟩
      rw [honce id position hposition, List.count_eq_one_of_mem hnodup hid]
    · have hunnamed : id ∉ config.ids := fun hmem => hid ((hknown id).mp (hnamed id hmem))
      rw [List.count_eq_zero_of_not_mem hid, List.count_eq_zero_of_not_mem hunnamed]
  · rintro ⟨hscales, hnames, hmembers, hperm⟩
    refine ⟨hscales, hnames, hmembers, fun id hid => (hknown id).mpr (hperm.mem_iff.mp hid), ?_⟩
    intro id position hposition
    rw [hperm.count_eq, List.count_eq_one_of_mem hnodup ((hknown id).mp ⟨position, hposition⟩)]

/-! ## Well-formed models -/

/-- A text compiles against a schema. -/
def Schema.Compiles (schema : Schema α) (text : String) : Prop :=
  ∃ formula, Formula.compile text schema = .ok formula

/-- A factor is a finite number or the name of a constant. -/
def Coefficient.IsKnown (constants : Std.TreeMap String α) : Coefficient α → Prop
  | .number value => isFinite value = true
  | .named name => name ∈ constants

/-- An alternative has a utility expression or a term, all its texts compile, and every factor is a
finite number or the name of a constant. -/
structure AlternativeConfig.IsWellFormed (a : AlternativeConfig α) (schema : Schema α)
    (constants : Std.TreeMap String α) : Prop where
  parts : a.utility ≠ none ∨ a.terms ≠ []
  utility (text : String) : a.utility = some text → schema.Compiles text
  terms : ∀ term ∈ a.terms, schema.Compiles term.expression
  availability (text : String) : a.availability = some text → schema.Compiles text
  coefficients : ∀ term ∈ a.terms, term.coefficient.IsKnown constants

namespace ModelConfig

/-- The ids of the alternatives of a model, in order. -/
def ids (config : ModelConfig α) : List AlternativeId :=
  config.alternatives.map (·.id)

/-- The schema of a model, in which the variables come before the constants, both in the order of
their names. -/
def schema (config : ModelConfig α) : Schema α :=
  .ofLists config.scopes.toList config.constants.toList

/-- What a model has to be like as it is written. -/
structure IsWellFormed [LawfulNumeric α] (config : ModelConfig α) : Prop where
  /-- No variable has the scope of constants, every name can be spelled in an expression, no name is
  both a variable and a constant, and every constant is finite. -/
  declarable : Schema.Declarable config.scopes config.constants
  nonempty : config.alternatives ≠ []
  alternatives : ∀ a ∈ config.alternatives, a.IsWellFormed config.schema config.constants
  distinct : config.ids.Nodup
  nests (nests : NestConfig α) : config.nests = some nests → nests.IsValidFor config.ids

variable {config : ModelConfig α}

/-- A factor stands for a number when it is a finite one or the name of a constant. -/
theorem exists_denotes_iff (h : Schema.Declarable config.scopes config.constants)
    {coefficient : Coefficient α} :
    (∃ value, coefficient.Denotes config.schema value) ↔ coefficient.IsKnown config.constants := by
  cases coefficient with
  | number found =>
    constructor
    · rintro ⟨value, hdenotes⟩
      cases hdenotes with
      | number hfinite => exact hfinite
    · exact fun hfinite => ⟨found, .number hfinite⟩
  | named name =>
    rw [Coefficient.IsKnown, Std.TreeMap.mem_iff_isSome_getElem?, Option.isSome_iff_exists]
    constructor
    · rintro ⟨value, hdenotes⟩
      cases hdenotes with
      | named hconstant => exact ⟨value, (Schema.get?_ofLists_constant h).mp hconstant⟩
    · rintro ⟨value, hvalue⟩
      exact ⟨value, .named ((Schema.get?_ofLists_constant h).mpr hvalue)⟩

/-- An alternative is accepted when it is well formed. -/
theorem exists_alternative_iff [LawfulNumeric α]
    (h : Schema.Declarable config.scopes config.constants)
    {a : AlternativeConfig α} :
    (∃ alternative, Alternative.compile a config.schema = .ok alternative) ↔
      a.IsWellFormed config.schema config.constants := by
  have hone : (Coefficient.number (1 : α)).IsKnown config.constants := LawfulNumeric.isFinite_one
  rw [Alternative.exists_compile_iff, ne_eq, Alternative.parts_eq_nil_iff, not_and_or]
  simp only [exists_denotes_iff h, AlternativeConfig.parts, List.forall_mem_append,
    List.forall_mem_map, Option.mem_toList]
  constructor
  · rintro ⟨hparts, ⟨hutility, hterms⟩, havailability⟩
    exact ⟨hparts, fun text htext => (hutility text htext).1,
      fun term hterm => (hterms term hterm).1, havailability,
      fun term hterm => (hterms term hterm).2⟩
  · rintro ⟨hparts, hutility, hterms, havailability, hcoefficients⟩
    exact ⟨hparts, ⟨fun text htext => ⟨hutility text htext, hone⟩,
      fun term hterm => ⟨hterms term hterm, hcoefficients term hterm⟩⟩, havailability⟩

end ModelConfig

namespace Model

/-- The tree of a nesting, a single nest without one. -/
def nesting (nests : Option (NestConfig α)) (count : Nat)
    (positions : Std.TreeMap AlternativeId Nat) : Except (CompileError α) (NestTree α) :=
  match nests with
  | some config => NestTree.ofConfig config positions
  | none => .ok (.flat count)

/-- Alternatives are put together when there are some, they can be numbered and their nests are
built. -/
theorem assemble_eq_ok {name : String} {schema : Schema α} {alternatives : List (Alternative α)}
    {nests : Option (NestConfig α)} {model : Model α} :
    assemble name schema alternatives nests = .ok model ↔
      alternatives ≠ [] ∧ ∃ positions tree,
        numberAlternatives name 0 alternatives ∅ = .ok positions ∧
        nesting nests alternatives.length positions = .ok tree ∧
        model = ⟨name, schema, alternatives.toArray, positions, tree⟩ := by
  have hassemble : assemble name schema alternatives nests =
      if alternatives.isEmpty then .error (.invalidModel (.noAlternatives name))
      else numberAlternatives name 0 alternatives ∅ >>= fun positions =>
        nesting nests alternatives.length positions >>= fun tree =>
          .ok ⟨name, schema, alternatives.toArray, positions, tree⟩ := by
    cases nests <;> rfl
  rw [hassemble]
  split_ifs with hnil
  · have hnil : alternatives = [] := by simpa using hnil
    simp [hnil]
  · have hnil : alternatives ≠ [] := by simpa using hnil
    simp only [bind_eq_ok, Except.ok.injEq, ne_eq, hnil, not_false_eq_true, true_and,
      exists_and_left]
    exact exists_congr fun positions => and_congr_right fun _ => exists_congr fun tree =>
      and_congr_right fun _ => eq_comm

/-- A model is compiled when its variables can be declared, its alternatives are compiled and
numbered and its nests are built. -/
theorem compile_eq_ok {config : ModelConfig α} {model : Model α} :
    compile config = .ok model ↔
      Schema.Declarable config.scopes config.constants ∧
      ∃ alternatives positions tree,
        List.Forall₂ (fun a alternative => Alternative.compile a config.schema = .ok alternative)
          config.alternatives alternatives ∧
        alternatives ≠ [] ∧
        numberAlternatives config.name 0 alternatives ∅ = .ok positions ∧
        nesting config.nests alternatives.length positions = .ok tree ∧
        model = ⟨config.name, config.schema, alternatives.toArray, positions, tree⟩ := by
  simp only [compile, bind_eq_ok, Schema.ofTables_eq_ok, mapM_eq_ok, assemble_eq_ok]
  constructor
  · rintro ⟨_, ⟨hdeclarable, rfl⟩, alternatives, hcompile, hnil, positions, tree, h⟩
    exact ⟨hdeclarable, alternatives, positions, tree, hcompile, hnil, h⟩
  · rintro ⟨hdeclarable, alternatives, positions, tree, hcompile, hnil, h⟩
    exact ⟨_, ⟨hdeclarable, rfl⟩, alternatives, hcompile, hnil, positions, tree, h⟩

/-- The compiled alternatives have the ids of the written ones. -/
theorem map_id_of_compile [LawfulNumeric α] {configs : List (AlternativeConfig α)}
    {schema : Schema α} {alternatives : List (Alternative α)}
    (h : List.Forall₂ (fun a alternative => Alternative.compile a schema = .ok alternative) configs
      alternatives) :
    alternatives.map (·.id) = configs.map (·.id) :=
  (map_eq_of_forall₂ h fun _ _ _ hcompile => (Alternative.compile_eq_ok.mp hcompile).2.id.symm).symm

/-- The nests of numbered alternatives are built when they are valid for the ids. -/
theorem exists_nesting_iff [LawfulNumeric α] {name : String} {alternatives : List (Alternative α)}
    {positions : Std.TreeMap AlternativeId Nat} {nests : Option (NestConfig α)}
    (h : numberAlternatives name 0 alternatives ∅ = .ok positions) :
    (∃ tree, nesting nests alternatives.length positions = .ok tree) ↔
      ∀ config, nests = some config → config.IsValidFor (alternatives.map (·.id)) := by
  have hnodup := (exists_numberAlternatives_iff.mp ⟨positions, h⟩).1
  have numbering := numbering_numberAlternatives h .empty
  cases nests with
  | none => simp [nesting]
  | some config =>
    simp only [nesting, NestTree.exists_ofConfig_iff numbering, Option.some.injEq, forall_eq']
    exact NestConfig.isValid_iff hnodup (getElem?_positions h)

/-- A compiled model has everything in the order in which it is written: its alternatives with their
ids, their zones, their terms and their availabilities, and the positions of the ids. -/
structure Describes (model : Model α) (config : ModelConfig α) : Prop where
  name : model.name = config.name
  schema : model.schema = config.schema
  alternatives : List.Forall₂
    (fun (a : AlternativeConfig α) alternative => a.CompilesTo config.schema alternative)
      config.alternatives model.alternatives.toList
  ids : model.ids.toList = config.ids
  zones : model.zones.toList = config.alternatives.map (·.zone)
  position (id : AlternativeId) (position : Nat) :
    model.position? id = some position ↔ model.ids[position]? = some id
  nests : nesting config.nests model.size model.positions = .ok model.nests

/-- A compiled model describes the written one. -/
theorem describes_of_compile [LawfulNumeric α] {config : ModelConfig α} {model : Model α}
    (h : compile config = .ok model) : model.Describes config := by
  rcases compile_eq_ok.mp h with
    ⟨-, alternatives, positions, tree, hcompile, -, hpositions, htree, rfl⟩
  have hids := map_id_of_compile hcompile
  have hzones := map_eq_of_forall₂ hcompile fun _ _ _ hcompile =>
    (Alternative.compile_eq_ok.mp hcompile).2.zone.symm
  refine ⟨rfl, rfl, ?_, ?_, ?_, fun id position => ?_, htree⟩
  · exact hcompile.imp fun _ _ hcompile => (Alternative.compile_eq_ok.mp hcompile).2
  · simpa [Model.ids, ModelConfig.ids] using hids
  · simpa [Model.zones] using hzones.symm
  · rw [position?, getElem?_positions hpositions]
    simp [Model.ids]

/-- A model is accepted exactly when it is well formed. -/
theorem exists_compile_iff [LawfulNumeric α] {config : ModelConfig α} :
    (∃ model, compile config = .ok model) ↔ config.IsWellFormed := by
  simp only [compile_eq_ok]
  constructor
  · rintro ⟨model, hdeclarable, alternatives, positions, tree, hcompile, hnil, hpositions, htree, -⟩
    have hids := map_id_of_compile hcompile
    refine ⟨hdeclarable, ?_, ?_, ?_, ?_⟩
    · rintro hnone
      rw [hnone, List.forall₂_nil_left_iff] at hcompile
      exact hnil hcompile
    · intro a ha
      exact (ModelConfig.exists_alternative_iff hdeclarable).mp
        (exists_forall₂_iff.mp ⟨alternatives, hcompile⟩ a ha)
    · rw [ModelConfig.ids, ← hids]
      exact (exists_numberAlternatives_iff.mp ⟨positions, hpositions⟩).1
    · rw [ModelConfig.ids, ← hids]
      exact (exists_nesting_iff hpositions).mp ⟨tree, htree⟩
  · rintro ⟨hdeclarable, hnil, halternatives, hdistinct, hnests⟩
    rcases exists_forall₂_iff.mpr fun a ha =>
      (ModelConfig.exists_alternative_iff hdeclarable).mpr (halternatives a ha) with
        ⟨alternatives, hcompile⟩
    have hids := map_id_of_compile hcompile
    rw [ModelConfig.ids, ← hids] at hdistinct hnests
    have hnil' : alternatives ≠ [] := by
      rintro rfl
      exact hnil (List.forall₂_nil_right_iff.mp hcompile)
    have hnumbered : ∃ positions, numberAlternatives config.name 0 alternatives ∅ = .ok positions :=
      exists_numberAlternatives_iff.mpr ⟨hdistinct, fun _ _ => Std.TreeMap.not_mem_emptyc⟩
    rcases hnumbered with ⟨positions, hpositions⟩
    rcases (exists_nesting_iff hpositions).mpr hnests with ⟨tree, htree⟩
    exact ⟨_, hdeclarable, alternatives, positions, tree, hcompile, hnil', hpositions, htree, rfl⟩

/-- A model is accepted exactly when it is well formed, and the compiled model has everything in the
order in which it is written. -/
theorem compile_iff_isWellFormed [LawfulNumeric α] (config : ModelConfig α) :
    ((∃ model, compile config = .ok model) ↔ config.IsWellFormed) ∧
      ∀ model, compile config = .ok model → model.Describes config :=
  ⟨exists_compile_iff, fun _ => describes_of_compile⟩

/-! ## A choice between driving and walking -/

/-- A model of two alternatives that take time, of which the first one has a factor by name, and the
second one leads to a zone of its own. -/
def driveOrWalk : ModelConfig Float where
  name := "drive or walk"
  scopes := (∅ : Std.TreeMap String Scope).insert "time" .scalar
  constants := (∅ : Std.TreeMap String Float).insert "slope" 1
  alternatives := [
    ⟨7, "drive", none, [⟨none, "@time", .named "slope"⟩], some "@time", none⟩,
    ⟨4, "walk", some "@time", [], none, some 3⟩]
  nests := none

/-- The variable and the constant of the model can be declared. -/
theorem declarable_driveOrWalk :
    Schema.Declarable driveOrWalk.scopes driveOrWalk.constants := by
  have hscope (name : String) : name ∈ driveOrWalk.scopes ↔ name = "time" := by
    simp only [driveOrWalk, Std.TreeMap.mem_insert, Std.LawfulEqCmp.compare_eq_iff_eq,
      Std.TreeMap.not_mem_emptyc, or_false]
    exact eq_comm
  have hconstant (name : String) : name ∈ driveOrWalk.constants ↔ name = "slope" := by
    simp only [driveOrWalk, Std.TreeMap.mem_insert, Std.LawfulEqCmp.compare_eq_iff_eq,
      Std.TreeMap.not_mem_emptyc, or_false]
    exact eq_comm
  refine ⟨fun name => ?_, fun name hname => ?_, fun name hname => ?_, fun name value hvalue => ?_⟩
  · simp only [driveOrWalk, Std.TreeMap.getElem?_insert]
    split_ifs <;> simp
  · rw [hscope, hconstant] at hname
    rcases hname with rfl | rfl <;> decide
  · rw [hscope] at hname
    rw [hconstant, hname]
    decide
  · simp only [driveOrWalk, Std.TreeMap.getElem?_insert] at hvalue
    split_ifs at hvalue
    · rcases Option.some.inj hvalue with rfl
      exact LawfulNumeric.isFinite_one
    · simp at hvalue

/-- Its texts compile, its factor is a declared constant and its ids differ. -/
theorem isWellFormed_driveOrWalk : driveOrWalk.IsWellFormed := by
  have hget : driveOrWalk.schema.get? "time" = some (.scalar 0) := by
    with_unfolding_all rfl
  have htext : driveOrWalk.schema.Compiles "@time" :=
    ⟨_, Formula.compile_variable_text (by decide) hget (.inr rfl)⟩
  refine ⟨declarable_driveOrWalk, by simp [driveOrWalk], ?_, by decide, by simp [driveOrWalk]⟩
  intro a ha
  have ha : a = ⟨7, "drive", none, [⟨none, "@time", .named "slope"⟩], some "@time", none⟩ ∨
      a = ⟨4, "walk", some "@time", [], none, some 3⟩ := by simpa [driveOrWalk] using ha
  rcases ha with rfl | rfl
  · have hslope : "slope" ∈ driveOrWalk.constants := by simp [driveOrWalk]
    exact ⟨by simp, by simp, by simpa using htext, by simpa using htext,
      by simpa [Coefficient.IsKnown] using hslope⟩
  · exact ⟨by simp, by simpa using htext, by simp, by simp, by simp⟩

/-- The compiled model knows the alternatives by their ids. -/
theorem compile_driveOrWalk :
    ∃ model, compile driveOrWalk = .ok model ∧ model.ids = #[7, 4] ∧ model.position? 4 = some 1 ∧
      model.zones = #[none, some 3] := by
  rcases compile_iff_isWellFormed driveOrWalk with ⟨haccepted, hdescribes⟩
  rcases haccepted.mpr isWellFormed_driveOrWalk with ⟨model, hmodel⟩
  have h := hdescribes model hmodel
  have hids : model.ids = #[7, 4] := Array.toList_inj.mp h.ids
  have hzones : model.zones = #[none, some 3] := Array.toList_inj.mp h.zones
  refine ⟨model, hmodel, hids, (h.position 4 1).mpr ?_, hzones⟩
  rw [hids]
  rfl

end Model
end DiscreteChoice
