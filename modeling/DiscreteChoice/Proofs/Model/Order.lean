import DiscreteChoice.Proofs.Context.Situation
import DiscreteChoice.Proofs.Model.Acceptance
import DiscreteChoice.Proofs.Utility.Availability

/-!
# The order of alternatives

The attributes of alternatives are given by id and kept by position, and the ids, the zones and the
terms are kept side by side. The positions agree, so that the order in which alternatives are
written has no meaning: it decides neither whether a model is accepted nor which utilities its
alternatives have, and no alternative has an influence on the utility of another.

Main results:

- Theorem `Model.exists_compile_of_perm`: a model is accepted with its alternatives in any order.
- Theorem `Model.appraise_eq_of_same`: an alternative has the same utility in all models that it is
  written in with the same variables.
- Theorem `Model.utilities_permute`: the utilities of a model in another order are its utilities in
  that order.
-/

namespace DiscreteChoice

variable {α : Type}

/-- The model with its alternatives in another order. -/
def ModelConfig.permute (config : ModelConfig α)
    (order : Equiv.Perm (Fin config.alternatives.length)) : ModelConfig α :=
  { config with alternatives := List.ofFn fun i => config.alternatives[order i] }

namespace ModelConfig

variable (config : ModelConfig α) (order : Equiv.Perm (Fin config.alternatives.length))

theorem length_permute : (config.permute order).alternatives.length = config.alternatives.length :=
  List.length_ofFn

theorem getElem?_permute (i : Fin config.alternatives.length) :
    (config.permute order).alternatives[i.val]? = some config.alternatives[order i] := by
  rw [permute, List.getElem?_ofFn, dif_pos i.isLt]

/-- The alternatives are the same ones. -/
theorem perm_permute : (config.permute order).alternatives.Perm config.alternatives := by
  have hall : (List.ofFn fun i : Fin config.alternatives.length => config.alternatives[i]) =
      config.alternatives := List.ofFn_getElem
  have hperm := order.ofFn_comp_perm fun i => config.alternatives[i]
  rwa [hall] at hperm

end ModelConfig

/-- Two records agree on an alternative: they are of the same decision maker on the same trip, and
differ at most in the attributes for other alternatives. -/
structure DecisionMaker.AgreesOn (person person' : DecisionMaker α)
    (alternativeId : AlternativeId) : Prop where
  id : person.id = person'.id
  trip : person.trip = person'.trip
  scalar (name : String) : person.attributes.scalar name = person'.attributes.scalar name
  alternative (name : String) :
    person.attributes.alternative name alternativeId =
      person'.attributes.alternative name alternativeId

namespace Model

variable [Numeric α] {config config' : ModelConfig α} {model model' : Model α}

/-! ## Accepted models -/

/-- A model is accepted with its alternatives in any order. -/
theorem exists_compile_of_perm [LawfulNumeric α]
    (hperm : config'.alternatives.Perm config.alternatives) (h : compile config = .ok model)
    (hscopes : config'.scopes = config.scopes) (hconstants : config'.constants = config.constants)
    (hnests : config'.nests = config.nests) : ∃ model', compile config' = .ok model' := by
  rcases compile_eq_ok.mp h with
    ⟨hdeclarable, alternatives, positions, tree, hcompile, hnil, hpositions, htree, -⟩
  have hschema : config'.schema = config.schema := by
    rw [ModelConfig.schema, ModelConfig.schema, hscopes, hconstants]
  rcases List.perm_comp_forall₂ hperm hcompile with ⟨alternatives', hcompile', hperm'⟩
  have hids : (alternatives'.map (·.id)).Perm (alternatives.map (·.id)) := hperm'.map _
  have hnil' : alternatives' ≠ [] := by
    rintro rfl
    exact hnil hperm'.nil_eq.symm
  have hnodup : (alternatives'.map (·.id)).Nodup :=
    hids.nodup_iff.mpr (exists_numberAlternatives_iff.mp ⟨positions, hpositions⟩).1
  have hnumbered : ∃ positions',
      numberAlternatives config'.name 0 alternatives' ∅ = .ok positions' :=
    exists_numberAlternatives_iff.mpr ⟨hnodup, fun _ _ => Std.TreeMap.not_mem_emptyc⟩
  rcases hnumbered with ⟨positions', hpositions'⟩
  have hvalid (nests : NestConfig α) (hsome : config'.nests = some nests) :
      nests.IsValidFor (alternatives'.map (·.id)) := by
    have hvalid := (exists_nesting_iff hpositions).mp ⟨tree, htree⟩ nests (hnests ▸ hsome)
    exact { hvalid with ids := hvalid.ids.trans hids.symm }
  rcases (exists_nesting_iff hpositions').mpr hvalid with ⟨tree', htree'⟩
  have hdeclarable' : Schema.Declarable config'.scopes config'.constants := by
    rwa [hscopes, hconstants]
  rw [← hschema] at hcompile'
  exact ⟨_, compile_eq_ok.mpr
    ⟨hdeclarable', alternatives', positions', tree', hcompile', hnil', hpositions', htree', rfl⟩⟩

/-! ## Utilities -/

/-- The alternative at a position of a model is compiled from the one that is written there. -/
theorem exists_getElem?_of_compile (h : compile config = .ok model) {position : Nat}
    {a : AlternativeConfig α} (ha : config.alternatives[position]? = some a) :
    ∃ alternative, model.alternatives[position]? = some alternative ∧
      Alternative.compile a config.schema = .ok alternative := by
  rcases compile_eq_ok.mp h with ⟨-, alternatives, positions, tree, hcompile, -, -, -, rfl⟩
  rcases exists_getElem?_of_forall₂ hcompile ha with ⟨alternative, halternative, hcompile⟩
  exact ⟨alternative, by simpa using halternative, hcompile⟩

/-- A compiled model has as many alternatives as are written. -/
theorem size_of_compile (h : compile config = .ok model) :
    model.alternatives.size = config.alternatives.length := by
  rcases compile_eq_ok.mp h with ⟨-, alternatives, positions, tree, hcompile, -, -, -, rfl⟩
  exact hcompile.length_eq.symm

/-- An alternative is at the same place among the ids and the zones as among the alternatives. -/
theorem situation_bind_model {position : Nat} {alternative : Alternative α}
    (h : model.alternatives[position]? = some alternative) (person : DecisionMaker α)
    (data : ModelData α) :
    (model.bind person data).situation position =
      (Context.bind person.id person.trip model.schema #[alternative.id] #[alternative.zone]
        person.attributes.source data).situation 0 := by
  simp [bind, Context.situation_bind, ids, zones, h]

variable {position position' : Nat} {a : AlternativeConfig α} {person person' : DecisionMaker α}

/-- An alternative has the same utility, or none for the same reason, wherever it is written with
the same variables, whatever the other alternatives are and whatever is known about them. -/
theorem appraise_eq_of_same [LawfulNumeric α] (h : compile config = .ok model)
    (h' : compile config' = .ok model') (hscopes : config'.scopes = config.scopes)
    (hconstants : config'.constants = config.constants)
    (ha : config.alternatives[position]? = some a)
    (ha' : config'.alternatives[position']? = some a) (hperson : person.AgreesOn person' a.id)
    (data : ModelData α) :
    ∃ alternative, model.alternatives[position]? = some alternative ∧
      model'.alternatives[position']? = some alternative ∧
      alternative.appraise (model.bind person data) position =
        alternative.appraise (model'.bind person' data) position' := by
  have hschema : config'.schema = config.schema := by
    rw [ModelConfig.schema, ModelConfig.schema, hscopes, hconstants]
  rcases exists_getElem?_of_compile h ha with ⟨alternative, halternative, hcompile⟩
  rcases exists_getElem?_of_compile h' ha' with ⟨alternative', halternative', hcompile'⟩
  rw [hschema, hcompile] at hcompile'
  rcases Except.ok.inj hcompile' with rfl
  have hid : alternative.id = a.id := (Alternative.compile_eq_ok.mp hcompile).2.id
  refine ⟨alternative, halternative, halternative', alternative.appraise_congr ?_⟩
  rw [situation_bind_model halternative, situation_bind_model halternative',
    (describes_of_compile h).schema, (describes_of_compile h').schema, hschema]
  simp [Context.situation_bind, AttributeSet.source, hid, hperson.id, hperson.trip, hperson.scalar,
    hperson.alternative]

/-- An alternative has the same entry in both vectors of utilities. -/
theorem entries_eq_of_same [LawfulNumeric α] (h : compile config = .ok model)
    (h' : compile config' = .ok model') (hscopes : config'.scopes = config.scopes)
    (hconstants : config'.constants = config.constants)
    (ha : config.alternatives[position]? = some a)
    (ha' : config'.alternatives[position']? = some a) (hperson : person.AgreesOn person' a.id)
    (data : ModelData α) :
    (model'.utilities (model'.bind person' data)).value.entries[position']? =
      (model.utilities (model.bind person data)).value.entries[position]? := by
  rcases appraise_eq_of_same h h' hscopes hconstants ha ha' hperson data with
    ⟨alternative, halternative, halternative', happraise⟩
  rw [getElem?_entries_utilities, getElem?_entries_utilities, halternative, halternative',
    Option.map_some, Option.map_some, happraise]

/-- The utilities of a decision are those of its decision maker. -/
theorem id_utilities_bind (person : DecisionMaker α) (data : ModelData α) :
    (model.utilities (model.bind person data)).value.id = person.id := rfl

/-- There is one entry for each alternative. -/
theorem size_utilities (h : compile config = .ok model) (context : Context α) :
    (model.utilities context).value.size = config.alternatives.length := by
  rw [← size_of_compile h]
  simp [utilities, UtilityVector.size]

/-- The order of alternatives has no meaning. A model with its alternatives in another order is
accepted exactly when the model is. The utilities of its alternatives are then those of the model in
that order, for every decision maker and all data, and so are their availabilities. An alternative
has the same utility in two models with the same variables, whatever the other alternatives are and
whatever the attributes for them are. -/
theorem utilities_permute [LawfulNumeric α] (config : ModelConfig α)
    (order : Equiv.Perm (Fin config.alternatives.length)) :
    ((∃ model, compile (config.permute order) = .ok model) ↔
      ∃ model, compile config = .ok model) ∧
    (∀ model model', compile config = .ok model → compile (config.permute order) = .ok model' →
      ∀ person data,
        let v := (model.utilities (model.bind person data)).value
        let v' := (model'.utilities (model'.bind person data)).value
        v'.id = v.id ∧ v.size = config.alternatives.length ∧
        v'.size = config.alternatives.length ∧
        ∀ i : Fin config.alternatives.length,
          v'.utility? i = v.utility? (order i) ∧
          v'.isAvailable i = v.isAvailable (order i) ∧
          v'.utilities[i.val]? = v.utilities[(order i).val]?) ∧
    ∀ config' model model' position position' a person person' data,
      config'.scopes = config.scopes → config'.constants = config.constants →
      compile config = .ok model → compile config' = .ok model' →
      config.alternatives[position]? = some a → config'.alternatives[position']? = some a →
      person.AgreesOn person' a.id →
        (model'.utilities (model'.bind person' data)).value.utility? position' =
          (model.utilities (model.bind person data)).value.utility? position := by
  refine ⟨⟨?_, ?_⟩, ?_, ?_⟩
  · rintro ⟨model, hmodel⟩
    exact exists_compile_of_perm (config.perm_permute order).symm hmodel rfl rfl rfl
  · rintro ⟨model, hmodel⟩
    exact exists_compile_of_perm (config.perm_permute order) hmodel rfl rfl rfl
  · intro model model' hmodel hmodel' person data v v'
    have hsize' := size_utilities hmodel' (model'.bind person data)
    rw [config.length_permute] at hsize'
    have hid : v.id = person.id := id_utilities_bind person data
    have hid' : v'.id = person.id := id_utilities_bind person data
    refine ⟨hid'.trans hid.symm, size_utilities hmodel _, hsize', fun i => ?_⟩
    have hposition : config.alternatives[(order i).val]? = some config.alternatives[order i] :=
      List.getElem?_eq_getElem (order i).isLt
    have hentry : v'.entries[i.val]? = v.entries[(order i).val]? :=
      entries_eq_of_same hmodel hmodel' rfl rfl hposition (config.getElem?_permute order i)
        ⟨rfl, rfl, fun _ => rfl, fun _ => rfl⟩ data
    simp only [UtilityVector.isAvailable, UtilityVector.utility?, UtilityVector.utilities,
      Array.getElem?_map, hentry, and_self]
  · intro config' model model' position position' a person person' data hscopes hconstants hmodel
      hmodel' ha ha' hperson
    rw [UtilityVector.utility?, UtilityVector.utility?,
      entries_eq_of_same hmodel hmodel' hscopes hconstants ha ha' hperson data]

/-- The model of driving and walking without driving. -/
def walkOnly : ModelConfig Float :=
  { driveOrWalk with alternatives := driveOrWalk.alternatives.drop 1 }

/-- Driving and walking have each other's utilities when they are written the other way round, and
walking has its own when nothing else can be chosen. -/
theorem utilities_permute_driveOrWalk :
    ∃ model model' alone, compile driveOrWalk = .ok model ∧
      compile (driveOrWalk.permute Fin.revPerm) = .ok model' ∧
      compile walkOnly = .ok alone ∧
      ∀ (person : DecisionMaker Float) (data : ModelData Float),
        let v := (model.utilities (model.bind person data)).value
        let v' := (model'.utilities (model'.bind person data)).value
        v'.utility? 0 = v.utility? 1 ∧ v'.utility? 1 = v.utility? 0 ∧
          (alone.utilities (alone.bind person data)).value.utility? 0 = v.utility? 1 := by
  rcases utilities_permute driveOrWalk Fin.revPerm with ⟨hcompiles, hpermuted, hsame⟩
  have hwalk : walkOnly.IsWellFormed := by
    refine ⟨declarable_driveOrWalk, by simp [walkOnly, driveOrWalk], fun a ha => ?_, by decide,
      by simp [walkOnly, driveOrWalk]⟩
    exact isWellFormed_driveOrWalk.alternatives a (List.mem_of_mem_drop ha)
  rcases exists_compile_iff.mpr isWellFormed_driveOrWalk with ⟨model, hmodel⟩
  rcases exists_compile_iff.mpr hwalk with ⟨alone, halone⟩
  rcases hcompiles.mpr ⟨model, hmodel⟩ with ⟨model', hmodel'⟩
  refine ⟨model, model', alone, hmodel, hmodel', halone, fun person data => ?_⟩
  rcases hpermuted model model' hmodel hmodel' person data with ⟨-, -, -, hutilities⟩
  exact ⟨(hutilities ⟨0, by decide⟩).1, (hutilities ⟨1, by decide⟩).1,
    hsame walkOnly model alone 1 0 _ person person data rfl rfl hmodel halone rfl rfl
      ⟨rfl, rfl, fun _ => rfl, fun _ => rfl⟩⟩

end Model
end DiscreteChoice
