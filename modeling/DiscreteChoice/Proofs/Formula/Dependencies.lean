import DiscreteChoice.Proofs.Context.Situation
import DiscreteChoice.Proofs.Formula.Binding
import DiscreteChoice.Proofs.Utility.Warnings

/-!
# What a formula depends on

The variables that a formula lists are all that its value depends on. Folding may drop variables but
adds none, a variable that is read with several indices is listed once, and an evaluation that
stops, stops at a listed variable.

Main results:

- Theorem `Reference.mem_names_distinct`: leaving out repeated names loses none of them.
- Theorem `Node.evaluate_eq_of_agree`: the value of a node depends on the variables in it only.
- Theorem `Node.references_fold`: folding adds no variable.
- Theorem `Expr.isBound_of_bind`: every variable of a bound expression is a declared one.
- Theorem `Formula.references_complete`: the list of variables of a formula is complete.
-/

namespace DiscreteChoice

variable {α ε : Type}

/-! ## Names that are listed once -/

namespace Reference

theorem distinct_append_singleton (references : List Reference) (r : Reference) :
    distinct (references ++ [r]) =
      if (distinct references).any (·.name == r.name) then distinct references
      else distinct references ++ [r] := by
  rw [distinct, List.foldl_append, List.foldl_cons, List.foldl_nil]
  rfl

/-- The references that are kept stand in their order. -/
theorem distinct_sublist (references : List Reference) :
    (distinct references).Sublist references := by
  induction references using List.reverseRecOn with
  | nil => exact .slnil
  | append_singleton references r ih =>
    rw [distinct_append_singleton]
    split_ifs
    · exact ih.trans (List.sublist_append_left references [r])
    · exact ih.append_right [r]

/-- A name is kept once. -/
theorem nodup_names_distinct (references : List Reference) :
    ((distinct references).map name).Nodup := by
  induction references using List.reverseRecOn with
  | nil => exact .nil
  | append_singleton references r ih =>
    rw [distinct_append_singleton]
    split_ifs with hkept
    · exact ih
    · have hnew : r.name ∉ (distinct references).map name := by simpa using hkept
      rw [List.map_append, List.map_singleton, ← List.concat_eq_append]
      exact ih.concat hnew

/-- Leaving out repeated names loses none of them. -/
theorem mem_names_distinct {references : List Reference} {r : Reference} (hr : r ∈ references) :
    r.name ∈ (distinct references).map name := by
  induction references using List.reverseRecOn with
  | nil => cases hr
  | append_singleton references last ih =>
    rw [distinct_append_singleton]
    split_ifs with hkept
    · rcases List.mem_append.mp hr with hr | hr
      · exact ih hr
      · rcases List.mem_singleton.mp hr with rfl
        simpa using hkept
    · rw [List.map_append]
      rcases List.mem_append.mp hr with hr | hr
      · exact List.mem_append_left _ (ih hr)
      · rcases List.mem_singleton.mp hr with rfl
        exact List.mem_append_right _ (List.mem_singleton_self _)

/-- The reference is what its name is bound to, with some of the indices that it takes. -/
def IsBound (schema : Schema α) (r : Reference) : Prop :=
  ∃ declaration indices, schema.get? r.name = some declaration ∧
    declaration.bind r.name indices = .ok (.read r)

/-- A reference is never to a constant. -/
theorem IsBound.exists_scope {schema : Schema α} {r : Reference} (h : r.IsBound schema) :
    ∃ declaration, schema.get? r.name = some declaration ∧ declaration.scope ≠ .constant := by
  rcases h with ⟨declaration, indices, hdeclared, hbind⟩
  refine ⟨declaration, hdeclared, fun hscope => ?_⟩
  cases declaration with
  | constant value => cases indices <;> cases hbind
  | _ => cases hscope

end Reference

/-! ## Evaluation -/

namespace Node

section Agreement

variable [Numeric α] {lookup lookup' : Reference → Except ε α}

mutual

/-- The value of a node depends on the variables in it only. -/
theorem evaluate_eq_of_agree : (node : Node α) →
    (∀ r ∈ node.references, lookup r = lookup' r) → node.evaluate lookup = node.evaluate lookup'
  | constant _, _ => rfl
  | read reference, h => h reference (List.mem_singleton_self reference)
  | unary op operand, h => by
    rw [evaluate, evaluate, evaluate_eq_of_agree operand h]
  | binary op lhs rhs, h => by
    rcases List.forall_mem_append.mp h with ⟨hlhs, hrhs⟩
    rw [evaluate, evaluate, evaluate_eq_of_agree lhs hlhs, evaluate_eq_of_agree rhs hrhs]
  | conditional c t f, h => by
    rcases List.forall_mem_append.mp h with ⟨h, hf⟩
    rcases List.forall_mem_append.mp h with ⟨hc, ht⟩
    rw [evaluate, evaluate, evaluate_eq_of_agree c hc, evaluate_eq_of_agree t ht,
      evaluate_eq_of_agree f hf]
  | call function args, h => by
    rw [evaluate, evaluate, evaluateAll_eq_of_agree args h]

/-- The values of a list of nodes depend on the variables in them only. -/
theorem evaluateAll_eq_of_agree : (nodes : List (Node α)) →
    (∀ r ∈ referencesOfAll nodes, lookup r = lookup' r) →
      evaluateAll lookup nodes = evaluateAll lookup' nodes
  | [], _ => rfl
  | node :: nodes, h => by
    rcases List.forall_mem_append.mp h with ⟨hfirst, hothers⟩
    rw [evaluateAll, evaluateAll, evaluate_eq_of_agree node hfirst,
      evaluateAll_eq_of_agree nodes hothers]

end

end Agreement

/-! ## Folding -/

variable [Numeric α]

mutual

/-- Folding adds no variable and leaves the order of the variables as it is. -/
theorem references_fold : (node : Node α) → node.fold.references.Sublist node.references
  | constant _ => .refl _
  | read _ => .refl _
  | unary op operand => by
    have hoperand := references_fold operand
    rw [fold, references]
    split
    · exact List.nil_sublist _
    · exact hoperand
  | binary op lhs rhs => by
    have hlhs := references_fold lhs
    have hrhs := references_fold rhs
    rw [fold, references]
    split
    · exact List.nil_sublist _
    · exact hlhs.append hrhs
  | conditional c t f => by
    have hc := references_fold c
    have ht := references_fold t
    have hf := references_fold f
    rw [fold, references]
    split
    · -- a constant condition keeps one of the branches, or none of them
      split_ifs
      · exact List.nil_sublist _
      · exact (ht.trans (List.sublist_append_right _ _)).trans (List.sublist_append_left _ _)
      · exact hf.trans (List.sublist_append_right _ _)
    · exact (hc.append ht).append hf
  | call function args => by
    have hargs := referencesOfAll_foldAll args
    rw [fold, references]
    split
    · exact List.nil_sublist _
    · exact hargs

/-- Folding the nodes of a list adds no variable. -/
theorem referencesOfAll_foldAll : (nodes : List (Node α)) →
    (referencesOfAll (foldAll nodes)).Sublist (referencesOfAll nodes)
  | [] => .refl _
  | node :: nodes => (references_fold node).append (referencesOfAll_foldAll nodes)

end

end Node

/-! ## Bound variables -/

/-- A variable is bound to a reference of its own name, unless it is a constant. -/
theorem Declaration.isBound_of_bind {schema : Schema α} {declaration : Declaration α}
    {name : String} {indices : List Index} {node : Node α}
    (hdeclared : schema.get? name = some declaration)
    (hbind : declaration.bind name indices = .ok node) :
    ∀ r ∈ node.references, r.IsBound schema := by
  have hread (r : Reference) (hname : r.name = name) (hnode : node = .read r) :
      ∀ other ∈ node.references, other.IsBound schema := by
    subst hnode hname
    intro other hother
    rcases List.mem_singleton.mp hother with rfl
    exact ⟨declaration, indices, hdeclared, hbind⟩
  have hbound := hbind
  unfold bind at hbound
  split at hbound
  · rw [← Except.ok.inj hbound]
    exact nofun
  · exact hread _ rfl (Except.ok.inj hbound).symm
  · exact hread _ rfl (Except.ok.inj hbound).symm
  · exact hread _ rfl (Except.ok.inj hbound).symm
  · rcases bind_eq_ok.mp hbound with ⟨role, -, hbound⟩
    exact hread _ rfl (Except.ok.inj hbound).symm
  · rcases bind_eq_ok.mp hbound with ⟨row, -, hbound⟩
    rcases bind_eq_ok.mp hbound with ⟨column, -, hbound⟩
    exact hread _ rfl (Except.ok.inj hbound).symm
  · rcases bind_eq_ok.mp hbound with ⟨period, -, hbound⟩
    rcases bind_eq_ok.mp hbound with ⟨row, -, hbound⟩
    rcases bind_eq_ok.mp hbound with ⟨column, -, hbound⟩
    exact hread _ rfl (Except.ok.inj hbound).symm
  · cases hbound

namespace Expr

variable {schema : Schema α}

mutual

/-- Every variable of a bound expression is a declared one. -/
theorem isBound_of_bind : (e : Expr α) → {node : Node α} → e.bind schema = .ok node →
    ∀ r ∈ node.references, r.IsBound schema
  | constant _, _, h => by
    rcases Except.ok.inj h with rfl
    exact nofun
  | reference name indices position, node, h => by
    rw [Expr.bind, Schema.bind] at h
    split at h
    · cases h
    · rename_i declaration hdeclared
      split at h
      · rename_i bound hbound
        rcases Except.ok.inj h with rfl
        exact declaration.isBound_of_bind hdeclared hbound
      · cases h
  | unary op operand, _, h => by
    rcases bind_eq_ok.mp h with ⟨x, hx, h⟩
    rcases Except.ok.inj h with rfl
    have hoperand := isBound_of_bind operand hx
    exact hoperand
  | binary op lhs rhs, _, h => by
    rcases bind_eq_ok.mp h with ⟨x, hx, h⟩
    rcases bind_eq_ok.mp h with ⟨y, hy, h⟩
    rcases Except.ok.inj h with rfl
    exact List.forall_mem_append.mpr ⟨isBound_of_bind lhs hx, isBound_of_bind rhs hy⟩
  | conditional c t f, _, h => by
    rcases bind_eq_ok.mp h with ⟨x, hx, h⟩
    rcases bind_eq_ok.mp h with ⟨y, hy, h⟩
    rcases bind_eq_ok.mp h with ⟨z, hz, h⟩
    rcases Except.ok.inj h with rfl
    exact List.forall_mem_append.mpr
      ⟨List.forall_mem_append.mpr ⟨isBound_of_bind c hx, isBound_of_bind t hy⟩,
        isBound_of_bind f hz⟩
  | call function args, _, h => by
    rcases bind_eq_ok.mp h with ⟨nodes, hnodes, h⟩
    rcases Except.ok.inj h with rfl
    exact isBound_of_bindAll args hnodes

/-- Every variable of bound expressions is a declared one. -/
theorem isBound_of_bindAll : (es : List (Expr α)) → {nodes : List (Node α)} →
    bindAll schema es = .ok nodes → ∀ r ∈ Node.referencesOfAll nodes, r.IsBound schema
  | [], _, h => by
    rcases Except.ok.inj h with rfl
    exact nofun
  | e :: es, _, h => by
    rcases bind_eq_ok.mp h with ⟨node, hnode, h⟩
    rcases bind_eq_ok.mp h with ⟨nodes, hnodes, h⟩
    rcases Except.ok.inj h with rfl
    exact List.forall_mem_append.mpr ⟨isBound_of_bind e hnode, isBound_of_bindAll es hnodes⟩

end

end Expr

/-! ## Formulas -/

namespace Formula

/-- The names of the variables of a formula. -/
def names (formula : Formula α) : List String :=
  formula.references.map Reference.name

/-- A name is listed for every variable in a formula. -/
theorem mem_names {formula : Formula α} {r : Reference} (hr : r ∈ formula.root.references) :
    r.name ∈ formula.names :=
  Reference.mem_names_distinct hr

/-- The formula was compiled against a schema, or made from a number. -/
def IsMadeFor [Numeric α] [NumberText α] (schema : Schema α) (formula : Formula α) : Prop :=
  compile formula.source schema = .ok formula ∨ ∃ value, formula = constant value

/-- Every variable in a formula is a declared one. -/
theorem IsMadeFor.isBound [Numeric α] [NumberText α] {schema : Schema α} {formula : Formula α}
    (h : formula.IsMadeFor schema) : ∀ r ∈ formula.root.references, r.IsBound schema := by
  rcases h with hcompile | ⟨value, rfl⟩
  · rcases compile_eq_ok.mp hcompile with ⟨e, node, -, hbind, hformula⟩
    rw [hformula]
    exact fun r hr => e.isBound_of_bind hbind r ((Node.references_fold node).subset hr)
  · exact nofun

/-- The list of variables of a formula is complete. Their names differ, and each of them is declared
and is no constant. A variable that is missing is one of them, and it is missing for the decision
maker of the decision. In two decisions of the same decision maker a formula has the same value, or
stops at the same variable, when they agree on what the listed names stand for with any indices,
whatever else there is in them. -/
theorem references_complete [Numeric α] [NumberText α] {schema : Schema α} {formula : Formula α}
    (h : formula.IsMadeFor schema) :
    formula.names.Nodup ∧
    (∀ name ∈ formula.names,
      ∃ declaration, schema.get? name = some declaration ∧ declaration.scope ≠ .constant) ∧
    (∀ context position missing, formula.evaluate context position = .error missing →
      missing.name ∈ formula.names ∧ missing.id = context.id) ∧
    ∀ (context context' : Context α) (position : Nat), context.id = context'.id →
      (∀ r : Reference, r.name ∈ formula.names → r.IsBound schema →
        context.value? (some position) r = context'.value? (some position) r) →
      formula.evaluate context position = formula.evaluate context' position := by
  have hbound := h.isBound
  refine ⟨Reference.nodup_names_distinct _, fun name hname => ?_,
    fun context position missing hmissing => ⟨?_, id_of_evaluate_eq_error hmissing⟩,
    fun context context' position hid hagree => ?_⟩
  · rcases List.mem_map.mp hname with ⟨r, hr, rfl⟩
    exact (hbound r ((Reference.distinct_sublist _).subset hr)).exists_scope
  · rcases Node.exists_of_evaluate_eq_error formula.root hmissing with ⟨r, hr, hread⟩
    rw [Context.read] at hread
    split at hread
    · cases hread
    · rw [← Except.error.inj hread]
      exact mem_names hr
  · refine Node.evaluate_eq_of_agree formula.root fun r hr => ?_
    rw [Context.read, Context.read, hagree r (mem_names hr) (hbound r hr), hid]

/-- A schema with the travel time between zones and a toll. -/
def timeSchema : Schema Float :=
  ⟨[("time", .matrix), ("toll", .scalar 0)], ["toll"], []⟩

/-- The travel time there and, unless there is no toll, back. -/
def roundTrip : Formula Float where
  source := "time[orig, dest] + (toll && time[dest, orig])"
  root := .binary .add (.read (.matrix "time" .origin .destination .ofDecision))
    (.binary .and (.read (.scalar "toll" 0))
      (.read (.matrix "time" .destination .origin .ofDecision)))

/-- A decision about a trip with a toll, for which no travel times are known. -/
def untimedTrip : Context Float where
  id := 7
  trip := ⟨some 1, some 2, none⟩
  schema := timeSchema
  alternativeIds := #[1, 2]
  alternativeZones := #[none, none]
  scalars := #[some 3]
  alternatives := #[]
  data := .empty

/-- The travel time is listed once, although it is read in both directions. It is what is missing,
and that the second alternative has a zone of its own does not matter to the first one. -/
theorem references_complete_roundTrip :
    roundTrip.IsMadeFor timeSchema ∧ roundTrip.names = ["time", "toll"] ∧ roundTrip.names.Nodup ∧
      roundTrip.evaluate untimedTrip 0 = .error ⟨7, "time"⟩ ∧ "time" ∈ roundTrip.names ∧
      roundTrip.evaluate (untimedTrip.withZones #[none, some 3]) 0 = .error ⟨7, "time"⟩ := by
  have hmade : roundTrip.IsMadeFor timeSchema := by
    left
    cbv
  have hmissing : roundTrip.evaluate untimedTrip 0 = .error ⟨7, "time"⟩ := rfl
  rcases references_complete hmade with ⟨hnodup, -, hlisted, hagree⟩
  have hsame : roundTrip.evaluate untimedTrip 0 =
      roundTrip.evaluate (untimedTrip.withZones #[none, some 3]) 0 :=
    hagree _ _ 0 rfl fun r _ _ => by cases r <;> rfl
  exact ⟨hmade, rfl, hnodup, hmissing, (hlisted _ _ _ hmissing).1, hsame.symm.trans hmissing⟩

end Formula
end DiscreteChoice
