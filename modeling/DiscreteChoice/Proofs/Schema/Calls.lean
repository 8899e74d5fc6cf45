import DiscreteChoice.Numeric.Double
import DiscreteChoice.Proofs.Expr.VariableText
import DiscreteChoice.Proofs.Schema.Declarations

/-!
# Schemas under use

A schema is filled by one call after the other. A call changes the schema in place, in steps that could
fail behind a change, but it leads where the declaration does: a call that fails has changed nothing.
The declarations and the two lists of names with slots stay in step, because a call that succeeds puts a
new name behind both.

Main results:

- Theorem `perform_steps`: a call in place has the outcome of the declaration, and leaves the schema as it
  was when it fails.
- Theorems `IsDeclared.lists_scalar` and `IsDeclared.lists_alternative`: the names with slots are those
  that are listed, each at its slot.
- Theorem `Call.adds_of_apply`: what a call that succeeds adds.
- Theorem `reached_isWellFormed`: what holds after any calls, and of the schema of two tables.
-/

namespace DiscreteChoice
namespace Schema

variable {α : Type}

/-! ## Steps in place -/

/-- A call that declares one name. -/
inductive Call (α : Type) where
  | declare (name : String) (scope : Scope)
  | declareConstant (name : String) (value : α)
deriving Repr

/-- The name that a call declares. -/
def Call.name : Call α → String
  | .declare name _ => name
  | .declareConstant name _ => name

/-- Steps that change a schema in place, up to the first one that fails. -/
abbrev Editing (α : Type) :=
  ExceptT (CompileError α) (StateM (Schema α))

/-- What steps report on a schema, and the schema that they leave. -/
def perform {β : Type} (steps : Editing α β) (schema : Schema α) :
    Except (CompileError α) β × Schema α :=
  Id.run (steps.run.run schema)

section

variable {β γ : Type} (schema : Schema α)

@[simp] theorem perform_bind (steps : Editing α β) (next : β → Editing α γ) :
    perform (steps >>= next) schema =
      match perform steps schema with
      | (.ok result, after) => perform (next result) after
      | (.error e, after) => (.error e, after) := by
  simp only [perform, ExceptT.run_bind, StateT.run_bind, Id.run_bind]
  rcases (StateT.run steps.run schema).run with ⟨_ | _, _⟩ <;> rfl

@[simp] theorem perform_get : perform (get : Editing α (Schema α)) schema = (.ok schema, schema) :=
  rfl

@[simp] theorem perform_modify (f : Schema α → Schema α) :
    perform (modify f : Editing α PUnit) schema = (.ok (), f schema) :=
  rfl

@[simp] theorem perform_throw (e : CompileError α) :
    perform (throw e : Editing α β) schema = (.error e, schema) :=
  rfl

@[simp] theorem perform_ofExcept (result : Except (CompileError α) β) :
    perform (ofExcept result : Editing α β) schema = (result, schema) := by
  cases result <;> rfl

end

/-! ## Names with slots -/

/-- The names of a kind of declaration are those that are listed, each at the slot that it has. -/
def Lists (schema : Schema α) (names : List String) (slotted : Nat → Declaration α) : Prop :=
  ∀ (name : String) (slot : Nat),
    schema.get? name = some (slotted slot) ↔ names[slot]? = some name

variable {schema : Schema α} {names : List String} {slotted : Nat → Declaration α} {name : String}
  {declaration : Declaration α}

/-- The empty schema lists nothing. -/
theorem lists_empty (slotted : Nat → Declaration α) : (empty : Schema α).Lists [] slotted := by
  intro name slot
  simp

/-- A name that has one declaration is listed once. -/
theorem Lists.nodup (h : schema.Lists names slotted) (hinj : Function.Injective slotted) :
    names.Nodup := by
  rw [List.nodup_iff_getElem?_ne_getElem?]
  intro i j hij hj heq
  have hname : names[j]? = some names[j] := List.getElem?_eq_getElem hj
  have hi := (h names[j] i).mpr (heq.trans hname)
  have hj := (h names[j] j).mpr hname
  have : i = j := hinj (Option.some.inj (hi.symm.trans hj))
  omega

/-- A name behind a list is the last one, and the others keep their places. -/
theorem getElem?_append_singleton_iff {slot : Nat} {other : String} :
    (names ++ [name])[slot]? = some other ↔
      names[slot]? = some other ∨ slot = names.length ∧ other = name := by
  rcases Nat.lt_trichotomy slot names.length with hlt | rfl | hgt
  · rw [List.getElem?_append_left hlt]
    simp [hlt.ne]
  · simp [eq_comm]
  · have hnone : names[slot]? = none := List.getElem?_eq_none hgt.le
    have hbehind : (names ++ [name])[slot]? = none := by
      rw [List.getElem?_eq_none]
      simpa using hgt
    simp [hnone, hbehind, hgt.ne']

/-- A new name of the kind that is listed has the next slot, and one of another kind changes nothing
that is listed. -/
theorem Lists.extend (h : schema.Lists names slotted) (hinj : Function.Injective slotted)
    {scope : Scope} (hscope : ∀ declaration : Declaration α,
      declaration.scope = scope ↔ ∃ slot, declaration = slotted slot)
    (hfresh : schema.get? name = none)
    (hnext : ∀ slot, declaration = slotted slot → names.length = slot) :
    (schema.extend name declaration).Lists
      (names ++ if declaration.scope = scope then [name] else []) slotted := by
  intro other slot
  rw [get?_extend _ hfresh]
  split_ifs with hother hown hown
  · rcases (hscope declaration).mp hown with ⟨own, rfl⟩
    rw [getElem?_append_singleton_iff, ← h, hother, hfresh, hnext own rfl]
    simp [hinj.eq_iff, eq_comm]
  · have hne : declaration ≠ slotted slot := fun heq => hown ((hscope declaration).mpr ⟨slot, heq⟩)
    rw [List.append_nil, ← h, hother, hfresh]
    simpa using hne
  · rw [getElem?_append_singleton_iff, ← h]
    simp [hother]
  · rw [List.append_nil, ← h]

/-! ## Every declared schema -/

variable [Numeric α]

/-- What holds of the empty schema, and is kept by a declaration of a new name that comes next, holds of
every declared schema. -/
theorem IsDeclared.extend_induction {motive : Schema α → Prop} (empty : motive .empty)
    (extend : ∀ schema name declaration, schema.get? name = none → schema.IsNext declaration →
      motive schema → motive (schema.extend name declaration))
    (h : schema.IsDeclared) : motive schema := by
  induction h with
  | empty => exact empty
  | declare _ step ih =>
    rcases declare_eq_ok.mp step with ⟨-, hfresh, declaration, hnext, rfl⟩
    exact extend _ _ _ hfresh (.inl (by rwa [scope_of_next? hnext])) ih
  | declareConstant _ step ih =>
    rcases declareConstant_eq_ok.mp step with ⟨-, hfresh, hfinite, rfl⟩
    exact extend _ _ _ hfresh (.inr ⟨_, rfl, hfinite⟩) ih

/-- A list of names that grows by the names of one scope lists the declarations of the scope, when each
of them has the length of the list as its slot. -/
theorem IsDeclared.lists (listed : Schema α → List String) (hempty : listed .empty = [])
    {scope : Scope} (hextend : ∀ (schema : Schema α) name declaration,
      listed (schema.extend name declaration) =
        listed schema ++ if declaration.scope = scope then [name] else [])
    (hinj : Function.Injective slotted)
    (hscope : ∀ declaration : Declaration α,
      declaration.scope = scope ↔ ∃ slot, declaration = slotted slot)
    (hnext : ∀ (schema : Schema α) slot, schema.IsNext (slotted slot) → (listed schema).length = slot)
    (h : schema.IsDeclared) : schema.Lists (listed schema) slotted := by
  refine h.extend_induction (motive := fun schema => schema.Lists (listed schema) slotted) ?_ ?_
  · rw [hempty]
    exact lists_empty slotted
  · intro schema name declaration hfresh hdeclaration ih
    rw [hextend]
    apply ih.extend hinj hscope hfresh
    rintro slot rfl
    exact hnext schema slot hdeclaration

/-- The scalar variables are those that are listed, each at its slot. -/
theorem IsDeclared.lists_scalar (h : schema.IsDeclared) :
    schema.Lists schema.scalarNames .scalar := by
  apply h.lists scalarNames rfl (fun _ _ _ => rfl) fun _ _ => Declaration.scalar.inj
  · intro declaration
    cases declaration <;> simp [Declaration.scope]
  · intro schema slot hnext
    simpa [IsNext, Declaration.scope, next?] using hnext

/-- The alternative variables are those that are listed, each at its slot. -/
theorem IsDeclared.lists_alternative (h : schema.IsDeclared) :
    schema.Lists schema.alternativeNames .alternative := by
  apply h.lists alternativeNames rfl (fun _ _ _ => rfl) fun _ _ => Declaration.alternative.inj
  · intro declaration
    cases declaration <;> simp [Declaration.scope]
  · intro schema slot hnext
    simpa [IsNext, Declaration.scope, next?] using hnext

/-- No name is declared twice. -/
theorem IsDeclared.nodup (h : schema.IsDeclared) : (schema.declarations.map (·.1)).Nodup := by
  refine h.extend_induction (motive := fun schema => (schema.declarations.map (·.1)).Nodup) ?_ ?_
  · exact List.nodup_nil
  · intro schema name declaration hfresh _ ih
    rw [Schema.extend, List.map_append, List.map_cons, List.map_nil, List.nodup_append_comm]
    exact List.nodup_cons.mpr ⟨get?_eq_none_iff.mp hfresh, ih⟩

/-- The names with slots are those that are listed, each at its slot and once, no name is declared
twice, every name is spelled as one and read as one identifier, and every constant is finite. -/
structure IsWellFormed (schema : Schema α) : Prop where
  scalar (name : String) (slot : Nat) :
    schema.get? name = some (.scalar slot) ↔ schema.scalarNames[slot]? = some name
  scalarNames : schema.scalarNames.Nodup
  alternative (name : String) (slot : Nat) :
    schema.get? name = some (.alternative slot) ↔ schema.alternativeNames[slot]? = some name
  alternativeNames : schema.alternativeNames.Nodup
  names : (schema.declarations.map (·.1)).Nodup
  identifier (name : String) (declaration : Declaration α) :
    schema.get? name = some declaration → Token.isName name = true ∧
      (Token.ofText name : Except (SyntaxError α) (List (Token α))) =
        .ok [⟨.identifier name, 0⟩, ⟨.endOfText, name.length⟩]
  constant (name : String) (value : α) :
    schema.get? name = some (.constant value) → Numeric.isFinite value = true

/-- A name is read as one identifier. -/
theorem ofText_name (hname : Token.isName name = true) :
    (Token.ofText name : Except (SyntaxError α) (List (Token α))) =
      .ok [⟨.identifier name, 0⟩, ⟨.endOfText, name.length⟩] := by
  have hnothing : ([] : List Char).head?.any Token.isNamePart = false := rfl
  have h := Token.tokensFrom_name (α := α) hname hnothing 0
  rw [List.append_nil, Nat.zero_add, Token.tokensFrom] at h
  exact h

/-- Every declared schema is well-formed. -/
theorem IsDeclared.isWellFormed (h : schema.IsDeclared) : schema.IsWellFormed where
  scalar := h.lists_scalar
  scalarNames := h.lists_scalar.nodup fun _ _ => Declaration.scalar.inj
  alternative := h.lists_alternative
  alternativeNames := h.lists_alternative.nodup fun _ _ => Declaration.alternative.inj
  names := h.nodup
  identifier _ _ hget :=
    ⟨h.isSound.isName hget, ofText_name (h.isSound.isName hget)⟩
  constant _ _ hget := h.isSound.constant hget

/-! ## One call -/

/-- The declaration that a call asks for. -/
def Call.apply (schema : Schema α) : Call α → Except (CompileError α) (Schema α)
  | .declare name scope => schema.declare name scope
  | .declareConstant name value => schema.declareConstant name value

/-- The steps of a call. A name with a slot is listed before it is declared. -/
def Call.steps : Call α → Editing α Unit
  | .declare name scope => do
    ofExcept ((← get).checkName name)
    match scope with
    | .scalar =>
      let slot := (← get).scalarNames.length
      modify fun schema => { schema with scalarNames := schema.scalarNames ++ [name] }
      modify (·.declareAs name (.scalar slot))
    | .alternative =>
      let slot := (← get).alternativeNames.length
      modify fun schema => { schema with alternativeNames := schema.alternativeNames ++ [name] }
      modify (·.declareAs name (.alternative slot))
    | .zone => modify (·.declareAs name .zone)
    | .matrix => modify (·.declareAs name .matrix)
    | .constant => throw (.invalidModel (.constantWithoutValue name))
  | .declareConstant name value => do
    ofExcept ((← get).checkName name)
    if Numeric.isFinite value then modify (·.declareAs name (.constant value))
    else throw (.invalidModel (.nonFiniteConstant name value))

/-- The report on a declaration, and the schema behind it: the one before it when it fails. -/
def settle (schema : Schema α) :
    Except (CompileError α) (Schema α) → Except (CompileError α) Unit × Schema α
  | .ok after => (.ok (), after)
  | .error e => (.error e, schema)

/-- The steps of a call have the outcome of the declaration, and leave the schema as it was when they
fail. -/
theorem perform_steps (call : Call α) (schema : Schema α) :
    perform call.steps schema = settle schema (call.apply schema) := by
  cases call with
  | declare name scope =>
    cases hcheck : schema.checkName name with
    | error e => simp [Call.steps, Call.apply, declare, settle, hcheck]
    | ok checked => cases scope <;> simp [Call.steps, Call.apply, declare, declareAs, settle, hcheck]
  | declareConstant name value =>
    cases hcheck : schema.checkName name with
    | error e => simp [Call.steps, Call.apply, declareConstant, settle, hcheck]
    | ok checked =>
      by_cases hfinite : Numeric.isFinite value = true
      · simp [Call.steps, Call.apply, declareConstant, settle, hcheck, hfinite]
      · simp [Call.steps, Call.apply, declareConstant, settle, hcheck, hfinite]

/-- A declaration is what a call asks for. -/
def Call.Asks : Call α → Declaration α → Prop
  | .declare _ scope, declaration => declaration.scope = scope
  | .declareConstant _ value, declaration => declaration = .constant value

/-- A call declares its name, which was not declared, and changes no other declaration and no slot. -/
structure Call.Adds (call : Call α) (before after : Schema α) : Prop where
  fresh : before.get? call.name = none
  declared : ∃ declaration, after.get? call.name = some declaration ∧ call.Asks declaration
  others (other : String) : other ≠ call.name → after.get? other = before.get? other
  scalarNames : before.scalarNames <+: after.scalarNames
  alternativeNames : before.alternativeNames <+: after.alternativeNames

variable {call : Call α} {before after : Schema α}

/-- A call that succeeds extends the schema by what it asks for. -/
theorem Call.exists_extend (h : call.apply before = .ok after) :
    before.get? call.name = none ∧
      ∃ declaration, call.Asks declaration ∧ after = before.extend call.name declaration := by
  cases call with
  | declare name scope =>
    rcases declare_eq_ok.mp h with ⟨-, hfresh, declaration, hnext, rfl⟩
    exact ⟨hfresh, declaration, scope_of_next? hnext, rfl⟩
  | declareConstant name value =>
    rcases declareConstant_eq_ok.mp h with ⟨-, hfresh, -, rfl⟩
    exact ⟨hfresh, .constant value, rfl, rfl⟩

/-- A call that succeeds adds what it asks for. -/
theorem Call.adds_of_apply (h : call.apply before = .ok after) : call.Adds before after := by
  rcases exists_extend h with ⟨hfresh, declaration, hasks, rfl⟩
  refine ⟨hfresh, ⟨declaration, ?_, hasks⟩, ?_, List.prefix_append _ _, List.prefix_append _ _⟩
  · rw [get?_extend _ hfresh, if_pos rfl]
  · intro other hother
    rw [get?_extend _ hfresh, if_neg hother]

/-- A call that succeeds declares one more name. -/
theorem Call.size_of_apply (h : call.apply before = .ok after) : after.size = before.size + 1 := by
  rcases exists_extend h with ⟨-, declaration, -, rfl⟩
  simp [size, Schema.extend]

/-- A call that succeeds leads from a declared schema to one. -/
theorem Call.isDeclared_of_apply (hbefore : before.IsDeclared) (h : call.apply before = .ok after) :
    after.IsDeclared := by
  cases call with
  | declare name scope => exact .declare hbefore h
  | declareConstant name value => exact .declareConstant hbefore h

/-! ## Calls one after the other -/

/-- What calls report one after the other, whether they fail or not, and the schema that they leave. -/
def performAll : List (Call α) → Schema α → List (Except (CompileError α) Unit) × Schema α
  | [], schema => ([], schema)
  | call :: calls, schema =>
    let (report, after) := perform call.steps schema
    let (reports, last) := performAll calls after
    (report :: reports, last)

/-- Calls lead from a declared schema to one, which has one more name for every call that succeeds. -/
theorem performAll_isDeclared (calls : List (Call α)) (h : schema.IsDeclared) :
    (performAll calls schema).2.IsDeclared ∧
      (performAll calls schema).2.size =
        schema.size + (performAll calls schema).1.countP (·.isOk) := by
  induction calls generalizing schema with
  | nil => exact ⟨h, rfl⟩
  | cons call calls ih =>
    rw [performAll, perform_steps]
    cases hresult : call.apply schema with
    | error e => simpa [settle, Except.isOk, Except.toBool] using ih h
    | ok after =>
      rcases ih (Call.isDeclared_of_apply h hresult) with ⟨hdeclared, hsize⟩
      refine ⟨hdeclared, ?_⟩
      have hcount (reports : List (Except (CompileError α) Unit)) :
          (Except.ok () :: reports).countP (·.isOk) = reports.countP (·.isOk) + 1 :=
        List.countP_cons_of_pos rfl
      rw [settle, hcount, hsize, Call.size_of_apply hresult]
      omega

/-- The reports of calls on the empty schema. -/
def reports (calls : List (Call α)) : List (Except (CompileError α) Unit) :=
  (performAll calls .empty).1

/-- The schema that calls on the empty one leave. -/
def reached (calls : List (Call α)) : Schema α :=
  (performAll calls .empty).2

/-- The names are those of a scope, in the order of the names. -/
def InNameOrder (names : List String) (scopes : Std.TreeMap String Scope) (scope : Scope) : Prop :=
  names.Pairwise (· < ·) ∧ ∀ name, name ∈ names ↔ scopes[name]? = some scope

omit [Numeric α] in
/-- The entries of a table are in the order of the names. -/
theorem inNameOrder_namesOf (scopes : Std.TreeMap String Scope) (scope : Scope) :
    InNameOrder (namesOf scopes.toList scope) scopes scope := by
  constructor
  · rw [namesOf, List.pairwise_map]
    refine (Std.TreeMap.ordered_keys_toList.filter _).imp ?_
    intro entry next hordered
    exact compare_lt_iff_lt.mp hordered
  · intro name
    rw [mem_namesOf, Std.TreeMap.mem_toList_iff_getElem?_eq_some]

/-- Whatever calls are made from the empty schema, whether they succeed or fail, the schema is
well-formed and declares a name for every call that succeeded. A further call that fails leaves it as it
is, and one that succeeds adds its name and changes nothing else. The schema of two tables is well-formed
and numbers the names of a scope in their order. -/
theorem reached_isWellFormed (calls : List (Call α)) :
    (reached calls).IsWellFormed ∧ (reached calls).size = (reports calls).countP (·.isOk) ∧
      (∀ call : Call α, match perform call.steps (reached calls) with
        | (.error _, after) => after = reached calls
        | (.ok (), after) => call.Adds (reached calls) after) ∧
      ∀ scopes constants (schema : Schema α), ofTables scopes constants = .ok schema →
        schema.IsWellFormed ∧ InNameOrder schema.scalarNames scopes .scalar ∧
          InNameOrder schema.alternativeNames scopes .alternative := by
  rcases performAll_isDeclared calls IsDeclared.empty with ⟨hdeclared, hsize⟩
  refine ⟨hdeclared.isWellFormed, ?_, ?_, ?_⟩
  · exact hsize.trans (Nat.zero_add _)
  · intro call
    rw [perform_steps]
    cases hresult : call.apply (reached calls) with
    | error e => rfl
    | ok after => exact Call.adds_of_apply hresult
  · intro scopes constants schema h
    refine ⟨(IsDeclared.ofTables h).isWellFormed, ?_⟩
    rcases ofTables_eq_ok.mp h with ⟨-, rfl⟩
    exact ⟨inNameOrder_namesOf scopes .scalar, inNameOrder_namesOf scopes .alternative⟩

/-- A name that is none and a name that is declared already are refused between two variables. -/
example : (reached [.declare "income" .scalar, .declare "2fast" .scalar,
    .declareConstant "income" (1 : Float), .declare "autos" .scalar]).scalarNames =
      ["income", "autos"] := by
  decide

end Schema
end DiscreteChoice
