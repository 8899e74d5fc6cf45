import DiscreteChoice.Proofs.Numeric.Laws
import DiscreteChoice.Proofs.Outcome
import DiscreteChoice.Schema.Basic

/-!
# Declaring variables

What one declaration does to a schema, and from it what holds of every schema that declarations lead
to: its names can be spelled in an expression, every slot belongs to the name that it was given to,
and every constant is finite. Declaring the entries of two tables succeeds exactly when each of them
can be declared, and then the slots number the names of a scope in order.

Main results:

- Theorems `declare_eq_ok` and `declareConstant_eq_ok`: when a declaration is accepted, and what it
  adds.
- Theorem `IsDeclared.isSound`: what holds of every schema that declarations lead to.
- Theorem `ofTables_eq_ok`: when the entries of two tables are accepted, and what their schema is.
- Theorem `IsDeclared.ofTables`: the schema of two tables is one that declarations lead to.
-/

namespace DiscreteChoice
namespace Schema

variable {α : Type}

/-! ## One declaration -/

/-- Adds a declaration, with its name behind the others of its scope when it has a slot. -/
def extend (schema : Schema α) (name : String) (declaration : Declaration α) : Schema α where
  declarations := schema.declarations ++ [(name, declaration)]
  scalarNames := schema.scalarNames ++ if declaration.scope = .scalar then [name] else []
  alternativeNames :=
    schema.alternativeNames ++ if declaration.scope = .alternative then [name] else []

/-- An extension adds its own name and changes no other. -/
theorem get?_extend {schema : Schema α} {name : String} (declaration : Declaration α)
    (fresh : schema.get? name = none) (other : String) :
    (schema.extend name declaration).get? other =
      if other = name then some declaration else schema.get? other :=
  get?_declareAs schema declaration fresh other

/-- The declaration of the next variable of a scope. Constants are not among the variables. -/
def next? (schema : Schema α) : Scope → Option (Declaration α)
  | .scalar => some (.scalar schema.scalarNames.length)
  | .alternative => some (.alternative schema.alternativeNames.length)
  | .zone => some .zone
  | .matrix => some .matrix
  | .constant => none

/-- A name can be declared when it is spelled as one and is not declared yet. -/
theorem checkName_eq_ok {schema : Schema α} {name : String} :
    schema.checkName name = .ok () ↔ Token.isName name = true ∧ schema.get? name = none := by
  rw [checkName, contains]
  split_ifs with hname hdeclared
  · simp_all
  · simp [Option.isSome_iff_ne_none.mp hdeclared]
  · simp_all

/-- A variable is accepted when its name can be declared and its scope is not that of constants. -/
theorem declare_eq_ok {schema schema' : Schema α} {name : String} {scope : Scope} :
    schema.declare name scope = .ok schema' ↔
      Token.isName name = true ∧ schema.get? name = none ∧
        ∃ declaration, schema.next? scope = some declaration ∧
          schema' = schema.extend name declaration := by
  have hdeclare : schema.declare name scope = schema.checkName name >>= fun _ =>
      match schema.next? scope with
      | some declaration => .ok (schema.extend name declaration)
      | none => .error (.invalidModel (.constantWithoutValue name)) := by
    cases scope <;> simp [declare, next?, extend, declareAs, Declaration.scope]
  rw [hdeclare, bind_eq_ok]
  constructor
  · rintro ⟨⟨⟩, hcheck, h⟩
    rcases checkName_eq_ok.mp hcheck with ⟨hname, hfresh⟩
    split at h
    · rename_i declaration hnext
      exact ⟨hname, hfresh, declaration, hnext, (Except.ok.inj h).symm⟩
    · cases h
  · rintro ⟨hname, hfresh, declaration, hnext, rfl⟩
    exact ⟨(), checkName_eq_ok.mpr ⟨hname, hfresh⟩, by rw [hnext]⟩

/-- A constant is accepted when its name can be declared and it is finite. -/
theorem declareConstant_eq_ok [Numeric α] {schema schema' : Schema α} {name : String} {value : α} :
    schema.declareConstant name value = .ok schema' ↔
      Token.isName name = true ∧ schema.get? name = none ∧ Numeric.isFinite value = true ∧
        schema' = schema.extend name (.constant value) := by
  have hextend : schema.declareAs name (.constant value) =
      schema.extend name (.constant value) := by
    simp [extend, declareAs, Declaration.scope]
  rw [declareConstant, bind_eq_ok, hextend]
  constructor
  · rintro ⟨⟨⟩, hcheck, h⟩
    rcases checkName_eq_ok.mp hcheck with ⟨hname, hfresh⟩
    split_ifs at h with hfinite
    exact ⟨hname, hfresh, hfinite, (Except.ok.inj h).symm⟩
  · rintro ⟨hname, hfresh, hfinite, rfl⟩
    exact ⟨(), checkName_eq_ok.mpr ⟨hname, hfresh⟩, if_pos hfinite⟩

/-! ## Every declared schema -/

/-- The declaration that comes next in a scope is of the scope. -/
theorem scope_of_next? {schema : Schema α} {scope : Scope} {declaration : Declaration α}
    (h : schema.next? scope = some declaration) : declaration.scope = scope := by
  cases scope <;> simp_all [next?, Declaration.scope, eq_comm]

section Invariant

variable [Numeric α]

/-- The schemas that declarations lead to, one after the other. -/
inductive IsDeclared : Schema α → Prop
  | empty : IsDeclared .empty
  | declare {schema schema' : Schema α} {name : String} {scope : Scope}
      (before : IsDeclared schema) (step : schema.declare name scope = .ok schema') :
      IsDeclared schema'
  | declareConstant {schema schema' : Schema α} {name : String} {value : α}
      (before : IsDeclared schema) (step : schema.declareConstant name value = .ok schema') :
      IsDeclared schema'

/-- Every declared name can be spelled in an expression, every slot belongs to its name, and every
constant is finite. -/
structure IsSound (schema : Schema α) : Prop where
  isName {name : String} {declaration : Declaration α} :
    schema.get? name = some declaration → Token.isName name = true
  scalar {name : String} {slot : Nat} :
    schema.get? name = some (.scalar slot) → schema.scalarNames[slot]? = some name
  alternative {name : String} {slot : Nat} :
    schema.get? name = some (.alternative slot) → schema.alternativeNames[slot]? = some name
  constant {name : String} {value : α} :
    schema.get? name = some (.constant value) → Numeric.isFinite value = true

/-- A declaration has the next slot of its scope, or a finite value. -/
def IsNext (schema : Schema α) (declaration : Declaration α) : Prop :=
  schema.next? declaration.scope = some declaration ∨
    ∃ value, declaration = .constant value ∧ Numeric.isFinite value = true

/-- A declaration of a new name keeps a schema sound. -/
theorem IsSound.extend {schema : Schema α} (h : schema.IsSound) {name : String}
    {declaration : Declaration α} (hname : Token.isName name = true)
    (hfresh : schema.get? name = none) (hnext : schema.IsNext declaration) :
    (schema.extend name declaration).IsSound where
  isName {other found} hget := by
    rw [get?_extend declaration hfresh] at hget
    split_ifs at hget with hother
    · rwa [hother]
    · exact h.isName hget
  scalar {other slot} hget := by
    rw [get?_extend declaration hfresh] at hget
    split_ifs at hget with hother
    · rcases Option.some.inj hget with rfl
      obtain rfl : schema.scalarNames.length = slot := by
        simpa [IsNext, Declaration.scope, next?] using hnext
      simp [Schema.extend, Declaration.scope, hother]
    · have hslot := h.scalar hget
      rw [Schema.extend, List.getElem?_append_left (List.getElem?_eq_some_iff.mp hslot).1, hslot]
  alternative {other slot} hget := by
    rw [get?_extend declaration hfresh] at hget
    split_ifs at hget with hother
    · rcases Option.some.inj hget with rfl
      obtain rfl : schema.alternativeNames.length = slot := by
        simpa [IsNext, Declaration.scope, next?] using hnext
      simp [Schema.extend, Declaration.scope, hother]
    · have hslot := h.alternative hget
      rw [Schema.extend, List.getElem?_append_left (List.getElem?_eq_some_iff.mp hslot).1, hslot]
  constant {other value} hget := by
    rw [get?_extend declaration hfresh] at hget
    split_ifs at hget with hother
    · rcases Option.some.inj hget with rfl
      simpa [IsNext, Declaration.scope, next?] using hnext
    · exact h.constant hget

/-- Every schema that declarations lead to is sound. -/
theorem IsDeclared.isSound {schema : Schema α} (h : schema.IsDeclared) : schema.IsSound := by
  induction h with
  | empty => exact ⟨by simp, by simp, by simp, by simp⟩
  | declare _ step ih =>
    rcases declare_eq_ok.mp step with ⟨hname, hfresh, declaration, hnext, rfl⟩
    exact ih.extend hname hfresh (.inl (by rwa [scope_of_next? hnext]))
  | declareConstant _ step ih =>
    rcases declareConstant_eq_ok.mp step with ⟨hname, hfresh, hfinite, rfl⟩
    exact ih.extend hname hfresh (.inr ⟨_, rfl, hfinite⟩)

end Invariant

/-! ## Tables -/

/-- The names of a list that are of a scope, in order. -/
def namesOf (entries : List (String × Scope)) (scope : Scope) : List String :=
  (entries.filter (·.2 = scope)).map (·.1)

/-- The declaration of a variable of a list, whose slot is the place of its name among those of its
scope. -/
def declarationAmong (entries : List (String × Scope)) (name : String) :
    Scope → Option (Declaration α)
  | .scalar => some (.scalar ((namesOf entries .scalar).idxOf name))
  | .alternative => some (.alternative ((namesOf entries .alternative).idxOf name))
  | .zone => some .zone
  | .matrix => some .matrix
  | .constant => none

/-- The schema of a list of variables and a list of constants, the variables first. -/
def ofLists (entries : List (String × Scope)) (constants : List (String × α)) : Schema α where
  declarations :=
    (entries.filterMap fun entry =>
      (declarationAmong entries entry.1 entry.2).map (entry.1, ·)) ++
    constants.map fun entry => (entry.1, .constant entry.2)
  scalarNames := namesOf entries .scalar
  alternativeNames := namesOf entries .alternative

theorem namesOf_append (entries : List (String × Scope)) (name : String) (scope other : Scope) :
    namesOf (entries ++ [(name, scope)]) other =
      namesOf entries other ++ if scope = other then [name] else [] := by
  by_cases h : scope = other <;> simp [namesOf, h]

theorem mem_namesOf {entries : List (String × Scope)} {name : String} {scope : Scope} :
    name ∈ namesOf entries scope ↔ (name, scope) ∈ entries := by
  simp [namesOf]

/-- The variables in front keep their slots. -/
theorem declarationAmong_append {entries : List (String × Scope)} {entry : String × Scope}
    (hentry : entry ∈ entries) (name : String) (scope : Scope) :
    (declarationAmong (entries ++ [(name, scope)]) entry.1 entry.2 : Option (Declaration α)) =
      declarationAmong entries entry.1 entry.2 := by
  have hslot (other : Scope) (h : entry.2 = other) :
      (namesOf (entries ++ [(name, scope)]) other).idxOf entry.1 =
        (namesOf entries other).idxOf entry.1 := by
    rw [namesOf_append, List.idxOf_append_of_mem]
    rw [mem_namesOf, ← h]
    exact hentry
  cases h : entry.2 <;> simp [declarationAmong, hslot _ h]

/-- The variable behind the others has the next slot. -/
theorem declarationAmong_self {entries : List (String × Scope)} {name : String}
    (hfresh : name ∉ entries.map (·.1)) (scope : Scope) (constants : List (String × α)) :
    declarationAmong (entries ++ [(name, scope)]) name scope =
      (ofLists entries constants).next? scope := by
  have hslot : (namesOf (entries ++ [(name, scope)]) scope).idxOf name =
      (namesOf entries scope).length := by
    have hnew : name ∉ namesOf entries scope := by
      rw [mem_namesOf]
      exact fun h => hfresh (List.mem_map.mpr ⟨_, h, rfl⟩)
    rw [namesOf_append, if_pos rfl, List.idxOf_append_of_notMem hnew]
    simp
  cases scope <;> simp [declarationAmong, next?, ofLists, hslot]

/-- One more variable extends the schema. -/
theorem ofLists_append_variable {entries : List (String × Scope)} {name : String} {scope : Scope}
    {declaration : Declaration α} (hfresh : name ∉ entries.map (·.1))
    (hnext : (ofLists entries ([] : List (String × α))).next? scope = some declaration) :
    ofLists (entries ++ [(name, scope)]) [] =
      (ofLists entries []).extend name declaration := by
  have hself : declarationAmong (entries ++ [(name, scope)]) name scope = some declaration := by
    rw [declarationAmong_self hfresh scope [], hnext]
  have hold : (entries.filterMap fun entry =>
      (declarationAmong (entries ++ [(name, scope)]) entry.1 entry.2 :
        Option (Declaration α)).map (entry.1, ·)) =
      entries.filterMap fun entry => (declarationAmong entries entry.1 entry.2).map (entry.1, ·) :=
    List.filterMap_congr fun entry hentry => by rw [declarationAmong_append hentry]
  have hscope := scope_of_next? hnext
  simp [ofLists, extend, namesOf_append, hold, hself, hscope]

/-- One more constant extends the schema. -/
theorem ofLists_append_constant (entries : List (String × Scope)) (constants : List (String × α))
    (name : String) (value : α) :
    ofLists entries (constants ++ [(name, value)]) =
      (ofLists entries constants).extend name (.constant value) := by
  simp [ofLists, extend, Declaration.scope]

/-- The names of the schema are those of the two lists. -/
theorem map_fst_ofLists {entries : List (String × Scope)} (constants : List (String × α))
    (hscope : ∀ entry ∈ entries, entry.2 ≠ .constant) :
    (ofLists entries constants).declarations.map (·.1) =
      entries.map (·.1) ++ constants.map (·.1) := by
  have hnames : entries.filterMap (fun entry =>
      ((declarationAmong entries entry.1 entry.2 : Option (Declaration α)).map
        (entry.1, ·)).map (·.1)) = entries.map (·.1) := by
    rw [← List.filterMap_eq_map]
    refine List.filterMap_congr fun entry hentry => ?_
    have := hscope entry hentry
    cases h : entry.2 <;> simp_all [declarationAmong]
  rw [ofLists, List.map_append, List.map_filterMap, hnames, List.map_map]
  rfl

/-- A name is not declared when it is not among the names. -/
theorem get?_eq_none_iff {schema : Schema α} {name : String} :
    schema.get? name = none ↔ name ∉ schema.declarations.map (·.1) := by
  simp only [get?, List.lookup_eq_none_iff, bne_iff_ne, List.mem_map, not_exists, not_and]
  exact forall₂_congr fun entry _ => ne_comm

/-- The variables of a list can be declared in order: their names are spelled as names and differ,
and no scope is that of constants. -/
def CanDeclare (entries : List (String × Scope)) : Prop :=
  (∀ entry ∈ entries, Token.isName entry.1 = true ∧ entry.2 ≠ .constant) ∧
    (entries.map (·.1)).Nodup

/-- There is room for one more variable when its name is new. -/
theorem canDeclare_append {entries : List (String × Scope)} {name : String} {scope : Scope} :
    CanDeclare (entries ++ [(name, scope)]) ↔
      CanDeclare entries ∧ Token.isName name = true ∧ scope ≠ .constant ∧
        name ∉ entries.map (·.1) := by
  simp only [CanDeclare, List.forall_mem_append, List.forall_mem_singleton, List.map_append,
    List.map_cons, List.map_nil, List.nodup_append_comm, List.singleton_append, List.nodup_cons]
  tauto

/-- Declaring the variables of a list succeeds when each of them can be declared. -/
theorem foldlM_declare_eq_ok {entries : List (String × Scope)} {schema : Schema α} :
    entries.foldlM (fun schema entry => schema.declare entry.1 entry.2) empty = .ok schema ↔
      CanDeclare entries ∧ schema = ofLists entries [] := by
  refine foldlM_eq_ok CanDeclare (fun entries => ofLists entries []) ⟨by simp, by simp⟩
    (fun xs x h => (canDeclare_append.mp h).1) ?_
  rintro entries ⟨name, scope⟩ schema hentries
  rw [declare_eq_ok, canDeclare_append, get?_eq_none_iff,
    map_fst_ofLists [] fun entry h => (hentries.1 entry h).2, List.map_nil, List.append_nil]
  constructor
  · rintro ⟨hname, hfresh, declaration, hnext, rfl⟩
    refine ⟨⟨hentries, hname, ?_, hfresh⟩, (ofLists_append_variable hfresh hnext).symm⟩
    rintro rfl
    cases hnext
  · rintro ⟨⟨-, hname, hscope, hfresh⟩, rfl⟩
    have hnext : ∃ declaration, (ofLists entries ([] : List (String × α))).next? scope =
        some declaration := by
      cases scope <;> simp_all [next?]
    rcases hnext with ⟨declaration, hnext⟩
    exact ⟨hname, hfresh, declaration, hnext, ofLists_append_variable hfresh hnext⟩

variable [Numeric α]

/-- The constants of a list can be declared in order behind variables: their names are spelled as
names, differ, and differ from those of the variables, and every value is finite. -/
def CanDeclareConstants (entries : List (String × Scope)) (constants : List (String × α)) : Prop :=
  (∀ entry ∈ constants, Token.isName entry.1 = true ∧ Numeric.isFinite entry.2 = true ∧
    entry.1 ∉ entries.map (·.1)) ∧ (constants.map (·.1)).Nodup

/-- There is room for one more constant when its name is new. -/
theorem canDeclareConstants_append {entries : List (String × Scope)} {constants : List (String × α)}
    {name : String} {value : α} :
    CanDeclareConstants entries (constants ++ [(name, value)]) ↔
      CanDeclareConstants entries constants ∧ Token.isName name = true ∧
        Numeric.isFinite value = true ∧ name ∉ entries.map (·.1) ∧ name ∉ constants.map (·.1) := by
  simp only [CanDeclareConstants, List.forall_mem_append, List.forall_mem_singleton,
    List.map_append, List.map_cons, List.map_nil, List.nodup_append_comm, List.singleton_append,
    List.nodup_cons]
  tauto

/-- Declaring constants behind variables succeeds when each of them can be declared. -/
theorem foldlM_declareConstant_eq_ok {entries : List (String × Scope)}
    {constants : List (String × α)} {schema : Schema α} (hentries : CanDeclare entries) :
    constants.foldlM (fun schema entry => schema.declareConstant entry.1 entry.2)
        (ofLists entries []) = .ok schema ↔
      CanDeclareConstants entries constants ∧ schema = ofLists entries constants := by
  refine foldlM_eq_ok (CanDeclareConstants entries) (ofLists entries) ⟨by simp, by simp⟩
    (fun xs x h => (canDeclareConstants_append.mp h).1) ?_
  rintro constants ⟨name, value⟩ schema hconstants
  rw [declareConstant_eq_ok, canDeclareConstants_append, get?_eq_none_iff,
    map_fst_ofLists constants fun entry h => (hentries.1 entry h).2, ofLists_append_constant,
    List.mem_append, not_or]
  tauto

/-- The entries of two tables can be declared: no variable is of the scope of constants, every name
is spelled as one, no name is in both tables, and every constant is finite. -/
structure Declarable (scopes : Std.TreeMap String Scope) (constants : Std.TreeMap String α) :
    Prop where
  scope (name : String) : scopes[name]? ≠ some .constant
  isName (name : String) : name ∈ scopes ∨ name ∈ constants → Token.isName name = true
  distinct (name : String) : name ∈ scopes → name ∉ constants
  finite (name : String) (value : α) :
    constants[name]? = some value → Numeric.isFinite value = true

variable {scopes : Std.TreeMap String Scope} {constants : Std.TreeMap String α}

/-- Tables can be declared when their entries can, in the order of the names. -/
theorem declarable_iff : Declarable scopes constants ↔
    CanDeclare scopes.toList ∧ CanDeclareConstants scopes.toList constants.toList := by
  have hmem {β : Type} {table : Std.TreeMap String β} {name : String} :
      name ∈ table.toList.map (·.1) ↔ name ∈ table := by
    rw [Std.TreeMap.map_fst_toList_eq_keys, Std.TreeMap.mem_keys]
  have hnodup {β : Type} (table : Std.TreeMap String β) : (table.toList.map (·.1)).Nodup := by
    rw [Std.TreeMap.map_fst_toList_eq_keys]
    exact Std.TreeMap.nodup_keys
  have hname {β : Type} {table : Std.TreeMap String β} {entry : String × β}
      (h : entry ∈ table.toList) : entry.1 ∈ table :=
    hmem.mp (List.mem_map.mpr ⟨entry, h, rfl⟩)
  constructor
  · intro h
    refine ⟨⟨fun entry hentry => ⟨h.isName _ (.inl (hname hentry)), ?_⟩, hnodup scopes⟩,
      fun entry hentry => ⟨h.isName _ (.inr (hname hentry)), ?_, ?_⟩, hnodup constants⟩
    · have := h.scope entry.1
      rintro hscope
      rw [← hscope, Std.TreeMap.mem_toList_iff_getElem?_eq_some.mp hentry] at this
      exact this rfl
    · exact h.finite _ _ (Std.TreeMap.mem_toList_iff_getElem?_eq_some.mp hentry)
    · rw [hmem]
      exact fun hscope => h.distinct _ hscope (hname hentry)
  · rintro ⟨⟨hvariables, -⟩, hconstants, -⟩
    refine ⟨?_, ?_, ?_, ?_⟩
    · intro name hscope
      exact (hvariables _ (Std.TreeMap.mem_toList_iff_getElem?_eq_some.mpr hscope)).2 rfl
    · rintro name (h | h)
      · rcases List.mem_map.mp (hmem.mpr h) with ⟨entry, hentry, rfl⟩
        exact (hvariables entry hentry).1
      · rcases List.mem_map.mp (hmem.mpr h) with ⟨entry, hentry, rfl⟩
        exact (hconstants entry hentry).1
    · intro name hscope hconstant
      rcases List.mem_map.mp (hmem.mpr hconstant) with ⟨entry, hentry, rfl⟩
      exact (hconstants entry hentry).2.2 (hmem.mpr hscope)
    · intro name value h
      exact (hconstants _ (Std.TreeMap.mem_toList_iff_getElem?_eq_some.mpr h)).2.1

/-- The schema of two tables lists their entries in the order of the names, the variables first, and
there is one exactly when all entries can be declared. -/
theorem ofTables_eq_ok {schema : Schema α} : ofTables scopes constants = .ok schema ↔
    Declarable scopes constants ∧ schema = ofLists scopes.toList constants.toList := by
  simp only [ofTables, bind_eq_ok, foldlM_declare_eq_ok, declarable_iff]
  constructor
  · rintro ⟨_, ⟨hvariables, rfl⟩, h⟩
    rcases (foldlM_declareConstant_eq_ok hvariables).mp h with ⟨hconstants, rfl⟩
    exact ⟨⟨hvariables, hconstants⟩, rfl⟩
  · rintro ⟨⟨hvariables, hconstants⟩, rfl⟩
    exact ⟨_, ⟨hvariables, rfl⟩, (foldlM_declareConstant_eq_ok hvariables).mpr ⟨hconstants, rfl⟩⟩

omit [Numeric α] in
/-- In a schema without a repeated name, a name has the declaration that is listed with it. -/
theorem get?_eq_some_iff {schema : Schema α} (hnodup : (schema.declarations.map (·.1)).Nodup)
    {name : String} {declaration : Declaration α} :
    schema.get? name = some declaration ↔ (name, declaration) ∈ schema.declarations := by
  rw [get?, List.lookup_eq_some_iff]
  constructor
  · rintro ⟨before, behind, h, -⟩
    simp [h]
  · intro hmem
    rcases List.append_of_mem hmem with ⟨before, behind, h⟩
    rw [h, List.map_append, List.map_cons, List.nodup_append] at hnodup
    refine ⟨before, behind, h, fun entry hentry => bne_iff_ne.mpr fun hname => ?_⟩
    exact hnodup.2.2 entry.1 (List.mem_map.mpr ⟨entry, hentry, rfl⟩) name List.mem_cons_self
      hname.symm

/-- The constants of a schema of two tables are those of the second table. -/
theorem get?_ofLists_constant (h : Declarable scopes constants) {name : String} {value : α} :
    (ofLists scopes.toList constants.toList).get? name = some (.constant value) ↔
      constants[name]? = some value := by
  rcases declarable_iff.mp h with ⟨⟨hentries, hnames⟩, hconstants, hnames'⟩
  have hnodup : ((ofLists scopes.toList constants.toList).declarations.map (·.1)).Nodup := by
    rw [map_fst_ofLists _ fun entry hentry => (hentries entry hentry).2, List.nodup_append']
    refine ⟨hnames, hnames', fun name hname hname' => ?_⟩
    rcases List.mem_map.mp hname' with ⟨entry, hentry, rfl⟩
    exact (hconstants entry hentry).2.2 hname
  rw [get?_eq_some_iff hnodup, ← Std.TreeMap.mem_toList_iff_getElem?_eq_some, ofLists,
    List.mem_append, List.mem_filterMap, List.mem_map]
  constructor
  · rintro (⟨entry, -, hentry⟩ | ⟨entry, hentry, heq⟩)
    · rcases Option.map_eq_some_iff.mp hentry with ⟨declaration, hamong, hpair⟩
      obtain ⟨rfl, rfl⟩ := Prod.mk.inj hpair
      cases hscope : entry.2 <;> simp [declarationAmong, hscope] at hamong
    · obtain ⟨rfl, hvalue⟩ := Prod.mk.inj heq
      cases hvalue
      exact hentry
  · exact fun hmem => .inr ⟨_, hmem, rfl⟩

/-- Declaring the entries of two tables leads to their schema. -/
theorem IsDeclared.ofTables {schema : Schema α} (h : ofTables scopes constants = .ok schema) :
    schema.IsDeclared := by
  rw [Schema.ofTables, bind_eq_ok] at h
  rcases h with ⟨first, hvariables, hconstants⟩
  have hfirst : first.IsDeclared :=
    foldlM_induction (fun _ _ _ before step => .declare before step) .empty hvariables
  exact foldlM_induction (fun _ _ _ before step => .declareConstant before step) hfirst hconstants

end Schema
end DiscreteChoice
