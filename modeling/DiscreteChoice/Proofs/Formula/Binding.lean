import DiscreteChoice.Proofs.Expr.Mentions
import DiscreteChoice.Proofs.Formula.Folding

/-!
# Binding the variables of an expression

An expression compiles when each of its variables is declared and has indices that its scope takes,
whether the variable stands in a part that folding keeps or not. Otherwise the first variable that does
not fit is to blame, and the error is at its position.

Main results:

- Theorem `Declaration.exists_bind_iff`: the indices that a declared variable takes.
- Theorem `Expr.discard_bind`: an expression is bound as its variables in a row are.
- Theorem `Formula.compile_eq_ok_iff_fits`: a text compiles when all of its variables fit, and fails at
  the first one that does not.
-/

namespace DiscreteChoice

variable {α : Type}

/-! ## Indices and scopes -/

namespace Index

/-- The index names a zone. -/
def IsZone (i : Index) : Prop :=
  i = .origin ∨ i = .destination

/-- The index names a time period. -/
def IsPeriod (i : Index) : Prop :=
  i = .period ∨ ∃ n, i = .literal n

/-- The indices that name a zone are bound to one. -/
theorem exists_zoneRole_iff {i : Index} (name : String) :
    (∃ role, (i.zoneRole name : Except (SyntaxFault α) ZoneRole) = .ok role) ↔ i.IsZone := by
  cases i <;> simp [zoneRole, zoneRole?, IsZone]

/-- The indices that name a time period are bound to one. -/
theorem exists_periodRole_iff {i : Index} (name : String) :
    (∃ role, (i.periodRole name : Except (SyntaxFault α) PeriodRole) = .ok role) ↔ i.IsPeriod := by
  cases i <;> simp [periodRole, periodRole?, IsPeriod]

/-- An index that names no zone is refused as that. -/
theorem zoneRole_eq_error {i : Index} {name : String} {fault : SyntaxFault α} :
    (i.zoneRole name : Except (SyntaxFault α) ZoneRole) = .error fault ↔
      fault = .zoneIndexExpected name i ∧ ¬ i.IsZone := by
  cases i <;> simp [zoneRole, zoneRole?, IsZone, eq_comm]

/-- An index that names no time period is refused as that. -/
theorem periodRole_eq_error {i : Index} {name : String} {fault : SyntaxFault α} :
    (i.periodRole name : Except (SyntaxFault α) PeriodRole) = .error fault ↔
      fault = .periodIndexExpected name i ∧ ¬ i.IsPeriod := by
  cases i <;> simp [periodRole, periodRole?, IsPeriod, eq_comm]

end Index

/-- A variable of the declaration takes the indices: those of a scalar variable and a constant are
none, an alternative variable may have the alternative, a zone variable has one zone, and a matrix
variable has two zones and maybe a time period. -/
inductive Declaration.Takes : Declaration α → List Index → Prop
  | constant (value : α) : Takes (.constant value) []
  | scalar (slot : Nat) : Takes (.scalar slot) []
  | alternative (slot : Nat) : Takes (.alternative slot) []
  | ofAlternative (slot : Nat) : Takes (.alternative slot) [.alternative]
  | zone {i : Index} (isZone : i.IsZone) : Takes .zone [i]
  | matrix {row column : Index} (isRow : row.IsZone) (isColumn : column.IsZone) :
      Takes .matrix [row, column]
  | matrixOf {row column time : Index} (isRow : row.IsZone) (isColumn : column.IsZone)
      (isPeriod : time.IsPeriod) : Takes .matrix [row, column, time]

/-- The fault says which of the indices does not fit the variable, or that their number does not. -/
def SyntaxFault.IsAbout (name : String) (indices : List Index) : SyntaxFault α → Prop
  | zoneIndexExpected found i => found = name ∧ i ∈ indices ∧ ¬ i.IsZone
  | periodIndexExpected found i => found = name ∧ i ∈ indices ∧ ¬ i.IsPeriod
  | indexMismatch _ found list => found = name ∧ list = indices
  | _ => False

/-- A declared variable is bound with the indices that it takes. -/
theorem Declaration.exists_bind_iff {declaration : Declaration α} (name : String)
    {indices : List Index} :
    (∃ node, declaration.bind name indices = .ok node) ↔ declaration.Takes indices := by
  constructor
  · rintro ⟨node, h⟩
    unfold bind at h
    split at h
    · exact .constant _
    · exact .scalar _
    · exact .alternative _
    · exact .ofAlternative _
    · rcases bind_eq_ok.mp h with ⟨role, hrole, -⟩
      exact .zone ((Index.exists_zoneRole_iff name).mp ⟨role, hrole⟩)
    · rcases bind_eq_ok.mp h with ⟨row, hrow, h⟩
      rcases bind_eq_ok.mp h with ⟨column, hcolumn, -⟩
      exact .matrix ((Index.exists_zoneRole_iff name).mp ⟨row, hrow⟩)
        ((Index.exists_zoneRole_iff name).mp ⟨column, hcolumn⟩)
    · rcases bind_eq_ok.mp h with ⟨period, hperiod, h⟩
      rcases bind_eq_ok.mp h with ⟨row, hrow, h⟩
      rcases bind_eq_ok.mp h with ⟨column, hcolumn, -⟩
      exact .matrixOf ((Index.exists_zoneRole_iff name).mp ⟨row, hrow⟩)
        ((Index.exists_zoneRole_iff name).mp ⟨column, hcolumn⟩)
        ((Index.exists_periodRole_iff name).mp ⟨period, hperiod⟩)
    · cases h
  · intro h
    cases h with
    | constant value => exact ⟨_, rfl⟩
    | scalar slot => exact ⟨_, rfl⟩
    | alternative slot => exact ⟨_, rfl⟩
    | ofAlternative slot => exact ⟨_, rfl⟩
    | zone isZone =>
      rcases (Index.exists_zoneRole_iff (α := α) name).mpr isZone with ⟨role, hrole⟩
      exact ⟨.read (.zone name role), by simp [bind, hrole]⟩
    | matrix isRow isColumn =>
      rcases (Index.exists_zoneRole_iff (α := α) name).mpr isRow with ⟨row, hrow⟩
      rcases (Index.exists_zoneRole_iff (α := α) name).mpr isColumn with ⟨column, hcolumn⟩
      exact ⟨.read (.matrix name row column .ofDecision), by simp [bind, hrow, hcolumn]⟩
    | matrixOf isRow isColumn isPeriod =>
      rcases (Index.exists_zoneRole_iff (α := α) name).mpr isRow with ⟨row, hrow⟩
      rcases (Index.exists_zoneRole_iff (α := α) name).mpr isColumn with ⟨column, hcolumn⟩
      rcases (Index.exists_periodRole_iff (α := α) name).mpr isPeriod with ⟨period, hperiod⟩
      exact ⟨.read (.matrix name row column period), by simp [bind, hrow, hcolumn, hperiod]⟩

/-- A declared variable is refused for one of its indices or for their number. -/
theorem Declaration.isAbout_of_bind {declaration : Declaration α} {name : String}
    {indices : List Index} {fault : SyntaxFault α} (h : declaration.bind name indices = .error fault) :
    fault.IsAbout name indices := by
  have hzone {i : Index} (hi : i ∈ indices)
      (h : (i.zoneRole name : Except (SyntaxFault α) ZoneRole) = .error fault) :
      fault.IsAbout name indices := by
    rcases Index.zoneRole_eq_error.mp h with ⟨rfl, hnone⟩
    exact ⟨rfl, hi, hnone⟩
  have hperiod {i : Index} (hi : i ∈ indices)
      (h : (i.periodRole name : Except (SyntaxFault α) PeriodRole) = .error fault) :
      fault.IsAbout name indices := by
    rcases Index.periodRole_eq_error.mp h with ⟨rfl, hnone⟩
    exact ⟨rfl, hi, hnone⟩
  unfold bind at h
  split at h
  · cases h
  · cases h
  · cases h
  · cases h
  · rcases bind_eq_error.mp h with h | ⟨role, -, h⟩
    · exact hzone (by simp) h
    · cases h
  · rcases bind_eq_error.mp h with h | ⟨row, -, h⟩
    · exact hzone (by simp) h
    rcases bind_eq_error.mp h with h | ⟨column, -, h⟩
    · exact hzone (by simp) h
    · cases h
  · rcases bind_eq_error.mp h with h | ⟨period, -, h⟩
    · exact hperiod (by simp) h
    rcases bind_eq_error.mp h with h | ⟨row, -, h⟩
    · exact hzone (by simp) h
    rcases bind_eq_error.mp h with h | ⟨column, -, h⟩
    · exact hzone (by simp) h
    · cases h
  · rcases Except.error.inj h with rfl
    exact ⟨rfl, rfl⟩

/-! ## Variables and schemas -/

namespace Mention

/-- The variable as the schema binds it. -/
def bind (m : Mention) (schema : Schema α) : Except (CompileError α) (Node α) :=
  schema.bind m.name m.indices m.position

/-- The variable is declared, with indices that it takes. -/
def Fits (schema : Schema α) (m : Mention) : Prop :=
  ∃ declaration, schema.get? m.name = some declaration ∧ declaration.Takes m.indices

/-- The error says that the variable is not declared, or that its indices do not fit. -/
inductive IsBlamed (schema : Schema α) (m : Mention) : CompileError α → Prop
  | undeclared (undeclared : schema.get? m.name = none) :
      IsBlamed schema m (.unknownVariable m.name m.position)
  | misfit {declaration : Declaration α} {fault : SyntaxFault α}
      (declared : schema.get? m.name = some declaration)
      (refused : ¬ declaration.Takes m.indices) (isAbout : fault.IsAbout m.name m.indices) :
      IsBlamed schema m (.malformed ⟨m.position, fault⟩)

/-- A variable to blame does not fit. -/
theorem IsBlamed.not_fits {schema : Schema α} {m : Mention} {error : CompileError α}
    (h : m.IsBlamed schema error) : ¬ m.Fits schema := by
  rintro ⟨declaration, hdeclared, htakes⟩
  cases h with
  | undeclared hundeclared =>
    rw [hundeclared] at hdeclared
    cases hdeclared
  | misfit hfound hrefused _ =>
    rw [hfound] at hdeclared
    rcases Option.some.inj hdeclared with rfl
    exact hrefused htakes

/-- A variable that does not fit is to blame when it cannot be bound. -/
theorem isBlamed_of_bind {schema : Schema α} {m : Mention} {error : CompileError α}
    (h : m.bind schema = .error error) : m.IsBlamed schema error := by
  unfold bind Schema.bind at h
  split at h
  · rename_i hundeclared
    rcases Except.error.inj h with rfl
    exact .undeclared hundeclared
  · rename_i declaration hdeclared
    split at h
    · cases h
    · rename_i fault hfault
      rcases Except.error.inj h with rfl
      refine .misfit hdeclared (fun htakes => ?_) (Declaration.isAbout_of_bind hfault)
      rcases (Declaration.exists_bind_iff m.name).mpr htakes with ⟨node, hnode⟩
      rw [hfault] at hnode
      cases hnode

/-- A variable can be bound when it fits. -/
theorem exists_bind_iff {schema : Schema α} {m : Mention} :
    (∃ node, m.bind schema = .ok node) ↔ m.Fits schema := by
  constructor
  · rintro ⟨node, h⟩
    unfold bind Schema.bind at h
    split at h
    · cases h
    · rename_i declaration hdeclared
      split at h
      · rename_i found hfound
        exact ⟨declaration, hdeclared, (Declaration.exists_bind_iff m.name).mp ⟨found, hfound⟩⟩
      · cases h
  · intro hfits
    cases hbind : m.bind schema with
    | ok node => exact ⟨node, rfl⟩
    | error error => exact absurd hfits (isBlamed_of_bind hbind).not_fits

/-- Whether the variable can be bound. -/
def check (m : Mention) (schema : Schema α) : Except (CompileError α) Unit :=
  (m.bind schema).map fun _ => ()

/-- A variable passes the check when it fits. -/
theorem check_eq_ok {schema : Schema α} {m : Mention} :
    m.check schema = .ok () ↔ m.Fits schema := by
  rw [← exists_bind_iff, check]
  cases m.bind schema <;> simp [Except.map]

/-- A variable that does not pass the check is to blame. -/
theorem isBlamed_of_check {schema : Schema α} {m : Mention} {error : CompileError α}
    (h : m.check schema = .error error) : m.IsBlamed schema error := by
  apply isBlamed_of_bind
  rw [check] at h
  cases hbind : m.bind schema with
  | ok node =>
    rw [hbind] at h
    cases h
  | error cause =>
    rw [hbind] at h
    rw [Except.error.inj h]

end Mention

/-! ## Expressions -/

namespace Expr

mutual

/-- An expression is bound as its variables in a row are, up to the first one that fails. -/
theorem discard_bind (schema : Schema α) :
    ∀ e : Expr α, (e.bind schema).map (fun _ => ()) = forM e.mentions (·.check schema)
  | constant _ => rfl
  | reference name indices position => by
    rw [mentions, List.forM_cons, List.forM_nil, Mention.check, Mention.bind, Expr.bind]
    cases schema.bind name indices position <;> rfl
  | unary op operand => by
    rw [mentions, ← discard_bind schema operand, Expr.bind]
    cases operand.bind schema <;> rfl
  | binary op lhs rhs => by
    rw [mentions, List.forM_append, ← discard_bind schema lhs, ← discard_bind schema rhs, Expr.bind]
    cases lhs.bind schema <;> cases rhs.bind schema <;> rfl
  | conditional c t f => by
    rw [mentions, List.forM_append, List.forM_append, ← discard_bind schema c,
      ← discard_bind schema t, ← discard_bind schema f, Expr.bind]
    cases c.bind schema <;> cases t.bind schema <;> cases f.bind schema <;> rfl
  | call function args => by
    rw [mentions, ← discard_bindAll schema args, Expr.bind]
    cases bindAll schema args <;> rfl

/-- A list of expressions is bound as its variables in a row are. -/
theorem discard_bindAll (schema : Schema α) :
    ∀ es : List (Expr α),
      (bindAll schema es).map (fun _ => ()) = forM (mentionsOfAll es) (·.check schema)
  | [] => rfl
  | e :: es => by
    rw [mentionsOfAll, List.forM_append, ← discard_bind schema e, ← discard_bindAll schema es,
      bindAll]
    cases e.bind schema <;> cases bindAll schema es <;> rfl

end

/-- An expression that cannot be bound has a first variable that does not fit. -/
theorem exists_isBlamed_of_bind {schema : Schema α} {e : Expr α} {error : CompileError α}
    (h : e.bind schema = .error error) :
    ∃ front m back, e.mentions = front ++ m :: back ∧ (∀ other ∈ front, other.Fits schema) ∧
      m.IsBlamed schema error := by
  have hchecks := discard_bind schema e
  rw [h] at hchecks
  rcases exists_of_forM_eq_error hchecks.symm with ⟨front, m, back, hmentions, hfront, hm⟩
  exact ⟨front, m, back, hmentions, fun other hother => Mention.check_eq_ok.mp (hfront other hother),
    Mention.isBlamed_of_check hm⟩

end Expr

/-! ## Texts -/

namespace Formula

variable [Numeric α] {text : String} {schema : Schema α}

/-- A text fails to compile when it cannot be read, or when its variables cannot be bound. -/
theorem compile_eq_error {error : CompileError α} :
    compile text schema = .error error ↔
      (∃ cause, Expr.ofText text = .error cause ∧ error = .malformed cause) ∨
        ∃ e, Expr.ofText text = .ok e ∧ e.bind schema = .error error := by
  unfold compile ofExpr
  cases hparse : (Expr.ofText text : Except (SyntaxError α) (Expr α)) with
  | error cause => simp [eq_comm]
  | ok e => simp [bind_eq_error]

/-- The variables of a text come in the order of their positions. The text compiles when all of them
are declared, with indices that they take. When it does not, the error blames the first variable that
does not fit. -/
theorem compile_eq_ok_iff_fits {e : Expr α} (h : Expr.ofText text = .ok e) (schema : Schema α) :
    (e.mentions.Pairwise fun m n => m.position < n.position) ∧
      ((∃ formula, compile text schema = .ok formula) ↔ ∀ m ∈ e.mentions, m.Fits schema) ∧
      ∀ error, compile text schema = .error error →
        ∃ m ∈ e.mentions, m.IsBlamed schema error ∧
          ∀ other ∈ e.mentions, other.position < m.position → other.Fits schema := by
  have hordered := Expr.mentions_ordered h
  have hchecks := Expr.discard_bind schema e
  refine ⟨hordered, ⟨?_, ?_⟩, ?_⟩
  · rintro ⟨formula, hcompile⟩
    rcases compile_eq_ok.mp hcompile with ⟨e', node, hparse, hbind, -⟩
    rcases Except.ok.inj (h.symm.trans hparse) with rfl
    rw [hbind] at hchecks
    intro m hm
    exact Mention.check_eq_ok.mp (forM_eq_ok.mp hchecks.symm m hm)
  · intro hfits
    have hpass : forM e.mentions (Mention.check · schema) = .ok () :=
      forM_eq_ok.mpr fun m hm => Mention.check_eq_ok.mpr (hfits m hm)
    rw [hpass] at hchecks
    cases hbind : e.bind schema with
    | error error =>
      rw [hbind] at hchecks
      cases hchecks
    | ok node => exact ⟨_, compile_eq_ok.mpr ⟨e, node, h, hbind, rfl⟩⟩
  · intro error hcompile
    rcases compile_eq_error.mp hcompile with ⟨cause, hparse, -⟩ | ⟨e', hparse, hbind⟩
    · cases h.symm.trans hparse
    rcases Except.ok.inj (h.symm.trans hparse) with rfl
    rcases Expr.exists_isBlamed_of_bind hbind with ⟨front, m, back, hmentions, hfront, hblamed⟩
    rw [hmentions] at hordered ⊢
    refine ⟨m, by simp, hblamed, fun other hother hbefore => ?_⟩
    rcases List.mem_append.mp hother with hother | hother
    · exact hfront other hother
    · -- what stands at the variable or behind it is not in front of it
      have hbehind := (List.pairwise_cons.mp (List.pairwise_append.mp hordered).2.1).1
      rcases List.mem_cons.mp hother with rfl | hother
      · exact absurd hbefore (lt_irrefl _)
      · exact absurd hbefore (lt_asymm (hbehind other hother))

/-! ## A variable in a branch that is left out -/

/-- The schema of a zone variable. -/
def feeSchema : Schema Float :=
  ⟨[("fee", .zone)], [], []⟩

/-- A condition that always holds, in front of two variables that do not fit. -/
def feeOrToll : Expr Float :=
  .conditional (.constant 1) (.constant 2)
    (.binary .add (.reference "fee" [.alternative] 8) (.reference "toll" [] 19))

/-- The tokens of the second branch. -/
def tollTokens : List (Token Float) :=
  [⟨.identifier "fee", 8⟩, ⟨.symbol .leftBracket, 11⟩, ⟨.identifier "alt", 12⟩,
    ⟨.symbol .rightBracket, 15⟩, ⟨.symbol .plus, 17⟩, ⟨.identifier "toll", 19⟩, ⟨.endOfText, 23⟩]

open DiscreteChoice.Parser in
theorem ofText_feeOrToll : Expr.ofText "1 ? 2 : fee[alt] + toll" = .ok feeOrToll := by
  have tokens : Token.ofText "1 ? 2 : fee[alt] + toll" =
      .ok (⟨.number (1 : Float), 0⟩ :: ⟨.symbol .question, 2⟩ :: ⟨.number 2, 4⟩ ::
        ⟨.symbol .colon, 6⟩ :: tollTokens) := by
    with_unfolding_all rfl
  have hfirst (depth : Nat) :
      expression (depth + 1) (⟨.number (2 : Float), 4⟩ :: ⟨.symbol .colon, 6⟩ :: tollTokens) =
        .ok (.constant 2, ⟨.symbol .colon, 6⟩ :: tollTokens) := by
    simp [expression, conditional, levels, chain, power, unary, unaryAt?, primary, current,
      startsWith, chainFrom, operatorAt?, Level.operator?]
  have hsecond (depth : Nat) : expression (depth + 1) tollTokens =
      .ok (.binary .add (.reference "fee" [.alternative] 8) (.reference "toll" [] 19),
        [⟨.endOfText, 23⟩]) := by
    simp [tollTokens, expression, conditional, levels, chain, power, unary, unaryAt?, primary,
      variableNamed, indices, indicesFrom, index, Index.ofKeyword?, Index.text, current,
      startsWith, chainFrom, operatorAt?, Level.operator?, expect]
  have hwhole : expression maxDepth (⟨.number (1 : Float), 0⟩ :: ⟨.symbol .question, 2⟩ ::
      ⟨.number 2, 4⟩ :: ⟨.symbol .colon, 6⟩ :: tollTokens) = .ok (feeOrToll, [⟨.endOfText, 23⟩]) := by
    rw [maxDepth, expression]
    simp [conditional, levels, chain, power, unary, unaryAt?, primary, current, startsWith,
      chainFrom, operatorAt?, Level.operator?, hfirst 254, hsecond 254, feeOrToll]
  rw [Expr.ofText, tokens]
  exact ofTokens_eq_ok.mpr ⟨_, hwhole, rfl⟩

/-- The first of them is blamed, although its branch is left out. -/
theorem compile_feeOrToll :
    Expr.ofText "1 ? 2 : fee[alt] + toll" = .ok feeOrToll ∧
      compile "1 ? 2 : fee[alt] + toll" feeSchema =
        .error (.malformed ⟨8, .zoneIndexExpected "fee" .alternative⟩) ∧
      (⟨"fee", [.alternative], 8⟩ : Mention).IsBlamed feeSchema
        (.malformed ⟨8, .zoneIndexExpected "fee" .alternative⟩) := by
  have hcompile : compile "1 ? 2 : fee[alt] + toll" feeSchema =
      .error (.malformed ⟨8, .zoneIndexExpected "fee" .alternative⟩) :=
    compile_eq_error.mpr (.inr ⟨_, ofText_feeOrToll, rfl⟩)
  rcases compile_eq_ok_iff_fits ofText_feeOrToll feeSchema with ⟨-, -, hblame⟩
  rcases hblame _ hcompile with ⟨m, hm, hblamed, -⟩
  refine ⟨ofText_feeOrToll, hcompile, ?_⟩
  have hmentions : feeOrToll.mentions = [⟨"fee", [.alternative], 8⟩, ⟨"toll", [], 19⟩] := rfl
  rw [hmentions, List.mem_cons, List.mem_singleton] at hm
  rcases hm with rfl | rfl
  · exact hblamed
  · cases hblamed

end Formula
end DiscreteChoice
