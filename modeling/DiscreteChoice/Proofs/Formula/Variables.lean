import DiscreteChoice.Proofs.Expr.VariableText
import DiscreteChoice.Proofs.Formula.Folding

/-!
# Formulas of variables

The formula of an expression that spells a declared variable by its name. A zone variable is spelled
with the destination as its index, and a matrix variable with the origin and the destination, so
that they are read where their name alone is.

Main results:

- Theorem `Declaration.exists_brackets`: the text of the indices spells them, wherever it stands.
- Theorem `Formula.compile_variable_text`: a declared variable is spelled by its name.
-/

namespace DiscreteChoice

variable {α : Type} [Numeric α]

namespace Declaration

/-- The indices of a variable that is read in the way of its name alone. -/
def indices : Declaration α → List Index
  | zone => [.destination]
  | matrix => [.origin, .destination]
  | _ => []

/-- The text of the indices of a variable that is read in the way of its name alone. -/
def indexText : Declaration α → String
  | zone => "[dest]"
  | matrix => "[orig, dest]"
  | _ => ""

/-- A variable that is read in the way of its name alone. -/
def node (name : String) : Declaration α → Node α
  | constant value => .constant value
  | scalar slot => .read (.scalar name slot)
  | alternative slot => .read (.alternative name slot)
  | zone => .read (.zone name .destination)
  | matrix => .read (.matrix name .origin .destination .ofDecision)

omit [Numeric α] in
theorem bind_indices (declaration : Declaration α) (name : String) :
    declaration.bind name declaration.indices = .ok (declaration.node name) := by
  cases declaration <;> rfl

@[simp] theorem fold_node (declaration : Declaration α) (name : String) :
    (declaration.node name).fold = declaration.node name := by
  cases declaration <;> simp [node, Node.fold]

open DiscreteChoice.Parser in
/-- The text of the indices spells them, wherever it stands. -/
theorem exists_brackets (declaration : Declaration α) (position : Nat) :
    ∃ words place, Brackets words declaration.indices ∧
      Token.tokensFrom position declaration.indexText.toList =
        .ok (words ++ [(⟨.endOfText, place⟩ : Token α)]) := by
  cases declaration with
  | zone =>
    have htokens : Token.tokensFrom position "[dest]".toList =
        .ok [⟨.symbol .leftBracket, position⟩, ⟨.identifier "dest", position + 1⟩,
          ⟨.symbol .rightBracket, position + 5⟩, (⟨.endOfText, position + 6⟩ : Token α)] := by
      with_unfolding_all rfl
    exact ⟨_, _, .some position (position + 5) (.last (.destination (position + 1))), htokens⟩
  | matrix =>
    have htokens : Token.tokensFrom position "[orig, dest]".toList =
        .ok [⟨.symbol .leftBracket, position⟩, ⟨.identifier "orig", position + 1⟩,
          ⟨.symbol .comma, position + 5⟩, ⟨.identifier "dest", position + 7⟩,
          ⟨.symbol .rightBracket, position + 11⟩, (⟨.endOfText, position + 12⟩ : Token α)] := by
      with_unfolding_all rfl
    exact ⟨_, _, .some position (position + 11) (.more (.origin (position + 1)) (position + 5)
      (.last (.destination (position + 7)))), htokens⟩
  | _ => exact ⟨[], position, .none, by simp [indexText, Token.tokensFrom]⟩

end Declaration

/-- A declared variable is spelled by its name, marked or not, and the text of its indices. -/
theorem Formula.compile_variable_text {schema : Schema α} {name : String}
    (hname : Token.isName name = true) {declaration : Declaration α}
    (hget : schema.get? name = some declaration) {text : String}
    (htext : text = name ++ declaration.indexText ∨ text = "@" ++ name ++ declaration.indexText) :
    Formula.compile text schema = .ok ⟨text, declaration.node name⟩ := by
  have hrest : declaration.indexText.toList.head?.any Token.isNamePart = false := by
    have hbracket : ("[dest]".toList.head?.any Token.isNamePart) = false ∧
        ("[orig, dest]".toList.head?.any Token.isNamePart) = false := by decide
    cases declaration with
    | zone => exact hbracket.1
    | matrix => exact hbracket.2
    | _ => rfl
  have hexpr : Expr.ofText text = .ok (.reference name declaration.indices 0 : Expr α) := by
    rcases Expr.ofText_of_brackets hname hrest declaration.exists_brackets with ⟨hplain, hmarked⟩
    rcases htext with rfl | rfl
    · exact hplain
    · exact hmarked
  have hbind : (Expr.reference name declaration.indices 0).bind schema =
      .ok (declaration.node name) := by
    rw [Expr.bind, Schema.bind, hget]
    simp only [declaration.bind_indices name]
  exact compile_eq_ok.mpr ⟨_, _, hexpr, hbind, by rw [Declaration.fold_node]⟩

end DiscreteChoice
