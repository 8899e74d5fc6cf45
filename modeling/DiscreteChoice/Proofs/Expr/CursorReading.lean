import DiscreteChoice.Proofs.Expr.CursorParser

/-!
# What the parser with a cursor reads

From every state the procedure of a production ends as the reader of the production does on the
tokens that are left: with the same answer in front of the same rest, or with the same error. It
leaves the number of open productions as it was, and the cursor does not move back.

The end of the text is never taken by a procedure that goes on, so that something is always left. A
reader that is given as many steps as there are tokens never runs out of them.

Main results:

- Theorem `Follows.bind`: procedures one behind the other follow readers one behind the other.
- Theorem `joining_follows`: the loop of a chain ends when the tokens are used up.
- Theorem `run_follows`: every production is read as its reader reads it.
-/

namespace DiscreteChoice
namespace CursorParser

open DiscreteChoice.Parser

variable {α β γ : Type} {tokens : List (Token α)} {s : State}

/-! ## What is left -/

/-- The last token is the end of the text. -/
def EndsText (tokens : List (Token α)) : Prop :=
  ∃ body place, tokens = body ++ [⟨.endOfText, place⟩]

/-- The tokens that are left. The end of the text is always among them. -/
def State.front (s : State) (tokens : List (Token α)) : List (Token α) :=
  tokens.drop (min s.cursor (tokens.length - 1))

theorem EndsText.length_pos (h : EndsText tokens) : 0 < tokens.length := by
  rcases h with ⟨body, place, rfl⟩
  simp

/-- At the last place and behind it stands the end of the text. -/
theorem EndsText.tokenAt_eq (h : EndsText tokens) {place : Nat} (hplace : tokens.length ≤ place + 1) :
    tokenAt tokens place = tokenAt tokens (tokens.length - 1) ∧
      isEnd (tokenAt tokens place) = true := by
  rcases h with ⟨body, position, rfl⟩
  simp only [List.length_append, List.length_singleton] at hplace ⊢
  rcases Nat.lt_or_ge body.length place with hbehind | hlast
  · have hnone : (body ++ [(⟨.endOfText, position⟩ : Token α)])[place]? = none :=
      List.getElem?_eq_none (by simpa using hbehind)
    simp [tokenAt, hnone, isEnd]
  · obtain rfl : place = body.length := by omega
    simp [tokenAt, isEnd]

/-- The next token is the first one that is left. -/
theorem EndsText.current_front (h : EndsText tokens) :
    current (s.front tokens) = tokenAt tokens s.cursor := by
  have hroom : min s.cursor (tokens.length - 1) < tokens.length := by
    have := h.length_pos
    omega
  have hfirst : current (s.front tokens) = tokenAt tokens (min s.cursor (tokens.length - 1)) := by
    rw [State.front, List.drop_eq_getElem_cons hroom, current, tokenAt,
      List.getElem?_eq_getElem hroom, Option.getD_some]
  rw [hfirst]
  rcases Nat.le_total s.cursor (tokens.length - 1) with hle | hle
  · rw [Nat.min_eq_left hle]
  · rw [Nat.min_eq_right hle]
    exact (h.tokenAt_eq (by omega)).1.symm

/-- A symbol is seen when the tokens that are left start with it. -/
theorem EndsText.startsWith_front (h : EndsText tokens) (symbol : Symbol) :
    startsWith symbol [tokenAt tokens s.cursor] = startsWith symbol (s.front tokens) := by
  rw [startsWith, startsWith, h.current_front, current]

theorem length_front (tokens : List (Token α)) (s : State) :
    (s.front tokens).length = tokens.length - min s.cursor (tokens.length - 1) :=
  List.length_drop

/-- What is left is not empty. -/
theorem EndsText.length_front_pos (h : EndsText tokens) : 0 < (s.front tokens).length := by
  have := h.length_pos
  rw [length_front]
  omega

/-! ## What a procedure keeps -/

/-- The number of open productions is the same again, and the cursor has not moved back nor out of the
tokens. -/
structure Kept (tokens : List (Token α)) (before after : State) : Prop where
  depth_eq : after.depth = before.depth
  forward : before.cursor ≤ after.cursor
  within : after.cursor ≤ max before.cursor tokens.length

theorem Kept.refl (tokens : List (Token α)) (s : State) : Kept tokens s s :=
  ⟨rfl, Nat.le_refl _, Nat.le_max_left _ _⟩

theorem Kept.trans {s₁ s₂ s₃ : State} (h : Kept tokens s₁ s₂) (h' : Kept tokens s₂ s₃) :
    Kept tokens s₁ s₃ where
  depth_eq := h'.depth_eq.trans h.depth_eq
  forward := h.forward.trans h'.forward
  within := by
    have := h.within
    have := h'.within
    omega

theorem kept_next (tokens : List (Token α)) (s : State) : Kept tokens s (s.next tokens.length) := by
  unfold State.next
  split
  · exact ⟨rfl, by dsimp only; omega, by dsimp only; omega⟩
  · exact .refl tokens s

/-- Behind a token that is not the end of the text the other tokens are left. -/
theorem EndsText.front_next (h : EndsText tokens) (hgoes : isEnd (tokenAt tokens s.cursor) = false) :
    (s.next tokens.length).front tokens = (s.front tokens).tail ∧
      (s.next tokens.length).cursor = s.cursor + 1 := by
  have hroom : s.cursor + 1 < tokens.length := by
    by_contra hlast
    have hend : isEnd (tokenAt tokens s.cursor) = true := (h.tokenAt_eq (by omega)).2
    rw [hgoes] at hend
    cases hend
  have hnext : s.next tokens.length = { s with cursor := s.cursor + 1 } := if_pos (by omega)
  rw [hnext, State.front, State.front, List.tail_drop]
  exact ⟨congrArg (tokens.drop ·) (by dsimp only; omega), rfl⟩

/-! ## Following a reader -/

/-- A procedure ends as a reader does: with the same answer and the same tokens left, or with the same
error. -/
def Follows (tokens : List (Token α)) (x : Procedure α β) (s : State)
    (y : Except (SyntaxError α) (β × List (Token α))) : Prop :=
  ∃ answer after, outcome x s = some (answer, after) ∧ Kept tokens s after ∧
    y = answer.map fun value => (value, after.front tokens)

namespace Follows

theorem pure (tokens : List (Token α)) (value : β) (s : State) :
    Follows tokens (pure value) s (.ok (value, s.front tokens)) :=
  ⟨_, _, rfl, .refl tokens s, rfl⟩

theorem throw (tokens : List (Token α)) (e : SyntaxError α) (s : State) :
    Follows (β := β) tokens (throw e) s (.error e) :=
  ⟨_, _, rfl, .refl tokens s, rfl⟩

/-- Procedures one behind the other follow readers one behind the other. -/
theorem bind {x : Procedure α β} {f : β → Procedure α γ}
    {y : Except (SyntaxError α) (β × List (Token α))}
    {g : β × List (Token α) → Except (SyntaxError α) (γ × List (Token α))}
    (hx : Follows tokens x s y)
    (hf : ∀ value after, y = .ok (value, after.front tokens) → Kept tokens s after →
      Follows tokens (f value) after (g (value, after.front tokens))) :
    Follows tokens (x >>= f) s (y >>= g) := by
  rcases hx with ⟨answer, after, hout, hkept, rfl⟩
  cases answer with
  | error e => exact ⟨.error e, after, by rw [outcome_bind, hout]; rfl, hkept, rfl⟩
  | ok value =>
    rcases hf value after rfl hkept with ⟨last, final, hlast, hkept', hg⟩
    exact ⟨last, final, by rw [outcome_bind, hout]; exact hlast, hkept.trans hkept', hg⟩

/-- A procedure that goes on from a kept state. -/
theorem of_outcome {x : Procedure α β} {x' : Procedure α β} {after : State}
    {y : Except (SyntaxError α) (β × List (Token α))} (hout : outcome x s = outcome x' after)
    (hkept : Kept tokens s after) (h : Follows tokens x' after y) : Follows tokens x s y := by
  rcases h with ⟨answer, final, hfinal, hkept', hy⟩
  exact ⟨answer, final, hout.trans hfinal, hkept.trans hkept', hy⟩

/-- A symbol is taken, and what follows depends on whether it was there. -/
theorem ite_eat (h : EndsText tokens) {symbol : Symbol} {x x' : Procedure α β}
    {y y' : Except (SyntaxError α) (β × List (Token α))}
    (hthere : ∀ after, after.front tokens = (s.front tokens).tail → Kept tokens s after →
      s.cursor < after.cursor → Follows tokens x after y)
    (habsent : Follows tokens x' s y') :
    Follows tokens (do if ← eat tokens symbol then x else x') s
      (if startsWith symbol (s.front tokens) then y else y') := by
  by_cases hstart : startsWith symbol (s.front tokens) = true
  · have hgoes : isEnd (tokenAt tokens s.cursor) = false := by
      rw [← h.current_front]
      rcases startsWith_iff.mp hstart with ⟨place, rest, hrest⟩
      rw [hrest]
      rfl
    rcases h.front_next hgoes with ⟨hfront, hcursor⟩
    rw [if_pos hstart]
    refine of_outcome ?_ (kept_next tokens s)
      (hthere _ hfront (kept_next tokens s) (by omega))
    rw [outcome_bind, outcome_eat, h.startsWith_front, if_pos hstart]
    rfl
  · rw [if_neg hstart]
    refine of_outcome ?_ (.refl tokens s) habsent
    rw [outcome_bind, outcome_eat, h.startsWith_front, if_neg hstart]
    rfl

/-- A token is taken. Behind the end of the text the same tokens are left. -/
theorem advance (h : EndsText tokens) {f : Token α → Procedure α β}
    {y : Except (SyntaxError α) (β × List (Token α))}
    (hf : ∀ after, Kept tokens s after → (isEnd (current (s.front tokens)) = false →
        after.front tokens = (s.front tokens).tail ∧ s.cursor < after.cursor) →
      Follows tokens (f (current (s.front tokens))) after y) :
    Follows tokens (advance tokens >>= f) s y := by
  refine of_outcome ?_ (kept_next tokens s) (hf _ (kept_next tokens s) fun hgoes => ?_)
  · rw [outcome_bind, outcome_advance, h.current_front]
    rfl
  · rw [h.current_front] at hgoes
    rcases h.front_next hgoes with ⟨hfront, hcursor⟩
    exact ⟨hfront, by omega⟩

/-- The next token is looked at and stays. -/
theorem peek (h : EndsText tokens) {f : Token α → Procedure α β}
    {y : Except (SyntaxError α) (β × List (Token α))}
    (hf : Follows tokens (f (current (s.front tokens))) s y) :
    Follows tokens (peek tokens >>= f) s y := by
  refine of_outcome ?_ (.refl tokens s) hf
  rw [outcome_bind, outcome_peek, h.current_front]
  rfl

/-- A symbol is looked for, and what follows depends on whether it is there. -/
theorem ite_sees (h : EndsText tokens) {symbol : Symbol} {x x' : Procedure α β}
    {y y' : Except (SyntaxError α) (β × List (Token α))} (hthere : Follows tokens x s y)
    (habsent : Follows tokens x' s y') :
    Follows tokens (do if ← sees tokens symbol then x else x') s
      (if startsWith symbol (s.front tokens) then y else y') := by
  have hout (x'' : Procedure α β) (hx : x'' = if startsWith symbol (s.front tokens) then x else x') :
      outcome (do if ← sees tokens symbol then x else x') s = outcome x'' s := by
    rw [outcome_bind, outcome_sees, h.startsWith_front, hx]
    rfl
  split
  · rename_i hstart
    exact of_outcome (hout x (by rw [if_pos hstart])) (.refl tokens s) hthere
  · rename_i hstart
    exact of_outcome (hout x' (by rw [if_neg hstart])) (.refl tokens s) habsent

/-- A required symbol is read as by its reader. -/
theorem demand (h : EndsText tokens) (symbol : Symbol) (s : State) :
    Follows tokens (demand tokens symbol) s (expect symbol (s.front tokens)) := by
  refine ite_eat h (fun after hfront hkept _ => ?_) ?_
  · rw [← hfront]
    exact .pure tokens () after
  · rw [failHere, h.current_front]
    exact ⟨_, _, rfl, .refl tokens s, rfl⟩

end Follows

variable [Numeric α] {depth : Nat}

/-! ## Readers of productions -/

/-- The call on more arguments that have been read, in front of what is left. -/
def closeCall (function : Builtin) (position : Nat) (args : List (Expr α))
    (read : List (Expr α) × List (Token α)) : Except (SyntaxError α) (Expr α × List (Token α)) :=
  let all := args ++ read.1
  if function.accepts all.length then .ok (.call function all, read.2)
  else .error ⟨position, .argumentCount function all.length⟩

/-- The variable with more indices that have been read, in front of what is left. -/
def closeVariable (name : String) (position : Nat) (found : List Index)
    (read : List Index × List (Token α)) : Except (SyntaxError α) (Expr α × List (Token α)) :=
  .ok (.reference name (found ++ read.1) position, read.2)

omit [Numeric α] in
theorem closeCall_append (function : Builtin) (position : Nat) (args : List (Expr α)) (arg : Expr α) :
    closeCall function position (args ++ [arg]) =
      fun read => closeCall function position args (arg :: read.1, read.2) := by
  funext read
  simp [closeCall]

omit [Numeric α] in
theorem closeVariable_append (name : String) (position : Nat) (found : List Index) (i : Index) :
    closeVariable (α := α) name position (found ++ [i]) =
      fun read => closeVariable name position found (i :: read.1, read.2) := by
  funext read
  simp [closeVariable]

/-- The reader of a production, where the given number of productions may be opened. -/
def Production.reader : Production α → Nat → Parser α (Expr α)
  | .nested _, 0 => failHere fun _ => .tooDeep
  | .nested inner, depth + 1 => inner.reader depth
  | .conditional, depth => Parser.conditional ((Category.level .or).parser depth) (expression depth)
  | .chain level, depth => (Category.level level).parser depth
  | .joining level lhs, depth => fun tokens =>
    chainFrom level (level.operand.parser depth) tokens.length lhs tokens
  | .power, depth => Category.power.parser depth
  | .unary, depth => Category.unary.parser depth
  | .primary, depth => Category.primary.parser depth
  | .callNamed name position, depth => Parser.callNamed (expression depth) name position
  | .arguments function position args, depth => fun tokens =>
    argumentsFrom (expression depth) tokens.length tokens >>= closeCall function position args
  | .variableNamed name position, _ => Parser.variableNamed name position
  | .indices name position found, _ => fun tokens =>
    indicesFrom tokens.length tokens >>= closeVariable name position found

/-- The nested productions are whole expressions, exponents and operands of unary operators. -/
theorem Production.reader_nested (depth : Nat) :
    (nested conditional).reader depth = (expression depth : Parser α (Expr α)) ∧
    (nested power).reader depth = (exponent depth : Parser α (Expr α)) ∧
    (nested unary).reader depth = (operand depth : Parser α (Expr α)) := by
  cases depth with
  | zero => refine ⟨?_, ?_, ?_⟩ <;> funext tokens <;> simp [reader, expression, exponent, operand]
  | succ depth =>
    refine ⟨(expression_succ depth).symm, ?_, ?_⟩ <;> funext tokens
    · rw [exponent]; rfl
    · rw [operand]; rfl

/-- The reader of what a level joins. -/
theorem Production.reader_operandOf (level : Level) (depth : Nat) :
    (operandOf level).reader depth = (level.operand.parser depth : Parser α (Expr α)) := by
  cases level <;> rfl

/-- The procedure of a production follows its reader, where the given number of productions may be
opened. -/
def Tracks (tokens : List (Token α)) (depth : Nat) (production : Production α) : Prop :=
  ∀ s : State, maxDepth - s.depth = depth →
    Follows tokens (production.run tokens) s (production.reader depth (s.front tokens))

/-! ## Variables -/

/-- The loop of a variable reads indices, for which as many steps as there are tokens suffice. -/
theorem indices_follows (h : EndsText tokens) (name : String) (position steps : Nat) :
    ∀ {s : State} (found : List Index), (s.front tokens).length ≤ steps →
      Follows tokens (Production.run tokens (.indices name position found)) s
        (indicesFrom steps (s.front tokens) >>= closeVariable name position found) := by
  induction steps with
  | zero =>
    intro s found hsteps
    have := h.length_front_pos (s := s)
    omega
  | succ steps ih =>
    intro s found hsteps
    rw [Production.run, indicesFrom]
    refine Follows.advance h fun after hkept hgoes => ?_
    cases hindex : index (current (s.front tokens)) with
    | error e => exact .throw tokens e after
    | ok i =>
      rcases hgoes (index_eq_ok.mp hindex).isEnd_eq with ⟨hfront, hcursor⟩
      rw [ok_bind, ← hfront, apply_ite_left bind]
      refine Follows.ite_eat h (fun after' hfront' hkept' _ => ?_) ?_
      · have hroom : (after'.front tokens).length ≤ steps := by
          rw [hfront', hfront, List.length_tail, List.length_tail]
          omega
        have hothers := ih (found ++ [i]) hroom
        rw [hfront', closeVariable_append] at hothers
        rw [bind_assoc]
        exact hothers
      · rw [bind_assoc]
        exact (Follows.demand h .rightBracket after).bind fun _ last _ _ => .pure tokens _ last

/-- The loop of a variable follows its reader. -/
theorem indices_tracks (h : EndsText tokens) (name : String) (position : Nat) (found : List Index) :
    Tracks tokens depth (.indices name position found) :=
  fun _ _ => indices_follows h name position _ found le_rfl

/-- A variable whose name has been taken follows its reader. -/
theorem variableNamed_tracks (h : EndsText tokens) (name : String) (position : Nat) :
    Tracks tokens depth (.variableNamed name position) := by
  intro s hdepth
  rw [Production.run, Production.reader, variableNamed, Parser.indices, apply_ite_left bind]
  refine Follows.ite_eat h (fun after hfront _ _ => ?_) (.pure tokens _ s)
  rw [← hfront]
  refine indices_follows h name position _ [] ?_
  rw [hfront, List.length_tail]
  omega

/-! ## Calls -/

omit [Numeric α] in
/-- A call is made of the arguments that have been read. -/
theorem callOf_follows (function : Builtin) (position : Nat) (args : List (Expr α)) (s : State) :
    Follows tokens (callOf function position args) s
      (if function.accepts args.length then .ok (.call function args, s.front tokens)
      else .error ⟨position, .argumentCount function args.length⟩) := by
  unfold callOf
  split
  · exact .pure tokens _ s
  · exact .throw tokens _ s

/-- The loop of a call reads arguments, for which as many steps as there are tokens suffice. -/
theorem arguments_follows (h : EndsText tokens) (hargument : Tracks tokens depth (.nested .conditional))
    (function : Builtin) (position steps : Nat) :
    ∀ {s : State} (args : List (Expr α)), maxDepth - s.depth = depth →
      (s.front tokens).length ≤ steps →
      Follows tokens (Production.run tokens (.arguments function position args)) s
        (argumentsFrom (expression depth) steps (s.front tokens) >>=
          closeCall function position args) := by
  induction steps with
  | zero =>
    intro s args hdepth hsteps
    have := h.length_front_pos (s := s)
    omega
  | succ steps ih =>
    intro s args hdepth hsteps
    have hfirst := hargument s hdepth
    rw [(Production.reader_nested depth).1] at hfirst
    rw [Production.run, argumentsFrom, bind_assoc]
    refine hfirst.bind fun arg after harg hkept => ?_
    have hlength := (expression_reads depth).length_le harg
    dsimp only
    rw [apply_ite_left bind]
    refine Follows.ite_eat h (fun after' hfront' hkept' _ => ?_) ?_
    · have hroom : (after'.front tokens).length ≤ steps := by
        rw [hfront', List.length_tail]
        have := h.length_front_pos (s := after)
        omega
      have hsame : maxDepth - after'.depth = depth := by
        rw [hkept'.depth_eq, hkept.depth_eq, hdepth]
      have hothers := ih (args ++ [arg]) hsame hroom
      rw [hfront', closeCall_append] at hothers
      rw [bind_assoc]
      exact hothers
    · rw [bind_assoc]
      exact (Follows.demand h .rightParen after).bind fun _ last _ _ =>
        callOf_follows function position (args ++ [arg]) last

/-- The loop of a call follows its reader. -/
theorem arguments_tracks (h : EndsText tokens) (hargument : Tracks tokens depth (.nested .conditional))
    (function : Builtin) (position : Nat) (args : List (Expr α)) :
    Tracks tokens depth (.arguments function position args) :=
  fun _ hdepth => arguments_follows h hargument function position _ args hdepth le_rfl

/-- A call whose name has been taken follows its reader. -/
theorem callNamed_tracks (h : EndsText tokens) (hargument : Tracks tokens depth (.nested .conditional))
    (name : String) (position : Nat) : Tracks tokens depth (.callNamed name position) := by
  intro s hdepth
  rw [Production.run, Production.reader, callNamed]
  cases Builtin.ofName? name with
  | none => exact .throw tokens _ s
  | some function =>
    dsimp only
    rw [arguments, bind_assoc]
    refine (Follows.demand h .leftParen s).bind fun _ after _ hkept => ?_
    dsimp only
    rw [apply_ite_left bind]
    refine Follows.ite_eat h (fun after' hfront' _ _ => ?_) ?_
    · rw [← hfront']
      exact callOf_follows function position [] after'
    · exact arguments_follows h hargument function position _ [] (by rw [hkept.depth_eq, hdepth]) le_rfl

/-! ## Productions -/

/-- A primary expression follows its reader. -/
theorem primary_tracks (h : EndsText tokens) (hinner : Tracks tokens depth (.nested .conditional)) :
    Tracks tokens depth .primary := by
  intro s hdepth
  rw [Production.run, Production.reader, Category.parser, primary]
  refine Follows.advance h fun after hkept hgoes => ?_
  have hsame : maxDepth - after.depth = depth := by rw [hkept.depth_eq, hdepth]
  rcases hcurrent : current (s.front tokens) with ⟨kind, place⟩
  rw [hcurrent] at hgoes
  cases kind with
  | number value =>
    rw [← (hgoes rfl).1]
    exact .pure tokens _ after
  | reference name =>
    rw [← (hgoes rfl).1]
    exact Follows.ite_sees h (.throw tokens _ after) (variableNamed_tracks h name place after hsame)
  | identifier name =>
    rw [← (hgoes rfl).1]
    exact Follows.ite_sees h (callNamed_tracks h hinner name place after hsame)
      (variableNamed_tracks h name place after hsame)
  | symbol symbol =>
    rw [← (hgoes rfl).1]
    cases symbol with
    | leftParen =>
      have hexpression := hinner after hsame
      rw [(Production.reader_nested depth).1] at hexpression
      refine hexpression.bind fun e last _ _ => ?_
      exact (Follows.demand h .rightParen last).bind fun _ final _ _ => .pure tokens _ final
    | _ => exact .throw tokens _ after
  | endOfText => exact .throw tokens _ after

/-- A unary expression follows its reader. -/
theorem unary_tracks (h : EndsText tokens) (hoperand : Tracks tokens depth (.nested .unary))
    (hprimary : Tracks tokens depth .primary) : Tracks tokens depth .unary := by
  intro s hdepth
  rw [Production.run, Production.reader, Category.parser, unary]
  refine Follows.peek h ?_
  have hnext : unaryAt? [current (s.front tokens)] = unaryAt? (s.front tokens) := rfl
  rw [hnext]
  cases hop : unaryAt? (s.front tokens) with
  | none => exact hprimary s hdepth
  | some op =>
    refine Follows.advance h fun after hkept hgoes => ?_
    have hsymbol : isEnd (current (s.front tokens)) = false := by
      rcases unaryAt?_eq_some.mp hop with ⟨place, rest, hrest⟩
      rw [hrest]
      rfl
    have hread := hoperand after (by rw [hkept.depth_eq, hdepth])
    rw [(Production.reader_nested depth).2.2, (hgoes hsymbol).1] at hread
    exact hread.bind fun e last _ _ => .pure tokens _ last

/-- A power follows its reader. -/
theorem power_tracks (h : EndsText tokens) (hbase : Tracks tokens depth .unary)
    (hexponent : Tracks tokens depth (.nested .power)) : Tracks tokens depth .power := by
  intro s hdepth
  rw [Production.run]
  refine (hbase s hdepth).bind fun base after _ hkept => ?_
  refine Follows.ite_eat h (fun after' hfront' hkept' _ => ?_) (.pure tokens _ after)
  have hexponent := hexponent after' (by rw [hkept'.depth_eq, hkept.depth_eq, hdepth])
  rw [(Production.reader_nested depth).2.1, hfront'] at hexponent
  exact hexponent.bind fun exponent last _ _ => .pure tokens _ last

/-- An expression with a condition, or without one, follows its reader. -/
theorem conditional_tracks (h : EndsText tokens) (hcondition : Tracks tokens depth (.chain .or))
    (hbranch : Tracks tokens depth (.nested .conditional)) : Tracks tokens depth .conditional := by
  intro s hdepth
  rw [Production.run]
  refine (hcondition s hdepth).bind fun c after _ hkept => ?_
  refine Follows.ite_eat h (fun after' hfront' hkept' _ => ?_) (.pure tokens _ after)
  have hsame : maxDepth - after'.depth = depth := by
    rw [hkept'.depth_eq, hkept.depth_eq, hdepth]
  have htrue := hbranch after' hsame
  rw [(Production.reader_nested depth).1, hfront'] at htrue
  refine htrue.bind fun t after _ hkept => ?_
  refine (Follows.demand h .colon after).bind fun _ after' _ hkept' => ?_
  have hfalse := hbranch after' (by rw [hkept'.depth_eq, hkept.depth_eq, hsame])
  rw [(Production.reader_nested depth).1] at hfalse
  exact hfalse.bind fun f last _ _ => .pure tokens _ last

/-- The loop of a chain joins operands, for which as many steps as there are tokens suffice. -/
theorem joining_follows (h : EndsText tokens) {level : Level}
    (hoperand : Tracks tokens depth (.operandOf level)) (steps : Nat) :
    ∀ {s : State} (lhs : Expr α), maxDepth - s.depth = depth → (s.front tokens).length ≤ steps →
      Follows tokens (Production.run tokens (.joining level lhs)) s
        (chainFrom level (level.operand.parser depth) steps lhs (s.front tokens)) := by
  induction steps with
  | zero =>
    intro s lhs hdepth hsteps
    have := h.length_front_pos (s := s)
    omega
  | succ steps ih =>
    intro s lhs hdepth hsteps
    rw [Production.run, chainFrom]
    refine Follows.peek h ?_
    have hnext : operatorAt? level [current (s.front tokens)] = operatorAt? level (s.front tokens) :=
      rfl
    rw [hnext]
    cases hop : operatorAt? level (s.front tokens) with
    | none => exact .pure tokens lhs s
    | some op =>
      refine Follows.advance h fun after hkept hgoes => ?_
      have hsymbol : isEnd (current (s.front tokens)) = false := by
        rcases operatorAt?_eq_some.mp hop with ⟨symbol, place, rest, -, hrest⟩
        rw [hrest]
        rfl
      have hsame : maxDepth - after.depth = depth := by rw [hkept.depth_eq, hdepth]
      have hread := hoperand after hsame
      rw [Production.reader_operandOf, (hgoes hsymbol).1] at hread
      refine hread.bind fun rhs after' hrhs hkept' => ?_
      have hlength := (Category.operand_reads level depth).length_le hrhs
      rw [List.length_tail] at hlength
      have := h.length_front_pos (s := s)
      exact ih _ (by rw [hkept'.depth_eq, hsame]) (by omega)

/-- A chain follows its reader. -/
theorem chain_tracks (h : EndsText tokens) {level : Level}
    (hoperand : Tracks tokens depth (.operandOf level)) : Tracks tokens depth (.chain level) := by
  intro s hdepth
  have hfirst := hoperand s hdepth
  rw [Production.reader_operandOf] at hfirst
  rw [Production.run, Production.reader, Category.parser_level]
  exact hfirst.bind fun first after _ hkept =>
    joining_follows h hoperand _ first (by rw [hkept.depth_eq, hdepth]) le_rfl

/-- A nested production is refused when no more may be opened. -/
theorem nested_tracks_zero (h : EndsText tokens) (inner : Production α) :
    Tracks tokens 0 (.nested inner) := by
  intro s hdepth
  rw [Production.reader, failHere, h.current_front]
  refine ⟨.error _, s, ?_, .refl tokens s, rfl⟩
  rw [outcome_nested, if_pos (by omega)]

/-- A nested production follows the reader of what is nested, with one less to be opened. -/
theorem nested_tracks_succ {inner : Production α} (hinner : Tracks tokens depth inner) :
    Tracks tokens (depth + 1) (.nested inner) := by
  intro s hdepth
  rcases hinner { s with depth := s.depth + 1 } (by dsimp only; omega) with
    ⟨answer, after, hout, hkept, hread⟩
  refine ⟨answer, { after with depth := after.depth - 1 }, ?_, ⟨?_, hkept.forward, hkept.within⟩, hread⟩
  · rw [outcome_nested, if_neg (by omega), hout]
    rfl
  · have := hkept.depth_eq
    dsimp only at this ⊢
    omega

/-- Every production follows its reader when the nested ones do. -/
theorem tracks_of_nested (h : EndsText tokens)
    (hnested : ∀ inner : Production α, Tracks tokens depth (.nested inner)) :
    ∀ production : Production α, Tracks tokens depth production := by
  have hprimary : Tracks tokens depth .primary := primary_tracks h (hnested _)
  have hunary : Tracks tokens depth .unary := unary_tracks h (hnested _) hprimary
  have hpower : Tracks tokens depth .power := power_tracks h hunary (hnested _)
  have hmultiplicative : Tracks tokens depth (.chain .multiplicative) := chain_tracks h hpower
  have hadditive : Tracks tokens depth (.chain .additive) := chain_tracks h hmultiplicative
  have hcomparison : Tracks tokens depth (.chain .comparison) := chain_tracks h hadditive
  have hand : Tracks tokens depth (.chain .and) := chain_tracks h hcomparison
  have hor : Tracks tokens depth (.chain .or) := chain_tracks h hand
  have hoperand (level : Level) : Tracks tokens depth (.operandOf level) := by
    cases level <;> assumption
  intro production
  cases production with
  | nested inner => exact hnested inner
  | conditional => exact conditional_tracks h hor (hnested _)
  | chain level => exact chain_tracks h (hoperand level)
  | joining level lhs =>
    exact fun s hdepth => joining_follows h (hoperand level) _ lhs hdepth le_rfl
  | power => exact hpower
  | unary => exact hunary
  | primary => exact hprimary
  | callNamed name position => exact callNamed_tracks h (hnested _) name position
  | arguments function position args =>
    exact arguments_tracks h (hnested _) function position args
  | variableNamed name position => exact variableNamed_tracks h name position
  | indices name position found => exact indices_tracks h name position found

/-- Every production is read as its reader reads it, however many productions may be opened. -/
theorem run_follows (h : EndsText tokens) (production : Production α) :
    Tracks tokens depth production := by
  -- a nested production is read with one less to be opened, and all others follow from the nested ones
  induction depth generalizing production with
  | zero => exact tracks_of_nested h (nested_tracks_zero h) production
  | succ depth ih => exact tracks_of_nested h (fun inner => nested_tracks_succ (ih inner)) production

end CursorParser
end DiscreteChoice
