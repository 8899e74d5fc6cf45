import DiscreteChoice.Identifier

/-!
# References

A variable of an expression together with the way its value is found in a decision.
-/

namespace DiscreteChoice

/-- Which zone of a decision is read. -/
inductive ZoneRole where
  | origin
  /-- The zone of the alternative that is evaluated, or the destination of the decision when the
  alternative has no zone of its own. -/
  | destination
deriving Repr, DecidableEq

/-- Which time period is read. -/
inductive PeriodRole where
  /-- The period of the decision. -/
  | ofDecision
  | fixed (period : TimePeriod)
deriving Repr, DecidableEq

/-- A variable together with the way its value is found. -/
inductive Reference where
  | scalar (name : String) (slot : Nat)
  | alternative (name : String) (slot : Nat)
  | zone (name : String) (role : ZoneRole)
  | matrix (name : String) (row column : ZoneRole) (period : PeriodRole)
deriving Repr, DecidableEq

namespace Reference

/-- The name of the variable. -/
def name : Reference → String
  | scalar name _ => name
  | alternative name _ => name
  | zone name _ => name
  | matrix name _ _ _ => name

/-- The references of a list without those to a variable that came before. -/
def distinct (references : List Reference) : List Reference :=
  references.foldl (fun found r => if found.any (·.name == r.name) then found else found ++ [r]) []

end Reference
end DiscreteChoice
