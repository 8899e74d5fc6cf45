import DiscreteChoice.Proofs.Logit.Availability
import DiscreteChoice.Proofs.Nest.Layout

/-!
# The walk from the front

The probabilities with which the nests of a tree are reached are divided among their members from the
front. A nest has its final probability by the time that it is divided, because the only nest that it is
a member of comes before it, and what its members get is not changed afterwards, because they are
members of no other nest.

Main results:

- Theorem `Logit.Reach.probability_divide`: what dividing a nest changes.
- Theorem `Logit.Reach.Swept.divide`: a nest that has been divided stays so.
- Theorem `Logit.Reach.swept`: in the end every member has what its nest passes on to it.
-/

namespace DiscreteChoice

variable {α : Type} [Numeric α]

namespace Logit

open Numeric

/-! ## Dividing one nest -/

/-- The probability with which an alternative or a nest is reached. -/
def Reach.probability (reach : Reach α) : Child → α
  | .alternative position => reach.alternatives[position]?.getD 0
  | .nest index => reach.nests[index]?.getD 0

/-- There is a probability for an alternative or a nest. -/
def Reach.Covers (reach : Reach α) : Child → Prop
  | .alternative position => position < reach.alternatives.size
  | .nest index => index < reach.nests.size

/-- What a nest that is reached with a probability passes on to a member: nothing when it is not
reached or when the member has no value. -/
def passed (v : UtilityVector α) (found : Array (Option α)) (nest : Nest α) (own : α)
    (child : Child) : α :=
  if eq own 0 then 0
  else
    match logSumExp? (scaledValues nest (memberValues v found nest.children)),
        childValue? v found child with
    | some denominator, some value => own * exp (nest.scale * value - denominator)
    | _, _ => 0

variable {v : UtilityVector α} {found : Array (Option α)} {reach : Reach α}

omit [Numeric α] in
/-- Reaching a member covers what was covered. -/
@[simp] theorem Reach.covers_assign (child other : Child) (p : α) :
    (reach.assign child p).Covers other ↔ reach.Covers other := by
  cases child <;> cases other <;> simp [assign, Covers]

/-- Reaching a member changes its probability alone. -/
theorem Reach.probability_assign {child : Child} (hcovers : reach.Covers child) (p : α)
    (other : Child) : (reach.assign child p).probability other =
      if other = child then p else reach.probability other := by
  cases child with
  | alternative position =>
    cases other with
    | alternative other =>
      by_cases hother : other = position
      · subst hother
        have hroom : other < reach.alternatives.size := hcovers
        simp [assign, probability, hroom]
      · have hne : position ≠ other := fun h => hother h.symm
        simp [assign, probability, Array.getElem?_setIfInBounds_ne hne, hother]
    | nest index => simp [assign, probability]
  | nest index =>
    cases other with
    | alternative position => simp [assign, probability]
    | nest other =>
      by_cases hother : other = index
      · subst hother
        have hroom : other < reach.nests.size := hcovers
        simp [assign, probability, hroom]
      · have hne : index ≠ other := fun h => hother h.symm
        simp [assign, probability, Array.getElem?_setIfInBounds_ne hne, hother]

/-- Reaching the members that have a value changes their probabilities alone. -/
theorem Reach.probability_assignAll {children : List Child} (hnodup : children.Nodup)
    (hcovers : ∀ child ∈ children, reach.Covers child) (f : α → α) (other : Child) :
    ((memberValues v found children).foldl
      (fun reach member => reach.assign member.1 (f member.2)) reach).probability other =
      (if other ∈ children then (childValue? v found other).map f else none).getD
        (reach.probability other) := by
  induction children generalizing reach with
  | nil => simp [memberValues]
  | cons child children ih =>
    rcases List.nodup_cons.mp hnodup with ⟨hchild, hrest⟩
    have hcoversRest : ∀ child ∈ children, reach.Covers child :=
      fun child hmem => hcovers child (List.mem_cons_of_mem _ hmem)
    cases hvalue : childValue? v found child with
    | none =>
      have hskip : memberValues v found (child :: children) = memberValues v found children := by
        simp [memberValues, hvalue]
      rw [hskip, ih hrest hcoversRest]
      by_cases hother : other = child
      · subst hother
        simp [hchild, hvalue]
      · simp [hother]
    | some x =>
      have htake : memberValues v found (child :: children) =
          (child, x) :: memberValues v found children := by
        simp [memberValues, hvalue]
      rw [htake, List.foldl_cons, ih hrest (by simpa using hcoversRest),
        probability_assign (hcovers child List.mem_cons_self)]
      by_cases hother : other = child
      · subst hother
        simp [hchild, hvalue]
      · simp [hother]

/-- Dividing a nest gives its members what it passes on to them, and leaves everything else. -/
theorem Reach.probability_divide {nest : Nest α} (hnodup : nest.children.Nodup)
    (hcovers : ∀ child ∈ nest.children, reach.Covers child)
    (hpending : ∀ child ∈ nest.children, reach.probability child = 0) (index : Nat)
    (other : Child) : (reach.divide v found index nest).probability other =
      if other ∈ nest.children then passed v found nest (reach.probability (.nest index)) other
      else reach.probability other := by
  have hnothing (h : other ∈ nest.children →
      passed v found nest (reach.probability (.nest index)) other = 0) :
      reach.probability other = if other ∈ nest.children then
        passed v found nest (reach.probability (.nest index)) other else reach.probability other := by
    split
    · rename_i hother
      rw [hpending other hother, h hother]
    · rfl
  unfold divide
  simp only
  split
  · rename_i hown
    exact hnothing fun _ => if_pos hown
  · rename_i hown
    split
    · rename_i hnone
      exact hnothing fun _ => by simp [passed, hnone]
    · rename_i denominator hsome
      rw [probability_assignAll hnodup hcovers
        fun x => reach.nests[index]?.getD 0 * exp (nest.scale * x - denominator)]
      split
      · rename_i hother
        cases hvalue : childValue? v found other with
        | none => simp [passed, hvalue, hpending other hother]
        | some x => simp [passed, hvalue, hsome, hown, probability]
      · rfl

omit [Numeric α] in
/-- Reaching members covers what was covered. -/
theorem Reach.covers_assignAll {β : Type} (members : List β) (child : β → Child) (p : β → α)
    (other : Child) :
    (members.foldl (fun reach member => reach.assign (child member) (p member)) reach).Covers other ↔
      reach.Covers other := by
  induction members generalizing reach with
  | nil => rfl
  | cons member members ih => simp [ih]

/-- Dividing a nest covers what was covered. -/
@[simp] theorem Reach.covers_divide (index : Nat) (nest : Nest α) (other : Child) :
    (reach.divide v found index nest).Covers other ↔ reach.Covers other := by
  unfold divide
  simp only
  split
  · rfl
  · split
    · rfl
    · exact covers_assignAll _ _ _ other

/-! ## The walk -/

variable {tree : NestTree α} {nesting : Nesting α}

/-- The nests in front of an index have been divided, and the members of the others have not been
reached. -/
structure Reach.Swept (tree : NestTree α) (v : UtilityVector α) (found : Array (Option α))
    (reach : Reach α) (stage : Nat) : Prop where
  root : reach.probability (.nest 0) = 1
  covers {index : Nat} {nest : Nest α} : tree.nest? index = some nest →
    ∀ child ∈ nest.children, reach.Covers child
  divided {index : Nat} {nest : Nest α} : tree.nest? index = some nest → index < stage →
    ∀ child ∈ nest.children,
      reach.probability child = passed v found nest (reach.probability (.nest index)) child
  pending {index : Nat} {nest : Nest α} : tree.nest? index = some nest → stage ≤ index →
    ∀ child ∈ nest.children, reach.probability child = 0

/-- At the root nothing is divided. -/
theorem Reach.Swept.atRoot (h : tree.Arranges nesting)
    (hbound : ∀ position ∈ nesting.positions, position < v.size) :
    (Reach.atRoot tree v).Swept tree v found 0 where
  root := by
    have hroot := h.formed.root
    simp [Reach.atRoot, probability, hroot]
  covers hnest child hchild := by
    rcases h.mem_children hnest hchild with ⟨position, hposition, rfl⟩ | ⟨inner, -, hinner, rfl⟩
    · simpa [Reach.atRoot, Covers] using hbound position hposition
    · simpa [Reach.atRoot, Covers] using hinner
  divided _ hindex := absurd hindex (Nat.not_lt_zero _)
  pending hnest _ child hchild := by
    rcases h.mem_children hnest hchild with ⟨position, hposition, rfl⟩ | ⟨inner, hlater, hinner, rfl⟩
    · simp [Reach.atRoot, probability, hbound position hposition]
    · have hne : 0 ≠ inner := by omega
      simp only [Reach.atRoot, probability]
      rw [Array.getElem?_setIfInBounds_ne hne, Array.getElem?_replicate, if_pos hinner,
        Option.getD_some]

/-- Dividing the next nest gives it to those that have been divided. -/
theorem Reach.Swept.divide (h : tree.Arranges nesting) {stage : Nat} {nest : Nest α}
    (hswept : reach.Swept tree v found stage) (hnest : tree.nest? stage = some nest) :
    (reach.divide v found stage nest).Swept tree v found (stage + 1) := by
  have hprobability (other : Child) : (reach.divide v found stage nest).probability other =
      if other ∈ nest.children then passed v found nest (reach.probability (.nest stage)) other
      else reach.probability other :=
    probability_divide (h.nodup_children hnest) (hswept.covers hnest) (hswept.pending hnest le_rfl)
      stage other
  -- nests up to this one are not among its members
  have hnests {index : Nat} (hindex : index ≤ stage) :
      (reach.divide v found stage nest).probability (.nest index) =
        reach.probability (.nest index) := by
    rw [hprobability, if_neg]
    intro hmem
    have := ((h.formed.nest hnest).later index hmem).1
    omega
  -- members of other nests are not among its members either
  have hothers {index : Nat} {other : Nest α} (hother : tree.nest? index = some other)
      (hne : stage ≠ index) {child : Child} (hchild : child ∈ other.children) :
      (reach.divide v found stage nest).probability child = reach.probability child := by
    rw [hprobability, if_neg]
    exact fun hmem => hne (((h.listsOnce hother hchild).mem_iff hnest).mp hmem)
  refine ⟨?_, ?_, ?_, ?_⟩
  · rw [hnests (Nat.zero_le _), hswept.root]
  · intro index other hother child hchild
    rw [covers_divide]
    exact hswept.covers hother child hchild
  · intro index other hother hindex child hchild
    rw [hnests (by omega)]
    by_cases hself : stage = index
    · subst hself
      rcases Option.some.inj (hnest.symm.trans hother) with rfl
      rw [hprobability, if_pos hchild]
    · rw [hothers hother hself hchild]
      exact hswept.divided hother (by omega) child hchild
  · intro index other hother hindex child hchild
    rw [hothers hother (by omega) hchild]
    exact hswept.pending hother (by omega) child hchild

/-- In the end every nest has been divided. -/
theorem Reach.swept (h : tree.Arranges nesting)
    (hbound : ∀ position ∈ nesting.positions, position < v.size) :
    (Reach.final tree v).Swept tree v (composites tree v) tree.size := by
  apply Reach.final_induction (motive := fun stage reach => reach.Swept tree v (composites tree v) stage)
    (.atRoot h hbound)
  intro stage reach nest hnest hswept
  exact hswept.divide h hnest

/-- The alternatives of a tree of all alternatives are among those of a vector of its size. -/
theorem lt_size_of_laysOut {count : Nat} (h : tree.LaysOut nesting count) (hsize : v.size = count) :
    ∀ position ∈ nesting.positions, position < v.size := by
  intro position hposition
  rw [hsize]
  exact h.mem_positions.mp hposition

/-- In the end every nest of a tree of all alternatives has been divided. -/
theorem Reach.swept_of_laysOut {count : Nat} (h : tree.LaysOut nesting count)
    (hsize : v.size = count) :
    (Reach.final tree v).Swept tree v (composites tree v) tree.size :=
  Reach.swept h.arranges (lt_size_of_laysOut h hsize)

end Logit
end DiscreteChoice
