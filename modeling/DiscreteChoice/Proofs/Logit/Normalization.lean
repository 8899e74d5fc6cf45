import DiscreteChoice.Proofs.Logit.Precision
import DiscreteChoice.Proofs.Logit.Sweep
import DiscreteChoice.Proofs.Numeric.DoublePrecision

/-!
# Probabilities that add up to one

What the members of a nest get adds up to what the nest gets, up to a strain that grows with the
log-sum-exp of the nest. Summed over all nests, everything cancels but the alternatives and the root, so
that the probabilities add up to one up to the strain of the whole tree, in which every nest counts as
far as it is reached.

Main results:

- Theorem `NestTree.LaysOut.sum_children`: sums over members are sums over alternatives and nests.
- Theorem `Logit.abs_divided_sub_le`: how far the members of a nest are from the nest.
- Theorem `Logit.probabilities_sum_near_one`: the probabilities add up to one within one in `10 ^ 9`,
  unless the tree is strained.
-/

namespace DiscreteChoice

variable {α : Type}

namespace NestTree

/-- The sum of what is worked out for each nest of a tree. -/
def sumNests (tree : NestTree α) (f : Nat → Nest α → ℝ) : ℝ :=
  (tree.nests.toList.zipIdx.map fun entry => f entry.2 entry.1).sum

variable {tree : NestTree α}

/-- The nests of a tree are in the sum with their indices. -/
theorem mem_zipIdx_iff {entry : Nest α × Nat} :
    entry ∈ tree.nests.toList.zipIdx ↔ tree.nest? entry.2 = some entry.1 := by
  rw [List.mem_zipIdx_iff_getElem?, nest?, Array.getElem?_toList]

/-- What is added up for each nest is added up over all nests. -/
theorem sumNests_add (tree : NestTree α) (f g : Nat → Nest α → ℝ) :
    tree.sumNests (fun index nest => f index nest + g index nest) =
      tree.sumNests f + tree.sumNests g :=
  List.sum_map_add

/-- What is multiplied for each nest is multiplied over all nests. -/
theorem sumNests_mul_left (tree : NestTree α) (a : ℝ) (f : Nat → Nest α → ℝ) :
    tree.sumNests (fun index nest => a * f index nest) = a * tree.sumNests f :=
  List.sum_map_mul_left ..

/-- Sums over all nests are close when the entries are. -/
theorem abs_sumNests_sub_le {f g b : Nat → Nest α → ℝ}
    (h : ∀ index nest, tree.nest? index = some nest → |f index nest - g index nest| ≤ b index nest) :
    |tree.sumNests f - tree.sumNests g| ≤ tree.sumNests b :=
  Numeric.abs_sum_map_sub_le fun entry hentry => h entry.2 entry.1 (mem_zipIdx_iff.mp hentry)

/-- An entry that is not negative is at most the sum of such entries. -/
theorem le_sumNests {f : Nat → Nest α → ℝ}
    (h : ∀ index nest, tree.nest? index = some nest → 0 ≤ f index nest) {index : Nat}
    {nest : Nest α} (hnest : tree.nest? index = some nest) : f index nest ≤ tree.sumNests f := by
  refine List.single_le_sum ?_ _ (List.mem_map.mpr ⟨(nest, index), mem_zipIdx_iff.mpr hnest, rfl⟩)
  intro x hx
  rcases List.mem_map.mp hx with ⟨entry, hentry, rfl⟩
  exact h entry.2 entry.1 (mem_zipIdx_iff.mp hentry)

variable [Numeric α] {nesting : Nesting α} {count : Nat}

/-- What a function has at all members is what it has at all alternatives and at all nests but the
root. -/
theorem LaysOut.sum_children (h : tree.LaysOut nesting count) (f : Child → ℝ) :
    tree.sumNests (fun _ nest => (nest.children.map f).sum) + f (.nest 0) =
      ((List.range count).map fun position => f (.alternative position)).sum +
        tree.sumNests fun index _ => f (.nest index) := by
  have hmembers : tree.sumNests (fun _ nest => (nest.children.map f).sum) =
      ((allChildren tree.nests).map f).sum := by
    have hnests : tree.nests.toList.zipIdx.map Prod.fst = tree.nests.toList := by simp
    rw [sumNests, allChildren, List.map_flatMap, List.flatMap_def, List.sum_flatten, List.map_map]
    conv_rhs => rw [← hnests, List.map_map]
    rfl
  have hindices : tree.sumNests (fun index _ => f (.nest index)) =
      f (.nest 0) + ((List.range' 1 (tree.size - 1)).map fun index => f (.nest index)).sum := by
    have hrow : tree.nests.toList.length = tree.size - 1 + 1 := by
      have hroot := h.formed.root
      rw [Array.length_toList]
      unfold size at hroot ⊢
      omega
    have hzip : tree.nests.toList.zipIdx.map Prod.snd = 0 :: List.range' 1 (tree.size - 1) := by
      rw [List.zipIdx_map_snd, hrow, List.range'_succ]
    have hmap : tree.sumNests (fun index _ => f (.nest index)) =
        ((tree.nests.toList.zipIdx.map Prod.snd).map fun index => f (.nest index)).sum := by
      rw [sumNests, List.map_map]
      rfl
    rw [hmap, hzip, List.map_cons, List.sum_cons]
  have halternatives := (h.positions.map fun position => f (.alternative position)).sum_eq
  rw [hmembers, hindices, (h.listed.map f).sum_eq, List.map_append, List.sum_append, List.map_map,
    List.map_map, ← halternatives]
  simp only [Function.comp_def]
  ring

end NestTree

namespace Logit

open Numeric LawfulNumeric RoundingNumeric

variable [Numeric α]

/-! ## Members with a value -/

/-- One for what has a value, and zero for what has none. -/
def present (v : UtilityVector α) (found : Array (Option α)) (child : Child) : ℝ :=
  if (childValue? v found child).isSome then 1 else 0

/-- How many members of a nest have a value. -/
def memberCount (v : UtilityVector α) (found : Array (Option α)) (nest : Nest α) : ℕ :=
  (memberValues v found nest.children).length

variable {tree : NestTree α} {count : Nat} {v : UtilityVector α} {found : Array (Option α)}
  {nest : Nest α} {index : Nat}

omit [Numeric α] in
theorem present_nonneg (v : UtilityVector α) (found : Array (Option α)) (child : Child) :
    0 ≤ present v found child := by
  unfold present
  split_ifs <;> norm_num

omit [Numeric α] in
theorem present_le_one (v : UtilityVector α) (found : Array (Option α)) (child : Child) :
    present v found child ≤ 1 := by
  unfold present
  split_ifs <;> norm_num

omit [Numeric α] in
/-- The members with a value are counted one by one. -/
theorem sum_present (v : UtilityVector α) (found : Array (Option α)) (nest : Nest α) :
    (nest.children.map (present v found)).sum = memberCount v found nest := by
  rw [memberCount]
  induction nest.children with
  | nil => simp [memberValues]
  | cons child children ih =>
    cases hvalue : childValue? v found child with
    | none => simpa [memberValues, present, hvalue] using ih
    | some x =>
      have hcons : memberValues v found (child :: children) =
          (child, x) :: memberValues v found children := by simp [memberValues, hvalue]
      rw [List.map_cons, List.sum_cons, ih, hcons, List.length_cons, present, hvalue]
      push_cast
      simp [add_comm]

/-- A nest with a value has a member with one. -/
theorem present_le_memberCount (formed : tree.IsFormed count)
    (hnest : tree.nest? index = some nest) :
    present v (composites tree v) (.nest index) ≤ memberCount v (composites tree v) nest := by
  unfold present
  split_ifs with hsome
  · rw [composites_spec formed v hnest, composite?, Option.isSome_map] at hsome
    have hmembers : memberCount v (composites tree v) nest ≠ 0 := by
      intro hnone
      rw [memberCount, List.length_eq_zero_iff] at hnone
      simp [hnone, scaledValues] at hsome
    exact_mod_cast Nat.one_le_iff_ne_zero.mpr hmembers
  · exact Nat.cast_nonneg _

variable {nesting : Nesting α}

/-- Every alternative is divided out once: there are no more members with a value than there are
alternatives, apart from one for each nest. -/
theorem sumNests_memberCount_sub_le (h : tree.LaysOut nesting count) :
    tree.sumNests (fun index nest => (memberCount v (composites tree v) nest : ℝ) -
      present v (composites tree v) (.nest index)) ≤ count := by
  have hall := h.sum_children (present v (composites tree v))
  simp only [sum_present] at hall
  have hsplit := tree.sumNests_add (fun index nest =>
    (memberCount v (composites tree v) nest : ℝ) - present v (composites tree v) (.nest index))
    fun index _ => present v (composites tree v) (.nest index)
  simp only [sub_add_cancel] at hsplit
  have halternatives : ((List.range count).map fun position =>
      present v (composites tree v) (.alternative position)).sum ≤ count := by
    have hle : ∀ x ∈ (List.range count).map fun position =>
        present v (composites tree v) (.alternative position), x ≤ 1 := by
      intro x hx
      rcases List.mem_map.mp hx with ⟨position, -, rfl⟩
      exact present_le_one v _ _
    simpa using List.sum_le_card_nsmul _ 1 hle
  have hroot := present_nonneg v (composites tree v) (.nest 0)
  linarith

/-- A nest has at most one member with a value more than there are alternatives. -/
theorem memberCount_le (h : tree.LaysOut nesting count) (hnest : tree.nest? index = some nest) :
    (memberCount v (composites tree v) nest : ℝ) ≤ count + 1 := by
  have hle := NestTree.le_sumNests (f := fun index nest =>
    (memberCount v (composites tree v) nest : ℝ) - present v (composites tree v) (.nest index))
    (fun _ _ hnest => sub_nonneg.mpr (present_le_memberCount h.formed hnest)) hnest
  have hsum := sumNests_memberCount_sub_le (v := v) h
  have hone := present_le_one v (composites tree v) (.nest index)
  linarith

/-! ## The strain of a tree -/

/-- How much rounding strains the shares of the members of a nest. -/
noncomputable def nestStrain [LawfulNumeric α] (v : UtilityVector α) (found : Array (Option α))
    (nest : Nest α) : ℝ :=
  match logSumExp? (scaledValues nest (memberValues v found nest.children)) with
  | some logsum => strain (memberCount v found nest) (value logsum)
  | none => 0

/-- How much rounding strains the shares of a tree, where every nest counts as far as it is reached. -/
noncomputable def treeStrain [LawfulNumeric α] (tree : NestTree α) (v : UtilityVector α) : ℝ :=
  tree.sumNests fun index nest =>
    real ((Reach.final tree v).probability (.nest index)) * nestStrain v (composites tree v) nest

/-! ## Dividing a nest -/

section

variable [PreciseNumeric α]

/-- What a nest that is reached passes on to its members is what it passes on to those with a value. -/
theorem sum_passed {own logsum : α} (hown : eq own 0 = false)
    (h : logSumExp? (scaledValues nest (memberValues v found nest.children)) = some logsum) :
    (nest.children.map fun child => real (passed v found nest own child)).sum =
      ((scaledValues nest (memberValues v found nest.children)).map
        fun x => real (own * exp (x - logsum))).sum := by
  have hpassed (child : Child) : real (passed v found nest own child) =
      ((childValue? v found child).map fun x => real (own * exp (nest.scale * x - logsum))).getD 0 := by
    rw [passed, hown, h]
    cases childValue? v found child with
    | none => simp
    | some x => simp
  simp only [hpassed]
  rw [scaledValues_memberValues, List.map_map]
  induction nest.children with
  | nil => rfl
  | cons child children ih =>
    cases hvalue : childValue? v found child with
    | none => simpa [hvalue] using ih
    | some x => simpa [hvalue] using ih

omit [PreciseNumeric α] in
/-- There is a scaled value for each member with a value. -/
theorem length_scaledValues (v : UtilityVector α) (found : Array (Option α)) (nest : Nest α) :
    (scaledValues nest (memberValues v found nest.children)).length = memberCount v found nest :=
  List.length_map _

/-- Moderate scaled values cause a moderate strain. -/
theorem nestStrain_le (functions : AccurateFunctions α) (hscale : IsScale nest.scale)
    (hcount : (nest.children.length : ℝ) ≤ 10 ^ 9)
    (hdefined : ∀ child x, childValue? v found child = some x → isNaN x = false) {limit : ℝ}
    (hnonneg : 0 ≤ limit) (hlimit : limit ≤ 10 ^ 11)
    (hbound : ∀ child ∈ nest.children, ∀ x, childValue? v found child = some x →
      |real (nest.scale * x)| ≤ limit) :
    nestStrain v found nest ≤ 2 * limit + 8 * nest.children.length := by
  have hlength : (memberCount v found nest : ℝ) ≤ nest.children.length := by
    exact_mod_cast List.length_filterMap_le _ _
  have hmembers : ∀ member ∈ memberValues v found nest.children, isNaN member.2 = false :=
    fun member hmember => hdefined _ _ (mem_memberValues.mp hmember).2
  unfold nestStrain
  split
  · rename_i logsum hlogsum
    rw [← length_scaledValues] at hlength ⊢
    have hscaled : ∀ x ∈ scaledValues nest (memberValues v found nest.children),
        |real x| ≤ limit := by
      intro x hx
      rcases List.mem_map.mp hx with ⟨member, hmember, rfl⟩
      rcases mem_memberValues.mp hmember with ⟨hchild, hvalue⟩
      exact hbound member.1 hchild member.2 hvalue
    have hle := strain_le functions (isNaN_scaledValues hscale hmembers) (hlength.trans hcount)
      hlimit hscaled hlogsum
    linarith
  · linarith [Nat.cast_nonneg (α := ℝ) nest.children.length]

/-- A nest that is reached has a composite utility. -/
theorem isSome_childValue_of_reached (h : tree.LaysOut nesting count) (hsize : v.size = count)
    (hroot : (childValue? v (composites tree v) (.nest 0)).isSome)
    (hnest : tree.nest? index = some nest)
    (hreached : eq ((Reach.final tree v).probability (.nest index)) 0 = false) :
    (childValue? v (composites tree v) (.nest index)).isSome := by
  rcases Nat.eq_zero_or_pos index with rfl | hpos
  · exact hroot
  · have hindex : index < tree.size := (Array.getElem?_eq_some_iff.mp hnest).1
    rcases h.listsOnce_nest hpos hindex with ⟨owner, -, howner⟩
    have hbound : owner < tree.nests.size := howner.1
    have hother : tree.nest? owner = some tree.nests[owner] := Array.getElem?_eq_getElem hbound
    have hdivided := (Reach.swept_of_laysOut h hsize).divided hother howner.1 (.nest index)
      ((howner.mem_iff hother).mpr rfl)
    rw [← Option.not_isNone, Bool.not_eq_true']
    by_contra hnone
    rw [Bool.not_eq_false, Option.isNone_iff_eq_none] at hnone
    -- without a value nothing is passed on to it
    have hzero : (Reach.final tree v).probability (.nest index) = 0 := by
      rw [hdivided, passed, hnone]
      split <;> simp
    rw [hzero] at hreached
    have heq : eq (0 : α) 0 = true := (eq_iff _ _).mpr ⟨isNaN_zero, isNaN_zero, rfl⟩
    rw [heq] at hreached
    cases hreached

/-- The members of a nest get what the nest gets, as far as its strain allows. -/
theorem abs_divided_sub_le (functions : AccurateFunctions α) (h : tree.LaysOut nesting count)
    (hsize : v.size = count) (hcount : count ≤ 10 ^ 6)
    (hfinite : ∀ u ∈ v.availableUtilities, isFinite u = true)
    (hroot : (childValue? v (composites tree v) (.nest 0)).isSome)
    (hnest : tree.nest? index = some nest) :
    |(nest.children.map fun child => real ((Reach.final tree v).probability child)).sum -
      real ((Reach.final tree v).probability (.nest index))| ≤
        11 / 10 * roundoff * (real ((Reach.final tree v).probability (.nest index)) *
          nestStrain v (composites tree v) nest) +
        roundoff * (tiny * (2 * (memberCount v (composites tree v) nest -
          present v (composites tree v) (.nest index)))) := by
  have hown : IsShare ((Reach.final tree v).probability (.nest index)) :=
    (Reach.shares_final functions.toLawfulFunctions h.formed hfinite).nest index
  have hdivided := (Reach.swept_of_laysOut h hsize).divided hnest
    (Array.getElem?_eq_some_iff.mp hnest).1
  have hmembers : ∀ member ∈ memberValues v (composites tree v) nest.children,
      isNaN member.2 = false := fun member hmember =>
    isNaN_childValue functions.toLawfulFunctions h.formed hfinite (mem_memberValues.mp hmember).2
  have hscaled := isNaN_scaledValues (.of_check (h.formed.nest hnest).scale) hmembers
  have hlength := length_scaledValues v (composites tree v) nest
  have hbound := memberCount_le (v := v) h hnest
  rw [List.map_congr_left fun child hchild => congrArg real (hdivided child hchild)]
  cases hreached : eq ((Reach.final tree v).probability (.nest index)) 0 with
  | true =>
    -- nothing is divided
    have hzero : real ((Reach.final tree v).probability (.nest index)) = 0 := by
      have hvalue := ((eq_iff _ _).mp hreached).2.2
      rw [real, hvalue, value_zero, EReal.toReal_zero]
    have hrest := sub_nonneg.mpr (present_le_memberCount (v := v) h.formed hnest)
    have hlost := mul_nonneg roundoff_pos.le
      (mul_nonneg tiny_pos.le (mul_nonneg zero_le_two hrest))
    simpa [passed, hreached, hzero] using hlost
  | false =>
    have hsome := isSome_childValue_of_reached h hsize hroot hnest hreached
    have hpresent : present v (composites tree v) (.nest index) = 1 := if_pos hsome
    rw [composites_spec h.formed v hnest, composite?, Option.isSome_map] at hsome
    rcases Option.isSome_iff_exists.mp hsome with ⟨logsum, hlogsum⟩
    have herror := abs_sum_shares_sub_le functions hscaled ?_ hlogsum hown
    · rw [hlength] at herror
      rw [sum_passed hreached hlogsum, hpresent, nestStrain, hlogsum]
      exact herror
    · rw [hlength]
      have hmillion : (count : ℝ) ≤ 10 ^ 6 := by exact_mod_cast hcount
      linarith

/-! ## The sum of the probabilities -/

/-- The alternatives are reached with as much as the root, as far as the strain allows. -/
theorem abs_sum_final_sub_one_le (functions : AccurateFunctions α) (h : tree.LaysOut nesting count)
    (hsize : v.size = count) (hcount : count ≤ 10 ^ 6)
    (hfinite : ∀ u ∈ v.availableUtilities, isFinite u = true)
    (hroot : (childValue? v (composites tree v) (.nest 0)).isSome) :
    |((Reach.final tree v).alternatives.toList.map real).sum - 1| ≤
      11 / 10 * roundoff * treeStrain tree v + roundoff * (tiny * (2 * count)) := by
  have hall := h.sum_children fun child => real ((Reach.final tree v).probability child)
  have hdivided := NestTree.abs_sumNests_sub_le fun _ _ hnest =>
    abs_divided_sub_le functions h hsize hcount hfinite hroot hnest
  rw [NestTree.sumNests_add, NestTree.sumNests_mul_left, NestTree.sumNests_mul_left,
    NestTree.sumNests_mul_left, NestTree.sumNests_mul_left] at hdivided
  -- everything cancels but the alternatives and the root
  have hone : real ((Reach.final tree v).probability (.nest 0)) = 1 := by
    rw [(Reach.swept_of_laysOut h hsize).root, real_one]
  have halternatives : ((List.range count).map fun position =>
      real ((Reach.final tree v).probability (.alternative position))).sum =
        ((Reach.final tree v).alternatives.toList.map real).sum := by
    have hlength := (Reach.sound_final tree v).size_eq.trans hsize
    congr 1
    apply List.ext_getElem
    · simp [hlength]
    · intro position hposition _
      have hposition : position < (Reach.final tree v).alternatives.size := by
        simpa [hlength] using hposition
      simp [Reach.probability, hposition]
  rw [hone, halternatives] at hall
  have hsplit : ((Reach.final tree v).alternatives.toList.map real).sum - 1 =
      tree.sumNests (fun _ nest => (nest.children.map fun child =>
        real ((Reach.final tree v).probability child)).sum) -
      tree.sumNests fun index _ => real ((Reach.final tree v).probability (.nest index)) := by
    linarith
  rw [hsplit]
  refine hdivided.trans (add_le_add le_rfl ?_)
  exact mul_le_mul_of_nonneg_left (mul_le_mul_of_nonneg_left (mul_le_mul_of_nonneg_left
    (sumNests_memberCount_sub_le h) zero_le_two) tiny_pos.le) roundoff_pos.le

/-- For every tree that can be built, over at most a million alternatives, and whatever the finite
utilities are, the probabilities of the flat model add up to one within one in `10 ^ 9`. So do those of
the nested model, unless the log-sum-exps of the nests are so large that rounding strains the tree. -/
theorem probabilities_sum_near_one (functions : AccurateFunctions α) (built : tree.IsBuilt count)
    (hsize : v.size = count) (hcount : count ≤ 10 ^ 6)
    (hfinite : ∀ u ∈ v.availableUtilities, isFinite u = true) {p : Array α} {logsum : α}
    (hp : probabilities tree v = .ok (p, logsum))
    (hstrain : tree.isFlat = false → treeStrain tree v ≤ 8 * 10 ^ 6) :
    |(p.toList.map real).sum - 1| ≤ 1 / 10 ^ 9 := by
  have hmillion : (count : ℝ) ≤ 10 ^ 6 := by exact_mod_cast hcount
  have hroundoff : roundoff = 1 / 2 ^ 53 := rfl
  cases hflat : tree.isFlat with
  | true =>
    rw [probabilities_of_flat hflat] at hp
    simp only [bind_eq_ok, pure_eq_ok, Except.ok.injEq, Prod.mk.injEq] at hp
    rcases hp with ⟨q, hq, _, _, rfl, _⟩
    have hsum := abs_sum_flat_sub_one_le functions hfinite (by rw [hsize]; linarith) hq
    rw [hsize] at hsum
    refine hsum.trans ?_
    rw [hroundoff]
    linarith
  | false =>
    rcases built.laysOut isScale_one with ⟨nesting, h⟩
    rw [probabilities, hflat, if_neg Bool.false_ne_true, nestedProbabilities_eq] at hp
    unfold nestedLogsum at hp
    split at hp
    · rename_i total htotal
      rcases Prod.mk.inj (Except.ok.inj hp) with ⟨rfl, -⟩
      have hroot : (childValue? v (composites tree v) (.nest 0)).isSome := by
        rw [childValue?, htotal]
        rfl
      have hsum := abs_sum_final_sub_one_le functions h hsize hcount hfinite hroot
      have hbound := hstrain hflat
      refine hsum.trans ?_
      rw [hroundoff]
      have hlost : tiny * (2 * count) ≤ 1 / 10 ^ 60 * (2 * 10 ^ 6) := by
        gcongr
        exact tiny_le
      linarith
    · cases hp

end

/-! ## Two equal alternatives -/

/-- Two alternatives in a nest. -/
def pairTree (scale : α) : NestTree α :=
  ⟨#[⟨"root", scale, [.alternative 0, .alternative 1]⟩]⟩

/-- Two alternatives of the same utility. -/
def equalPair (u : α) : UtilityVector α :=
  ⟨7, #[some u, some u]⟩

theorem isBuilt_pairTree {scale : α} (hscale : (lt 0 scale && le scale 1) = true) :
    (pairTree scale).IsBuilt 2 := by
  have numbering : NestTree.Numbering (((∅ : Std.TreeMap AlternativeId Nat).insert 1 0).insert 2 1) 2 :=
    (NestTree.Numbering.empty.insert (by decide)).insert (by decide)
  have htree : NestTree.ofConfig (.nest "root" scale [.alternative 1, .alternative 2])
      (((∅ : Std.TreeMap AlternativeId Nat).insert 1 0).insert 2 1) = .ok (pairTree scale) := by
    simp only [NestTree.ofConfig, NestTree.Builder.addNest, NestTree.Builder.addMembers,
      NestTree.Builder.addMember, hscale]
    with_unfolding_all rfl
  exact .ofConfig numbering htree

omit [Numeric α] in
theorem eq_of_mem_equalPair {u x : α} (h : x ∈ (equalPair u).availableUtilities) : x = u := by
  simpa [equalPair, UtilityVector.availableUtilities] using h

/-- Half of a utility, in doubles with the functions of a library. -/
def oneHalf (library : Double.MathLibrary) : Double.With library :=
  (0.5 : Float)

theorem isScale_oneHalf (library : Double.MathLibrary) :
    (lt 0 (oneHalf library) && le (oneHalf library) 1) = true := by
  change (decide ((0 : Float) < 0.5) && decide ((0.5 : Float) ≤ 1)) = true
  decide

/-- A utility to which the logarithm of two cannot be added. -/
def largeUtility : Double.With .coarse :=
  (1e17 : Float)

set_option maxRecDepth 8000 in
/-- The logarithm of two is lost when it is added to the largest scaled utility, so that both
alternatives have the whole probability. -/
theorem largePair_sum_not_near_one :
    (pairTree (oneHalf .coarse)).IsBuilt 2 ∧ (equalPair largeUtility).size = 2 ∧
      (equalPair largeUtility).isAvailable 0 = true ∧
      (∀ u ∈ (equalPair largeUtility).availableUtilities, isFinite u = true) ∧
      ∃ p logsum, probabilities (pairTree (oneHalf .coarse)) (equalPair largeUtility) =
        .ok (p, logsum) ∧ ¬|(p.toList.map real).sum - 1| ≤ 1 / 10 ^ 9 := by
  have hp : probabilities (pairTree (oneHalf .coarse)) (equalPair largeUtility) =
      .ok (#[1, 1], largeUtility) := by
    with_unfolding_all rfl
  refine ⟨isBuilt_pairTree (isScale_oneHalf _), rfl, rfl, ?_, _, _, hp, ?_⟩
  · intro u hu
    rw [eq_of_mem_equalPair hu]
    with_unfolding_all rfl
  · norm_num

/-- Two alternatives that nothing speaks for or against cause hardly any strain. -/
theorem treeStrain_restingPair [PreciseNumeric α] (functions : AccurateFunctions α) {scale : α}
    (hscale : (lt 0 scale && le scale 1) = true) :
    treeStrain (pairTree scale) (equalPair 0) ≤ 16 := by
  rcases (isBuilt_pairTree hscale).laysOut isScale_one with ⟨nesting, h⟩
  have hroot : (Reach.final (pairTree scale) (equalPair 0)).probability (.nest 0) = 1 :=
    (Reach.swept_of_laysOut h rfl).root
  have hnests : (pairTree scale).nests.toList.zipIdx =
      [(⟨"root", scale, [.alternative 0, .alternative 1]⟩, 0)] := rfl
  have hfinite : ∀ u ∈ (equalPair (0 : α)).availableUtilities, isFinite u = true := by
    intro u hu
    rw [eq_of_mem_equalPair hu]
    exact isShare_zero.isFinite
  rw [treeStrain, NestTree.sumNests, hnests]
  simp only [List.map_cons, List.map_nil, List.sum_cons, List.sum_nil]
  rw [hroot, real_one, one_mul, add_zero]
  have hstrain : nestStrain (equalPair 0) (composites (pairTree scale) (equalPair 0))
      ⟨"root", scale, [.alternative 0, .alternative 1]⟩ ≤ 2 * 0 + 8 * (2 : ℕ) := by
    refine nestStrain_le functions (.of_check hscale) (by norm_num)
      (fun _ _ hx => isNaN_childValue functions.toLawfulFunctions h.formed hfinite hx) le_rfl
      (by norm_num) ?_
    intro child hchild x hx
    have hzero : x = 0 := by
      rcases List.mem_pair.mp hchild with rfl | rfl
      · exact eq_of_mem_equalPair (mem_availableUtilities_of_utility? hx)
      · exact eq_of_mem_equalPair (mem_availableUtilities_of_utility? hx)
    have hscaled := (IsScale.of_check hscale).denotes_mul (isNaN_zero (α := α))
    rw [value_zero, mul_zero, RoundingNumeric.round_zero, ← EReal.coe_zero] at hscaled
    rw [hzero, hscaled.real_eq, abs_zero]
  norm_num at hstrain
  exact hstrain

/-- Two alternatives that nothing speaks for or against. -/
theorem restingPair_sum_near_one :
    (pairTree (oneHalf .nearest)).IsBuilt 2 ∧ (equalPair (0 : Double.With .nearest)).size = 2 ∧
      2 ≤ 10 ^ 6 ∧
      (∀ u ∈ (equalPair (0 : Double.With .nearest)).availableUtilities, isFinite u = true) ∧
      treeStrain (pairTree (oneHalf .nearest)) (equalPair 0) ≤ 8 * 10 ^ 6 ∧
      ∃ p logsum, probabilities (pairTree (oneHalf .nearest)) (equalPair 0) = .ok (p, logsum) ∧
        |(p.toList.map real).sum - 1| ≤ 1 / 10 ^ 9 := by
  have functions := Double.accurate_nearest
  have built := isBuilt_pairTree (isScale_oneHalf .nearest)
  rcases built.laysOut isScale_one with ⟨nesting, h⟩
  have hfinite : ∀ u ∈ (equalPair (0 : Double.With .nearest)).availableUtilities,
      isFinite u = true := by
    intro u hu
    rw [eq_of_mem_equalPair hu]
    exact isShare_zero.isFinite
  have hstrain : treeStrain (pairTree (oneHalf .nearest)) (equalPair 0) ≤ 8 * 10 ^ 6 :=
    (treeStrain_restingPair functions (isScale_oneHalf .nearest)).trans (by norm_num)
  have hkept : ¬Drops (pairTree (oneHalf .nearest)) (equalPair 0) 0 := by
    intro hdrops
    rcases exists_drops_iff.mp ⟨0, hdrops⟩ with ⟨outer, nest, inner, -, hnest, hinner, -⟩
    cases outer with
    | zero =>
      obtain rfl : nest = ⟨"root", _, [.alternative 0, .alternative 1]⟩ :=
        (Option.some.inj hnest).symm
      rcases List.mem_pair.mp hinner with hinner | hinner <;> cases hinner
    | succ outer => simp [NestTree.nest?, pairTree] at hnest
  rcases probabilities_spec functions.toLawfulFunctions h.formed hfinite le_rfl
    (by simp [equalPair, UtilityVector.availableUtilities]) hkept with ⟨p, logsum, hp, -⟩
  exact ⟨built, rfl, by norm_num, hfinite, hstrain, p, logsum, hp,
    probabilities_sum_near_one functions built rfl (by norm_num) hfinite hp fun _ => hstrain⟩

end Logit
end DiscreteChoice
