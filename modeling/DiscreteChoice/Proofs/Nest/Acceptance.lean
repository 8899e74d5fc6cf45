import DiscreteChoice.Model.Basic
import DiscreteChoice.Proofs.Nest.Nesting
import DiscreteChoice.Proofs.Numeric.Laws
import DiscreteChoice.Proofs.Outcome

/-!
# Accepted nestings

Building a tree takes the names of the nests and the positions of the alternatives one after the other.
A step succeeds exactly when everything that it takes is fine in itself and still free, so that whether
a nesting is accepted depends on the list of all its nests and the list of all its ids only.

Main results:

- Theorem `NestTree.Builder.Takes.admits_append`: room for all is room for the first part, and for the
  rest once that is taken.
- Theorem `NestTree.Builder.decides_addNest`: adding a nest succeeds exactly when there is room for it.
- Theorem `NestTree.exists_ofConfig_iff`: a nesting is accepted exactly when it is valid.
-/

namespace DiscreteChoice

variable {α : Type} [Numeric α]

namespace NestTree
namespace Builder

/-- No entry is taken or there twice. -/
def Fresh {β : Type} (taken : β → Prop) (xs : List β) : Prop :=
  xs.Nodup ∧ ∀ x ∈ xs, ¬taken x

/-- Entries are fresh when the first part of them is, and the rest once the first part is taken. -/
theorem fresh_append {β : Type} {taken taken' : β → Prop} {xs ys : List β}
    (h : ∀ x, taken' x ↔ taken x ∨ x ∈ xs) :
    Fresh taken (xs ++ ys) ↔ Fresh taken xs ∧ Fresh taken' ys := by
  simp only [Fresh, List.nodup_append, List.forall_mem_append, h, not_or]
  constructor
  · rintro ⟨⟨hxs, hys, hdistinct⟩, hnew, hnew'⟩
    exact ⟨⟨hxs, hnew⟩, hys, fun y hy => ⟨hnew' y hy, fun hmem => hdistinct y hmem y hy rfl⟩⟩
  · rintro ⟨⟨hxs, hnew⟩, hys, hnew'⟩
    refine ⟨⟨hxs, hys, ?_⟩, hnew, fun y hy => (hnew' y hy).1⟩
    rintro x hx y hy rfl
    exact (hnew' x hy).2 hx

variable {positions : Std.TreeMap AlternativeId Nat} {b b' b'' : Builder α}
  {nests nests' : List (NestConfig α)} {ids ids' : List AlternativeId}

/-- What an insertion takes. -/
theorem contains_insert_iff {β : Type} [Ord β] [Std.TransOrd β] [Std.LawfulEqOrd β]
    {taken : Std.TreeSet β} {x y : β} :
    (taken.insert x).contains y = true ↔ taken.contains y = true ∨ y ∈ [x] := by
  rw [Std.TreeSet.contains_insert, Bool.or_eq_true, beq_iff_eq, Std.compare_eq_iff_eq,
    List.mem_singleton, or_comm, eq_comm (a := x)]

/-- The positions of those ids that have one. -/
def positionsOf (positions : Std.TreeMap AlternativeId Nat) (ids : List AlternativeId) : List Nat :=
  ids.filterMap (positions[·]?)

omit [Numeric α] in
@[simp] theorem positionsOf_append (ids ids' : List AlternativeId) :
    positionsOf positions (ids ++ ids') = positionsOf positions ids ++ positionsOf positions ids' :=
  List.filterMap_append

/-- Nests and ids that a builder has room for: every nest has a scale in (0, 1] and a member, every id
is known, and no name and no position is taken or used twice. -/
structure Admits (positions : Std.TreeMap AlternativeId Nat) (b : Builder α)
    (nests : List (NestConfig α)) (ids : List AlternativeId) : Prop where
  sound : ∀ nest ∈ nests,
    (Numeric.lt 0 nest.scale && Numeric.le nest.scale 1) = true ∧ nest.members ≠ []
  names : Fresh (b.names.contains · = true) (nests.map NestConfig.name)
  known : ∀ id ∈ ids, positions[id]? ≠ none
  placed : Fresh (b.placed.contains · = true) (positionsOf positions ids)

/-- The names of the nests and the positions of the ids are taken, and nothing else. -/
structure Takes (positions : Std.TreeMap AlternativeId Nat) (b b' : Builder α)
    (nests : List (NestConfig α)) (ids : List AlternativeId) : Prop where
  names (name : String) : b'.names.contains name = true ↔
    b.names.contains name = true ∨ name ∈ nests.map NestConfig.name
  placed (position : Nat) : b'.placed.contains position = true ↔
    b.placed.contains position = true ∨ position ∈ positionsOf positions ids

/-- There is room for all when there is room for the first part, and for the rest once that is taken. -/
theorem Takes.admits_append (h : Takes positions b b' nests ids) :
    Admits positions b (nests ++ nests') (ids ++ ids') ↔
      Admits positions b nests ids ∧ Admits positions b' nests' ids' := by
  have hnames : Fresh (b.names.contains · = true) ((nests ++ nests').map NestConfig.name) ↔
      Fresh (b.names.contains · = true) (nests.map NestConfig.name) ∧
        Fresh (b'.names.contains · = true) (nests'.map NestConfig.name) := by
    rw [List.map_append]
    exact fresh_append h.names
  have hplaced : Fresh (b.placed.contains · = true) (positionsOf positions (ids ++ ids')) ↔
      Fresh (b.placed.contains · = true) (positionsOf positions ids) ∧
        Fresh (b'.placed.contains · = true) (positionsOf positions ids') := by
    rw [positionsOf_append]
    exact fresh_append h.placed
  constructor
  · rintro ⟨hall, hfresh, hknown, hplaces⟩
    rcases List.forall_mem_append.mp hall with ⟨hfirst, hrest⟩
    rcases List.forall_mem_append.mp hknown with ⟨hknown, hknown'⟩
    rcases hnames.mp hfresh with ⟨hfresh, hfresh'⟩
    rcases hplaced.mp hplaces with ⟨hplaces, hplaces'⟩
    exact ⟨⟨hfirst, hfresh, hknown, hplaces⟩, hrest, hfresh', hknown', hplaces'⟩
  · rintro ⟨hfirst, hrest⟩
    exact ⟨List.forall_mem_append.mpr ⟨hfirst.sound, hrest.sound⟩,
      hnames.mpr ⟨hfirst.names, hrest.names⟩,
      List.forall_mem_append.mpr ⟨hfirst.known, hrest.known⟩,
      hplaced.mpr ⟨hfirst.placed, hrest.placed⟩⟩

/-- There is room for a part when there is room for all. -/
theorem Admits.left (h : Admits positions b (nests ++ nests') (ids ++ ids')) :
    Admits positions b nests ids where
  sound := (List.forall_mem_append.mp h.sound).1
  names := by
    have hnames := h.names
    rw [Fresh, List.map_append, List.nodup_append, List.forall_mem_append] at hnames
    exact ⟨hnames.1.1, hnames.2.1⟩
  known := (List.forall_mem_append.mp h.known).1
  placed := by
    have hplaced := h.placed
    rw [Fresh, positionsOf_append, List.nodup_append, List.forall_mem_append] at hplaced
    exact ⟨hplaced.1.1, hplaced.2.1⟩

omit [Numeric α] in
/-- What is taken one after the other is taken together. -/
theorem Takes.append (h : Takes positions b b' nests ids) (h' : Takes positions b' b'' nests' ids') :
    Takes positions b b'' (nests ++ nests') (ids ++ ids') where
  names name := by
    rw [h'.names, h.names, List.map_append, List.mem_append, or_assoc]
  placed position := by
    rw [h'.placed, h.placed, positionsOf_append, List.mem_append, or_assoc]

/-- A step of building succeeds exactly when there is room for its nests and ids, and then takes
them. -/
def Decides {β : Type} (positions : Std.TreeMap AlternativeId Nat) (b : Builder α)
    (nests : List (NestConfig α)) (ids : List AlternativeId) :
    Except (CompileError α) (β × Builder α) → Prop
  | .ok (_, b') => Admits positions b nests ids ∧ Takes positions b b' nests ids
  | .error _ => ¬Admits positions b nests ids

/-- Nothing always fits. -/
theorem decides_nil {β : Type} (result : β) :
    Decides positions b [] [] (.ok (result, b)) := by
  refine ⟨⟨?_, ?_, ?_, ?_⟩, ?_, ?_⟩ <;> simp [Fresh, positionsOf]

/-- Steps one after the other take their nests and ids together. -/
theorem Decides.bind {β γ : Type} {x : Except (CompileError α) (β × Builder α)}
    {f : β × Builder α → Except (CompileError α) (γ × Builder α)}
    (h : Decides positions b nests ids x)
    (h' : ∀ result b', Decides positions b' nests' ids' (f (result, b'))) :
    Decides positions b (nests ++ nests') (ids ++ ids') (x >>= f) := by
  cases x with
  | error e => exact fun hadmits => h hadmits.left
  | ok first =>
    rcases first with ⟨result, b'⟩
    rcases h with ⟨hadmits, htakes⟩
    have hrest := h' result b'
    rw [ok_bind]
    cases hf : f (result, b') with
    | error e =>
      rw [hf] at hrest
      exact fun hall => hrest (htakes.admits_append.mp hall).2
    | ok last =>
      rw [hf] at hrest
      exact ⟨htakes.admits_append.mpr ⟨hadmits, hrest.1⟩, htakes.append hrest.2⟩

/-- What a step answers does not matter for what it takes. -/
theorem Decides.map {β γ : Type} {x : Except (CompileError α) (β × Builder α)}
    (h : Decides positions b nests ids x) (f : β × Builder α → γ × Builder α)
    (hnames : ∀ r, (f r).2.names = r.2.names) (hplaced : ∀ r, (f r).2.placed = r.2.placed) :
    Decides positions b nests ids (x >>= fun r => .ok (f r)) := by
  cases x with
  | error e => exact h
  | ok r =>
    refine ⟨h.1, ?_, ?_⟩
    · intro name
      rw [hnames, h.2.names]
    · intro position
      rw [hplaced, h.2.placed]

/-- Placing an alternative takes its position. -/
theorem decides_place (name : String) (id : AlternativeId) :
    Decides positions b [] [id] (place positions b name id) := by
  unfold place
  split
  · rename_i hunknown
    exact fun hadmits => hadmits.known id (List.mem_singleton_self id) hunknown
  · rename_i position hposition
    have hpositions : positionsOf positions [id] = [position] := by simp [positionsOf, hposition]
    split
    · rename_i htaken
      intro hadmits
      have hnew := hadmits.placed.2
      rw [hpositions] at hnew
      exact hnew position (List.mem_singleton_self position) htaken
    · rename_i hfree
      have hknown : ∀ other ∈ [id], positions[other]? ≠ none := by
        rw [List.forall_mem_singleton, hposition]
        exact Option.some_ne_none position
      refine ⟨⟨by simp, by simp [Fresh], hknown, ?_⟩, by simp, ?_⟩
      · simpa [Fresh, hpositions] using hfree
      · intro other
        rw [hpositions]
        exact contains_insert_iff

/-- Opens a nest after the checks of it. -/
def openChecked (b : Builder α) (name : String) (scale : α) (members : List (NestMember α)) :
    Except (CompileError α) (Unit × Builder α) :=
  if !(Numeric.lt 0 scale && Numeric.le scale 1) then .error (.nestScale name scale)
  else if b.names.contains name then .error (.invalidModel (.repeatedNest name))
  else if members.isEmpty then .error (.invalidModel (.emptyNest name))
  else .ok ((), b.openNest name scale)

/-- Adding a nest opens it, adds its members and closes it. -/
theorem addNest_eq (b : Builder α) (name : String) (scale : α) (members : List (NestMember α)) :
    addNest positions b (.nest name scale members) =
      openChecked b name scale members >>= fun opened =>
        addMembers positions opened.2 name members >>= fun added =>
          .ok (b.nests.size, added.2.closeNest b.nests.size name scale added.1) := by
  rw [addNest, openChecked]
  split_ifs <;> rfl

/-- Opening a nest takes its name. -/
theorem decides_openChecked (name : String) (scale : α) (members : List (NestMember α)) :
    Decides positions b [.nest name scale members] [] (openChecked b name scale members) := by
  unfold openChecked
  split_ifs with hscale hname hempty
  · intro hadmits
    have hsound := (hadmits.sound _ (List.mem_singleton_self _)).1
    rw [NestConfig.scale] at hsound
    simp [hsound] at hscale
  · exact fun hadmits => hadmits.names.2 name (List.mem_singleton_self name) hname
  · intro hadmits
    have hmembers := (hadmits.sound _ (List.mem_singleton_self _)).2
    exact hmembers (List.isEmpty_iff.mp hempty)
  · refine ⟨⟨?_, ⟨List.nodup_singleton _, ?_⟩, by simp, by simp [Fresh, positionsOf]⟩, ?_, ?_⟩
    · refine List.forall_mem_singleton.mpr ⟨by simpa [NestConfig.scale] using hscale, ?_⟩
      exact fun hnil => hempty (List.isEmpty_iff.mpr hnil)
    · exact List.forall_mem_singleton.mpr hname
    · exact fun other => contains_insert_iff
    · exact fun position => by simp [openNest, positionsOf]

mutual

/-- Adding a nest takes all its nests and ids. -/
theorem decides_addNest (b : Builder α) : (config : NestConfig α) →
    Decides positions b config.nests config.ids (addNest positions b config)
  | .nest name scale members => by
    rw [NestConfig.nests, NestConfig.ids, addNest_eq]
    refine (decides_openChecked name scale members).bind fun _ opened => ?_
    exact (decides_addMembers opened name members).map _ (fun _ => rfl) (fun _ => rfl)

/-- Adding a member takes all its nests and ids. -/
theorem decides_addMember (b : Builder α) (name : String) : (member : NestMember α) →
    Decides positions b member.nests member.ids (addMember positions b name member)
  | .alternative id => by
    rw [NestMember.nests, NestMember.ids, addMember]
    exact decides_place name id
  | .nested config => by
    rw [NestMember.nests, NestMember.ids, addMember]
    exact (decides_addNest b config).map _ (fun _ => rfl) (fun _ => rfl)

/-- Adding members takes all their nests and ids. -/
theorem decides_addMembers (b : Builder α) (name : String) : (members : List (NestMember α)) →
    Decides positions b (members.flatMap NestMember.nests) (members.flatMap NestMember.ids)
      (addMembers positions b name members)
  | [] => by
    rw [addMembers]
    exact decides_nil []
  | member :: members => by
    rw [List.flatMap_cons, List.flatMap_cons, addMembers]
    refine (decides_addMember b name member).bind fun child b' => ?_
    exact (decides_addMembers b' name members).map _ (fun _ => rfl) (fun _ => rfl)

end

end Builder

/-! ## Valid nestings -/

/-- The ids of alternatives stand for the positions below a count, one id for each. -/
structure Numbering (positions : Std.TreeMap AlternativeId Nat) (count : Nat) : Prop where
  bounded {id : AlternativeId} {position : Nat} : positions[id]? = some position → position < count
  injective {id id' : AlternativeId} {position : Nat} : positions[id]? = some position →
    positions[id']? = some position → id = id'
  onto {position : Nat} : position < count → ∃ id : AlternativeId, positions[id]? = some position

omit [Numeric α] in
/-- No alternatives are numbered at first. -/
theorem Numbering.empty : Numbering ∅ 0 where
  bounded h := by simp at h
  injective h := by simp at h
  onto h := absurd h (Nat.not_lt_zero _)

omit [Numeric α] in
/-- The next position goes to an id that has none. -/
theorem Numbering.insert {positions : Std.TreeMap AlternativeId Nat} {count : Nat}
    (h : Numbering positions count) {id : AlternativeId} (hnew : ¬positions.contains id = true) :
    Numbering (positions.insert id count) (count + 1) := by
  have hget (other : AlternativeId) : (positions.insert id count)[other]? =
      if id = other then some count else positions[other]? := by
    simp [Std.TreeMap.getElem?_insert]
  have hnone : positions[id]? = none := by simpa using hnew
  have hold {other : AlternativeId} {position : Nat} (hother : positions[other]? = some position) :
      (positions.insert id count)[other]? = some position := by
    rw [hget, if_neg, hother]
    rintro rfl
    rw [hnone] at hother
    cases hother
  refine ⟨?_, ?_, ?_⟩
  · intro other position hother
    rw [hget] at hother
    split_ifs at hother with hid
    · cases hother
      exact Nat.lt_succ_self _
    · exact Nat.lt_succ_of_lt (h.bounded hother)
  · intro other other' position hother hother'
    rw [hget] at hother hother'
    split_ifs at hother hother' with hid hid' hid'
    · exact hid.symm.trans hid'
    · cases hother
      exact absurd (h.bounded hother') (Nat.lt_irrefl _)
    · cases hother'
      exact absurd (h.bounded hother) (Nat.lt_irrefl _)
    · exact h.injective hother hother'
  · intro position hposition
    rcases Nat.lt_succ_iff_lt_or_eq.mp hposition with hlt | rfl
    · rcases h.onto hlt with ⟨other, hother⟩
      exact ⟨other, hold hother⟩
    · exact ⟨id, by simp⟩

end NestTree

omit [Numeric α] in
/-- Numbering the alternatives of a list gives each id the next position. -/
theorem Model.numbering_numberAlternatives {name : String} {start : Nat}
    {alternatives : List (Alternative α)} {positions positions' : Std.TreeMap AlternativeId Nat}
    (h : numberAlternatives name start alternatives positions = .ok positions')
    (numbering : NestTree.Numbering positions start) :
    NestTree.Numbering positions' (start + alternatives.length) := by
  induction alternatives generalizing start positions with
  | nil =>
    rcases Except.ok.inj h with rfl
    exact numbering
  | cons first rest ih =>
    rw [numberAlternatives] at h
    split_ifs at h with hold
    have hrest := ih h (numbering.insert hold)
    rwa [Nat.add_right_comm, Nat.add_assoc] at hrest

open Numeric LawfulNumeric in
/-- A nesting is valid when every scale is in (0, 1], no name is used twice, every nest has a member,
every id that is named is that of an alternative, and every alternative is named once. -/
structure NestConfig.IsValid [LawfulNumeric α] (config : NestConfig α)
    (positions : Std.TreeMap AlternativeId Nat) : Prop where
  scales : ∀ nest ∈ config.nests,
    isNaN nest.scale = false ∧ 0 < value nest.scale ∧ value nest.scale ≤ 1
  names : (config.nests.map NestConfig.name).Nodup
  members : ∀ nest ∈ config.nests, nest.members ≠ []
  known : ∀ id ∈ config.ids, ∃ position, positions[id]? = some position
  once : ∀ id position, positions[id]? = some position → config.ids.count id = 1

namespace NestTree

open Builder

variable {positions : Std.TreeMap AlternativeId Nat} {config : NestConfig α} {count : Nat}

/-- A tree is built when its nests are and every alternative is placed. -/
theorem ofConfig_eq_ok {tree : NestTree α} : ofConfig config positions = .ok tree ↔
    ∃ index b, addNest positions .empty config = .ok (index, b) ∧ tree = ⟨b.nests⟩ ∧
      ∀ (id : AlternativeId) (position : Nat), positions[id]? = some position →
        b.placed.contains position = true := by
  have hunplaced (b : Builder α) : (positions.toList.filterMap fun entry =>
      if b.placed.contains entry.2 then none else some entry.1).isEmpty = true ↔
        ∀ (id : AlternativeId) (position : Nat), positions[id]? = some position →
          b.placed.contains position = true := by
    simp [List.filterMap_eq_nil_iff, Std.TreeMap.mem_toList_iff_getElem?_eq_some]
  simp only [ofConfig, bind_eq_ok]
  constructor
  · rintro ⟨⟨index, b⟩, hnest, h⟩
    split_ifs at h with hplaced
    exact ⟨index, b, hnest, (Except.ok.inj h).symm, (hunplaced b).mp hplaced⟩
  · rintro ⟨index, b, hnest, rfl, hplaced⟩
    exact ⟨(index, b), hnest, if_pos ((hunplaced b).mpr hplaced)⟩

/-- A nesting is accepted when there is room for it at first and it places every alternative. -/
theorem exists_ofConfig_iff_admits : (∃ tree, ofConfig config positions = .ok tree) ↔
    Admits positions .empty config.nests config.ids ∧
      ∀ (id : AlternativeId) (position : Nat), positions[id]? = some position →
        position ∈ positionsOf positions config.ids := by
  have hdecides : Decides positions .empty config.nests config.ids
      (addNest positions .empty config) := decides_addNest .empty config
  simp only [ofConfig_eq_ok]
  cases hnest : addNest positions .empty config with
  | error e =>
    rw [hnest] at hdecides
    constructor
    · rintro ⟨tree, index, b, h, -⟩
      cases h
    · exact fun h => absurd h.1 hdecides
  | ok r =>
    rw [hnest] at hdecides
    rcases hdecides with ⟨hadmits, htakes⟩
    have hplaced (position : Nat) : r.2.placed.contains position = true ↔
        position ∈ positionsOf positions config.ids := by
      rw [htakes.placed]
      simp [empty]
    constructor
    · rintro ⟨tree, index, b, h, -, hall⟩
      obtain rfl : r = (index, b) := Except.ok.inj h
      exact ⟨hadmits, fun id position hid => (hplaced position).mp (hall id position hid)⟩
    · rintro ⟨-, hall⟩
      exact ⟨_, r.1, r.2, rfl, rfl, fun id position hid =>
        (hplaced position).mpr (hall id position hid)⟩

omit [Numeric α] in
/-- The positions of known ids are those that a lookup answers. -/
theorem positionsOf_eq_map {ids : List AlternativeId} (hknown : ∀ id ∈ ids, positions[id]? ≠ none) :
    positionsOf positions ids = ids.map (positions.getD · 0) := by
  rw [positionsOf, ← List.filterMap_eq_map]
  apply List.filterMap_congr
  intro id hid
  rcases Option.ne_none_iff_exists'.mp (hknown id hid) with ⟨position, hposition⟩
  simp [Std.TreeMap.getD_eq_getD_getElem?, hposition]

/-- Known ids are distinct when their positions are. -/
theorem nodup_positionsOf_iff (numbering : Numbering positions count) {ids : List AlternativeId}
    (hknown : ∀ id ∈ ids, positions[id]? ≠ none) :
    (positionsOf positions ids).Nodup ↔ ids.Nodup := by
  constructor
  · intro hnodup
    rw [positionsOf_eq_map hknown] at hnodup
    exact hnodup.of_map
  · intro hnodup
    exact hnodup.filterMap fun id id' position hid hid' => numbering.injective hid hid'

open LawfulNumeric in
/-- A nesting is accepted exactly when it is valid. -/
theorem exists_ofConfig_iff [LawfulNumeric α] (numbering : Numbering positions count) :
    (∃ tree, ofConfig config positions = .ok tree) ↔ config.IsValid positions := by
  have hscale (scale : α) : (Numeric.lt 0 scale && Numeric.le scale 1) = true ↔
      Numeric.isNaN scale = false ∧ 0 < value scale ∧ value scale ≤ 1 := by
    rw [Bool.and_eq_true, lt_iff, le_iff, value_zero, value_one]
    simp only [isNaN_zero, isNaN_one, true_and]
    tauto
  rw [exists_ofConfig_iff_admits]
  constructor
  · rintro ⟨hadmits, hplaced⟩
    have hnodup := (nodup_positionsOf_iff numbering hadmits.known).mp hadmits.placed.1
    refine ⟨?_, hadmits.names.1, fun nest hnest => (hadmits.sound nest hnest).2, ?_, ?_⟩
    · exact fun nest hnest => (hscale _).mp (hadmits.sound nest hnest).1
    · exact fun id hid => Option.ne_none_iff_exists'.mp (hadmits.known id hid)
    · intro id position hid
      rcases List.mem_filterMap.mp (hplaced id position hid) with ⟨id', hid', hposition⟩
      obtain rfl : id' = id := numbering.injective hposition hid
      exact List.count_eq_one_of_mem hnodup hid'
  · intro hvalid
    have hknown : ∀ id ∈ config.ids, positions[id]? ≠ none :=
      fun id hid => Option.ne_none_iff_exists'.mpr (hvalid.known id hid)
    have hnodup : config.ids.Nodup := by
      rw [List.nodup_iff_count_le_one]
      intro id
      by_cases hid : id ∈ config.ids
      · rcases hvalid.known id hid with ⟨position, hposition⟩
        exact (hvalid.once id position hposition).le
      · rw [List.count_eq_zero_of_not_mem hid]
        exact Nat.zero_le 1
    refine ⟨⟨?_, ⟨hvalid.names, ?_⟩, hknown, ?_, ?_⟩, ?_⟩
    · exact fun nest hnest => ⟨(hscale _).mpr (hvalid.scales nest hnest), hvalid.members nest hnest⟩
    · simp [empty]
    · exact (nodup_positionsOf_iff numbering hknown).mpr hnodup
    · simp [empty]
    · intro id position hid
      have hmem : id ∈ config.ids := by
        rw [← List.one_le_count_iff, hvalid.once id position hid]
      exact List.mem_filterMap.mpr ⟨id, hmem, hid⟩

end NestTree
end DiscreteChoice
