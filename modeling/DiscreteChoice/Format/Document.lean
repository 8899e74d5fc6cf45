/-!
# Documents

The data that a text in one of the data formats denotes. A text can be well formed and still hold
something without a meaning, such as a number that is out of range; it is kept in its place, because
only who looks at it has to refuse it.

Main results:

- Theorem `cut_of_height_le`: a document that is not nested deeper than a limit stays as it is.
-/

namespace DiscreteChoice

/-- The data that a text denotes. The entries of a table keep the order of the text, and a name that
the text repeats is repeated here. -/
inductive Document where
  | null
  | bool (b : Bool)
  | integer (n : Int)
  | float (x : Float)
  | text (s : String)
  /-- A date, a time or both. -/
  | time (s : String)
  | array (items : List Document)
  | table (entries : List (String × Document))
  /-- Something without a meaning. -/
  | invalid
deriving Repr, Inhabited

namespace Document

/-- The last entry of a name in a table. -/
def field? (name : String) : Document → Option Document
  | table entries => entries.reverse.lookup name
  | _ => none

mutual

/-- How many arrays and tables are nested at most. -/
def height : Document → Nat
  | array items => heightOfItems items + 1
  | table entries => heightOfEntries entries + 1
  | _ => 0

/-- The greatest height in a list. -/
def heightOfItems : List Document → Nat
  | [] => 0
  | item :: items => max item.height (heightOfItems items)

/-- The greatest height in the entries of a table. -/
def heightOfEntries : List (String × Document) → Nat
  | [] => 0
  | (_, item) :: entries => max item.height (heightOfEntries entries)

end

mutual

/-- The parts of a document that have no parts themselves, in order. -/
def leaves : Document → List Document
  | array items => leavesOfItems items
  | table entries => leavesOfEntries entries
  | leaf => [leaf]

/-- The leaves of the items of a list. -/
def leavesOfItems : List Document → List Document
  | [] => []
  | item :: items => item.leaves ++ leavesOfItems items

/-- The leaves of the entries of a table. -/
def leavesOfEntries : List (String × Document) → List Document
  | [] => []
  | (_, item) :: entries => item.leaves ++ leavesOfEntries entries

end

/-- Whether a document has a meaning. -/
def isValid : Document → Bool
  | invalid => false
  | _ => true

/-- Whether a document has a meaning in all of its parts. -/
def isSound (d : Document) : Bool :=
  d.leaves.all isValid

/-! ## Limits of nesting -/

mutual

/-- A document in which arrays and tables that are nested deeper than a limit have lost their
meaning. -/
def cut (limit : Nat) : Document → Document
  | array items =>
    match limit with
    | 0 => invalid
    | inner + 1 => array (cutItems inner items)
  | table entries =>
    match limit with
    | 0 => invalid
    | inner + 1 => table (cutEntries inner entries)
  | leaf => leaf

/-- Cuts every item of a list. -/
def cutItems (limit : Nat) : List Document → List Document
  | [] => []
  | item :: items => cut limit item :: cutItems limit items

/-- Cuts every entry of a table. -/
def cutEntries (limit : Nat) : List (String × Document) → List (String × Document)
  | [] => []
  | (name, item) :: entries => (name, cut limit item) :: cutEntries limit entries

end

mutual

/-- A document that is not nested deeper than a limit stays as it is. -/
theorem cut_of_height_le (limit : Nat) : ∀ d : Document, d.height ≤ limit → cut limit d = d
  | array items, h => by
    obtain ⟨inner, rfl⟩ := Nat.exists_eq_succ_of_ne_zero (n := limit) (by
      simp only [height] at h; omega)
    rw [cut, cutItems_of_height_le inner items (by simpa [height] using h)]
  | table entries, h => by
    obtain ⟨inner, rfl⟩ := Nat.exists_eq_succ_of_ne_zero (n := limit) (by
      simp only [height] at h; omega)
    rw [cut, cutEntries_of_height_le inner entries (by simpa [height] using h)]
  | null, _ => rfl
  | bool _, _ => rfl
  | integer _, _ => rfl
  | float _, _ => rfl
  | text _, _ => rfl
  | time _, _ => rfl
  | invalid, _ => rfl

theorem cutItems_of_height_le (limit : Nat) : ∀ items : List Document,
    heightOfItems items ≤ limit → cutItems limit items = items
  | [], _ => rfl
  | item :: items, h => by
    simp only [heightOfItems, Nat.max_le] at h
    rw [cutItems, cut_of_height_le limit item h.1, cutItems_of_height_le limit items h.2]

theorem cutEntries_of_height_le (limit : Nat) : ∀ entries : List (String × Document),
    heightOfEntries entries ≤ limit → cutEntries limit entries = entries
  | [], _ => rfl
  | (name, item) :: entries, h => by
    simp only [heightOfEntries, Nat.max_le] at h
    rw [cutEntries, cut_of_height_le limit item h.1, cutEntries_of_height_le limit entries h.2]

end

end Document
end DiscreteChoice
