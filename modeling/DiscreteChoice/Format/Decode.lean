import DiscreteChoice.Format.Document
import DiscreteChoice.Numeric.Double
import Std.Data.TreeMap

/-!
# Decoding documents

Reading values out of documents. A decoder answers nothing for a document that does not fit. A
record is a table, or an array of its fields in order; entries that are not fields of it are passed
over.

Main results:

- Theorem `word32?_integer`: which integers are 32-bit words.
-/

namespace DiscreteChoice
namespace Decode

/-- The format that a document was read from. -/
inductive Dialect where
  | json
  | toml
deriving Repr, DecidableEq

/-- A text. -/
def text? : Document → Option String
  | .text s => some s
  | _ => none

/-- A truth value. -/
def bool? : Document → Option Bool
  | .bool b => some b
  | _ => none

/-- A natural number below a bound. -/
def below? (bound : Nat) : Document → Option Nat
  | .integer n => if 0 ≤ n ∧ n < bound then some n.toNat else none
  | _ => none

/-- A 32-bit word. -/
def word32? (d : Document) : Option UInt32 :=
  (below? UInt32.size d).map (·.toUInt32)

/-- A 64-bit word. -/
def word64? (d : Document) : Option UInt64 :=
  (below? UInt64.size d).map (·.toUInt64)

/-- Exactly the natural numbers that fit are 32-bit words. -/
theorem word32?_integer (n : Int) :
    (word32? (.integer n)).isSome = true ↔ 0 ≤ n ∧ n < UInt32.size := by
  simp only [word32?, below?, Option.isSome_map]
  split <;> simp_all

/-- Whether an integer is one of 64 bits, with or without a sign. -/
def isNarrow (n : Int) : Bool :=
  -(UInt64.size : Int) ≤ 2 * n && n < UInt64.size

/-- A number: a float, or an integer of 64 bits. -/
def number? : Document → Option Float
  | .float x => some x
  | .integer n =>
    if isNarrow n then
      let size := Double.ofDecimal n.natAbs 0
      some (if n < 0 then -size else size)
    else none
  | _ => none

/-- Whether a document can be kept until it is known what it is read as: all of it has a meaning, and
its integers have 64 bits. -/
def isKeepable (d : Document) : Bool :=
  d.leaves.all fun leaf =>
    match leaf with
    | .integer n => isNarrow n
    | leaf => leaf.isValid

/-- A list of values. -/
def list? {β : Type} (item? : Document → Option β) : Document → Option (List β)
  | .array items => items.mapM item?
  | _ => none

/-- A table of values by key, the last one where a key is repeated. -/
def map? {κ β : Type} [Ord κ] (key? : String → Option κ) (item? : Document → Option β) :
    Document → Option (Std.TreeMap κ β)
  | .table entries =>
    entries.foldlM (fun found entry => do
      let key ← key? entry.1
      let value ← item? entry.2
      return found.insert key value) ∅
  | _ => none

/-- One of several words: its text, or a table with the word alone and nothing under it. -/
def word? {β : Type} (dialect : Dialect) (ofName? : String → Option β) : Document → Option β
  | .text s => ofName? s
  | .table [(name, content)] =>
    match dialect, content with
    | .json, .null => ofName? name
    | .toml, .array [] => ofName? name
    | .toml, .table [] => ofName? name
    | _, _ => none
  | _ => none

/-! ## Records -/

/-- Whether the entries of a record that are not fields of it have to have a meaning. -/
def Dialect.looksAtAll : Dialect → Bool
  | json => false
  | toml => true

/-- Whether an array that stands for a record may have more items than the record has fields. -/
def Dialect.allowsSurplus : Dialect → Bool
  | json => false
  | toml => true

/-- The field of a name in the entries of a table, which may occur once at most. -/
def fieldOf? (entries : List (String × Document)) (name : String) : Option (Option Document) :=
  match entries.filter (·.1 = name) with
  | [] => some none
  | [entry] => some (some entry.2)
  | _ => none

/-- Whether the entries of a record that are not among the given names can be passed over. -/
def passesOver (dialect : Dialect) (names : List String) (entries : List (String × Document)) :
    Bool :=
  !dialect.looksAtAll || entries.all fun entry => names.contains entry.1 || entry.2.isSound

/-- The fields of a record with the given names, in the order of the names. -/
def fields? (dialect : Dialect) (names : List String) :
    Document → Option (List (Option Document))
  | .table entries =>
    if passesOver dialect names entries then names.mapM (fieldOf? entries) else none
  | .array items =>
    if names.length < items.length && !dialect.allowsSurplus then none
    else some ((List.range names.length).map (items[·]?))
  | _ => none

/-- A field that has to be there. -/
def required? {β : Type} (item? : Document → Option β) (field : Option Document) : Option β :=
  field.bind item?

/-- A field with a value of its own when it is missing. -/
def withDefault? {β : Type} (value : β) (item? : Document → Option β) :
    Option Document → Option β
  | none => some value
  | some d => item? d

/-- A field that may be missing or null. -/
def optional? {β : Type} (item? : Document → Option β) : Option Document → Option (Option β)
  | none => some none
  | some .null => some none
  | some d => (item? d).map some

end Decode
end DiscreteChoice
