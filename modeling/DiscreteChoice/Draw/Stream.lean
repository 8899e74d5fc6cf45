import DiscreteChoice.Draw.ChaCha
import DiscreteChoice.Draw.Sha256
import DiscreteChoice.Identifier

/-!
# Random draws

Every decision maker has its own sequence of draws from the unit interval. The sequence of a run is
keyed by the seed of the run, the decision maker and the name of the model, so that it depends
neither on the other decision makers nor on the order of the work.

Main results:

- Theorem `length_key`: a key has 32 bytes.
-/

namespace DiscreteChoice

/-- A sequence of draws for every decision maker. -/
abbrev DrawSource (α : Type) :=
  DecisionMakerId → Nat → α

namespace DrawSource

/-- The bytes of a number, the least significant one first. -/
def littleEndian (n : UInt64) : List UInt8 :=
  (List.range 8).map fun i => (n >>> (8 * i).toUInt64).toUInt8

/-- The key of the draws of a decision maker. -/
def key (seed : UInt64) (model : String) (id : DecisionMakerId) : List UInt8 :=
  Sha256.digest (littleEndian seed ++ littleEndian id ++ model.toUTF8.toList)

/-- A key has 32 bytes. -/
@[simp] theorem length_key (seed : UInt64) (model : String) (id : DecisionMakerId) :
    (key seed model id).length = 32 := by
  simp [key]

/-- The number of the unit interval that has the upper 53 bits of a word as its binary digits. -/
def unitInterval (word : UInt64) : Float :=
  (word >>> 11).toFloat / 9007199254740992

/-- The draws of a run. -/
def seeded (seed : UInt64) (model : String) : DrawSource Float := fun id =>
  let words := ChaCha.wordsOfBytes (key seed model id)
  fun index => unitInterval (ChaCha.pair words index)

end DrawSource
end DiscreteChoice
