/-!
# Logged values

A value together with what was logged while it was computed, in order.

Main results:

- Theorems `value_bind` and `log_bind`: a step that follows adds its entries behind the earlier ones
  and changes no earlier value.
-/

namespace DiscreteChoice

/-- A value and what was logged while it was computed. -/
structure Logged (ε β : Type) where
  value : β
  log : List ε
deriving Repr

namespace Logged

variable {ε β γ : Type}

/-- Logs an entry. -/
def write (entry : ε) : Logged ε Unit :=
  ⟨(), [entry]⟩

/-- Logs the entries of a list. -/
def writeAll (entries : List ε) : Logged ε Unit :=
  ⟨(), entries⟩

instance : Monad (Logged ε) where
  pure value := ⟨value, []⟩
  bind x f := ⟨(f x.value).value, x.log ++ (f x.value).log⟩

@[simp] theorem value_pure (value : β) : (pure value : Logged ε β).value = value := rfl

@[simp] theorem log_pure (value : β) : (pure value : Logged ε β).log = [] := rfl

/-- A step that follows computes its value from the earlier one. -/
@[simp] theorem value_bind (x : Logged ε β) (f : β → Logged ε γ) :
    (x >>= f).value = (f x.value).value := rfl

/-- A step that follows adds its entries behind the earlier ones. -/
@[simp] theorem log_bind (x : Logged ε β) (f : β → Logged ε γ) :
    (x >>= f).log = x.log ++ (f x.value).log := rfl

@[simp] theorem log_write (entry : ε) : (write entry).log = [entry] := rfl

@[simp] theorem log_writeAll (entries : List ε) : (writeAll entries).log = entries := rfl

/-- Runs a computation on every entry of a list, in order. -/
def forAll (f : β → Logged ε γ) : List β → Logged ε (List γ)
  | [] => pure []
  | x :: xs => do
    let y ← f x
    let ys ← forAll f xs
    return y :: ys

/-- The values do not depend on the log. -/
@[simp] theorem value_forAll (f : β → Logged ε γ) (xs : List β) :
    (forAll f xs).value = xs.map fun x => (f x).value := by
  induction xs with
  | nil => rfl
  | cons x xs ih => simp [forAll, ih]

/-- The log is that of every entry in order. -/
@[simp] theorem log_forAll (f : β → Logged ε γ) (xs : List β) :
    (forAll f xs).log = xs.flatMap fun x => (f x).log := by
  induction xs with
  | nil => rfl
  | cons x xs ih => simp [forAll, ih]

end Logged
end DiscreteChoice
