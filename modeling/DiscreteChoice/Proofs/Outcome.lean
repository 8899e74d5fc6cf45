import Mathlib

/-!
# Steps that may fail

How a chain of steps succeeds or fails, so that proofs about programs with errors need not unfold
the chain.

Main results:

- Theorem `bind_eq_ok`: a chain succeeds when each of its steps does.
- Theorem `bind_eq_error`: a chain fails when one of its steps does.
- Theorem `exists_forall₂_iff`: a list has partners for its entries when each entry has one.
- Theorem `exists_of_forM_eq_error`: a check of a list fails at the first entry that it refuses.
- Theorem `mapM_eq_ok`: a map over a list succeeds when it does at each entry.
- Theorem `mapM_eq_error`: a map over a list fails as it does at the first entry at which it fails.
- Theorem `foldlM_eq_ok`: a fold succeeds when the entries so far stay good.
-/

namespace DiscreteChoice

variable {ε β γ : Type}

@[simp] theorem ok_bind (a : β) (f : β → Except ε γ) : (Except.ok a >>= f) = f a := rfl

@[simp] theorem error_bind (e : ε) (f : β → Except ε γ) :
    (Except.error e >>= f) = Except.error e := rfl

@[simp] theorem pure_eq_ok (a : β) : (pure a : Except ε β) = .ok a := rfl

/-- A chain succeeds when each of its steps does. -/
theorem bind_eq_ok {x : Except ε β} {f : β → Except ε γ} {r : γ} :
    (x >>= f) = .ok r ↔ ∃ a, x = .ok a ∧ f a = .ok r := by
  cases x with
  | error e => simp
  | ok a => simp

/-- A chain fails when one of its steps does. -/
theorem bind_eq_error {x : Except ε β} {f : β → Except ε γ} {e : ε} :
    (x >>= f) = .error e ↔ x = .error e ∨ ∃ a, x = .ok a ∧ f a = .error e := by
  cases x with
  | error cause => simp
  | ok a => simp

/-! ## Lists whose entries belong together -/

/-- A list has partners for all of its entries when each entry has one. -/
theorem exists_forall₂_iff {R : β → γ → Prop} {xs : List β} :
    (∃ ys, List.Forall₂ R xs ys) ↔ ∀ x ∈ xs, ∃ y, R x y := by
  induction xs with
  | nil => simp
  | cons x xs ih =>
    rw [List.forall_mem_cons, ← ih]
    simp only [List.forall₂_cons_left_iff]
    constructor
    · rintro ⟨_, y, ys, hy, hys, rfl⟩
      exact ⟨⟨y, hy⟩, ys, hys⟩
    · rintro ⟨⟨y, hy⟩, ys, hys⟩
      exact ⟨_, y, ys, hy, hys, rfl⟩

/-- In lists whose entries belong together there is one for every entry of the other. -/
theorem exists_mem_of_forall₂ {related : β → γ → Prop} {xs : List β} {ys : List γ}
    (h : List.Forall₂ related xs ys) {y : γ} (hy : y ∈ ys) : ∃ x ∈ xs, related x y := by
  induction h with
  | nil => cases hy
  | cons hfirst _ ih =>
    rcases List.mem_cons.mp hy with rfl | hy
    · exact ⟨_, List.mem_cons_self, hfirst⟩
    · rcases ih hy with ⟨x, hx, hrelated⟩
      exact ⟨x, List.mem_cons_of_mem _ hx, hrelated⟩

/-- The entry of a list belongs to one at the same place of the other. -/
theorem exists_getElem?_of_forall₂ {related : β → γ → Prop} {xs : List β} {ys : List γ}
    (h : List.Forall₂ related xs ys) {place : Nat} {x : β} (hx : xs[place]? = some x) :
    ∃ y, ys[place]? = some y ∧ related x y := by
  induction h generalizing place with
  | nil => cases hx
  | cons hfirst _ ih =>
    cases place with
    | zero =>
      rcases Option.some.inj hx with rfl
      exact ⟨_, rfl, hfirst⟩
    | succ place => exact ih hx

/-- Lists whose entries belong together have the same images, if entries that belong together
have. -/
theorem map_eq_of_forall₂ {δ : Type} {related : β → γ → Prop} {f : β → δ} {g : γ → δ}
    {xs : List β} {ys : List γ} (h : List.Forall₂ related xs ys)
    (himages : ∀ y ∈ ys, ∀ x, related x y → f x = g y) : xs.map f = ys.map g := by
  induction h with
  | nil => rfl
  | cons hfirst _ ih =>
    rw [List.map_cons, List.map_cons, himages _ List.mem_cons_self _ hfirst,
      ih fun y hy => himages y (List.mem_cons_of_mem _ hy)]

/-- The partners of two lists one behind the other are partners of each of them. -/
theorem forall₂_append_left {related : β → γ → Prop} {xs ys : List β} {zs : List γ}
    (h : List.Forall₂ related (xs ++ ys) zs) :
    ∃ us vs, List.Forall₂ related xs us ∧ List.Forall₂ related ys vs ∧ us ++ vs = zs := by
  induction xs generalizing zs with
  | nil => exact ⟨[], zs, .nil, h, rfl⟩
  | cons x xs ih =>
    rcases List.forall₂_cons_left_iff.mp h with ⟨z, zs, hz, hzs, rfl⟩
    rcases ih hzs with ⟨us, vs, hus, hvs, rfl⟩
    exact ⟨z :: us, vs, .cons hz hus, hvs, rfl⟩

/-- The partners of a list in two others belong together when those of each entry do. -/
theorem forall₂_of_partners {δ : Type} {left : β → γ → Prop} {right : β → δ → Prop}
    {related : γ → δ → Prop} {xs : List β} {ys : List γ} {zs : List δ}
    (hrelated : ∀ x y z, left x y → right x z → related y z) (hleft : List.Forall₂ left xs ys)
    (hright : List.Forall₂ right xs zs) : List.Forall₂ related ys zs := by
  induction hleft generalizing zs with
  | nil =>
    cases hright
    exact .nil
  | cons hfirst _ ih =>
    cases hright with
    | cons hfirst' hothers => exact .cons (hrelated _ _ _ hfirst hfirst') (ih hothers)

/-! ## Checks in a row -/

/-- A check of a list passes when every entry does. -/
theorem forM_eq_ok {f : β → Except ε Unit} {xs : List β} :
    forM xs f = .ok () ↔ ∀ x ∈ xs, f x = .ok () := by
  induction xs with
  | nil => simp
  | cons x xs ih =>
    rw [List.forM_cons, List.forall_mem_cons, bind_eq_ok, ← ih]
    constructor
    · rintro ⟨⟨⟩, hx, hxs⟩
      exact ⟨hx, hxs⟩
    · rintro ⟨hx, hxs⟩
      exact ⟨(), hx, hxs⟩

/-- A check of a list fails with the error of an entry all before which pass. -/
theorem exists_of_forM_eq_error {f : β → Except ε Unit} {xs : List β} {e : ε}
    (h : forM xs f = .error e) :
    ∃ front x back, xs = front ++ x :: back ∧ (∀ y ∈ front, f y = .ok ()) ∧ f x = .error e := by
  induction xs with
  | nil => simp at h
  | cons x xs ih =>
    rw [List.forM_cons] at h
    cases hx : f x with
    | error cause =>
      rw [hx, error_bind] at h
      rcases Except.error.inj h with rfl
      exact ⟨[], x, xs, rfl, by simp, hx⟩
    | ok passed =>
      rw [hx, ok_bind] at h
      rcases ih h with ⟨front, y, back, rfl, hfront, hy⟩
      exact ⟨x :: front, y, back, rfl, List.forall_mem_cons.mpr ⟨hx, hfront⟩, hy⟩

/-! ## Maps and folds -/

/-- A map over a list succeeds when it does at each entry, and answers what it does there. -/
theorem mapM_eq_ok {f : β → Except ε γ} {xs : List β} {ys : List γ} :
    xs.mapM f = .ok ys ↔ List.Forall₂ (fun x y => f x = .ok y) xs ys := by
  induction xs generalizing ys with
  | nil => simp [eq_comm]
  | cons x xs ih =>
    simp only [List.mapM_cons, bind_eq_ok, pure_eq_ok, Except.ok.injEq,
      List.forall₂_cons_left_iff, ih]
    constructor
    · rintro ⟨y, hy, ys, hys, rfl⟩
      exact ⟨y, ys, hy, hys, rfl⟩
    · rintro ⟨y, ys, hy, hys, rfl⟩
      exact ⟨y, hy, ys, hys, rfl⟩

/-- Everything that a map over a list answers comes from an entry of it. -/
theorem mem_of_mapM_eq_ok {f : β → Except ε γ} {xs : List β} {ys : List γ}
    (h : xs.mapM f = .ok ys) {y : γ} (hy : y ∈ ys) : ∃ x ∈ xs, f x = .ok y :=
  exists_mem_of_forall₂ (mapM_eq_ok.mp h) hy

/-- A map over a list fails as it does at the first entry at which it fails. -/
theorem mapM_eq_error {f : β → Except ε γ} {xs : List β} {e : ε} :
    xs.mapM f = .error e ↔
      ∃ front x back, xs = front ++ x :: back ∧ (∀ y ∈ front, ∃ z, f y = .ok z) ∧
        f x = .error e := by
  constructor
  · intro h
    induction xs with
    | nil => cases h
    | cons x xs ih =>
      rw [List.mapM_cons] at h
      rcases bind_eq_error.mp h with hx | ⟨z, hz, h⟩
      · exact ⟨[], x, xs, rfl, nofun, hx⟩
      · rcases bind_eq_error.mp h with hxs | ⟨zs, -, h⟩
        · rcases ih hxs with ⟨front, y, back, rfl, hfront, hy⟩
          exact ⟨x :: front, y, back, rfl, List.forall_mem_cons.mpr ⟨⟨z, hz⟩, hfront⟩, hy⟩
        · cases h
  · rintro ⟨front, x, back, rfl, hfront, hx⟩
    rcases exists_forall₂_iff.mpr hfront with ⟨zs, hzs⟩
    rw [List.mapM_append, mapM_eq_ok.mpr hzs, ok_bind, List.mapM_cons, hx]
    rfl

/-- A map over a list fails as it does at one of the entries. -/
theorem exists_of_mapM_eq_error {f : β → Except ε γ} {xs : List β} {e : ε}
    (h : xs.mapM f = .error e) : ∃ x ∈ xs, f x = .error e := by
  rcases mapM_eq_error.mp h with ⟨front, x, back, rfl, -, hx⟩
  exact ⟨x, List.mem_append_right _ List.mem_cons_self, hx⟩

/-- A map over the first entries of a list answers the first of what it does over all of them. -/
theorem mapM_take {f : β → Except ε γ} {xs : List β} {ys : List γ} (h : xs.mapM f = .ok ys)
    (count : Nat) : (xs.take count).mapM f = .ok (ys.take count) :=
  mapM_eq_ok.mpr (List.forall₂_take count (mapM_eq_ok.mp h))

/-- Two maps one behind the other are the map that takes both steps at each entry, if the second one
never fails. -/
theorem mapM_bind_mapM {δ : Type} {f : β → Except ε γ} {g : γ → Except ε δ} {xs : List β}
    (hg : ∀ x ∈ xs, ∀ y, f x = .ok y → ∃ z, g y = .ok z) :
    (xs.mapM f >>= fun ys => ys.mapM g) = xs.mapM fun x => f x >>= g := by
  induction xs with
  | nil => rfl
  | cons x xs ih =>
    rcases List.forall_mem_cons.mp hg with ⟨hx, hxs⟩
    rw [List.mapM_cons, List.mapM_cons, ← ih hxs]
    cases hfirst : f x with
    | error e => rfl
    | ok y =>
      rcases hx y hfirst with ⟨z, hz⟩
      cases xs.mapM f with
      | error e => simp [hz]
      | ok ys => simp [hz]

/-- A map whose errors do not depend on the entry fails as it does at the first one. -/
theorem mapM_cons_eq_error_iff {f : β → Except ε γ} {e : ε}
    (huniform : ∀ x y e, f x = .error e → f y = .error e) {x : β} {xs : List β} :
    (x :: xs).mapM f = .error e ↔ f x = .error e := by
  constructor
  · intro h
    rcases exists_of_mapM_eq_error h with ⟨y, -, hy⟩
    exact huniform y x e hy
  · intro h
    rw [List.mapM_cons, h, error_bind]

/-- A fold whose state stands for the entries so far succeeds when they stay good, if a step does
exactly when it keeps them good. -/
theorem foldlM_eq_ok {f : γ → β → Except ε γ} (good : List β → Prop) (state : List β → γ)
    (hnil : good []) (hleft : ∀ xs x, good (xs ++ [x]) → good xs)
    (hstep : ∀ xs x s, good xs →
      (f (state xs) x = .ok s ↔ good (xs ++ [x]) ∧ s = state (xs ++ [x])))
    {xs : List β} {s : γ} : xs.foldlM f (state []) = .ok s ↔ good xs ∧ s = state xs := by
  induction xs using List.reverseRecOn generalizing s with
  | nil =>
    rw [List.foldlM_nil, pure_eq_ok, Except.ok.injEq, eq_comm]
    exact (and_iff_right hnil).symm
  | append_singleton xs x ih =>
    simp only [List.foldlM_append, List.foldlM_cons, List.foldlM_nil, bind_pure, bind_eq_ok, ih]
    constructor
    · rintro ⟨_, ⟨hgood, rfl⟩, h⟩
      exact (hstep xs x s hgood).mp h
    · intro h
      have hgood := hleft xs x h.1
      exact ⟨state xs, ⟨hgood, rfl⟩, (hstep xs x s hgood).mpr h⟩

/-- A fold keeps what each of its steps keeps. -/
theorem foldlM_induction {f : γ → β → Except ε γ} {motive : γ → Prop}
    (hstep : ∀ s x s', motive s → f s x = .ok s' → motive s') {xs : List β} {s s' : γ}
    (hstart : motive s) (h : xs.foldlM f s = .ok s') : motive s' := by
  induction xs generalizing s with
  | nil =>
    rcases Except.ok.inj h with rfl
    exact hstart
  | cons x xs ih =>
    rw [List.foldlM_cons, bind_eq_ok] at h
    rcases h with ⟨next, hnext, h⟩
    exact ih (hstep s x next hstart hnext) h

end DiscreteChoice
