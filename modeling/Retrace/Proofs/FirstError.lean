import Mathlib.Data.List.Forall2

/-!
# First errors

Checks are made one after the other, and the first that fails gives the error. So the error of a
sequence of checks is the head of the list of everything that is wrong, in the order of the checks.

* `error?`: the error of a computation, when it has failed.
* `error?_bind`: the faults of two computations in a row are those of the first, then those of the
  second.
* `error?_mapM`: a traversal fails with the first error of its members.
* `mapM_eq_ok_iff`: it succeeds with the results of all of them, in order.
-/

namespace Retrace

variable {ε α β : Type}

/-- The error of a computation, when it has failed. -/
def error? : Except ε α → Option ε
  | .ok _ => none
  | .error e => some e

theorem error?_eq_some_iff {x : Except ε α} {e : ε} : error? x = some e ↔ x = .error e := by
  cases x with
  | ok a => exact ⟨nofun, nofun⟩
  | error e' => rw [error?, Option.some.injEq, Except.error.injEq]

theorem error?_eq_none_iff {x : Except ε α} : error? x = none ↔ ∃ a, x = .ok a := by
  cases x with
  | ok a => exact ⟨fun _ => ⟨a, rfl⟩, fun _ => rfl⟩
  | error e => exact ⟨nofun, nofun⟩

theorem exists_error_iff {x : Except ε α} : (∃ e, x = .error e) ↔ ¬ ∃ a, x = .ok a := by
  cases x with
  | ok a => exact ⟨nofun, fun h => absurd ⟨a, rfl⟩ h⟩
  | error e => exact ⟨fun _ => nofun, fun _ => ⟨e, rfl⟩⟩

theorem error?_map (f : α → β) (x : Except ε α) : error? (x.map f) = error? x := by
  cases x <;> rfl

/-- The faults of two computations in a row: those of the first, then those of the second. -/
theorem error?_bind {x : Except ε α} {f : α → Except ε β} {faults later : List ε}
    (hx : error? x = faults.head?) (hf : ∀ a, x = .ok a → error? (f a) = later.head?) :
    error? (x >>= f) = (faults ++ later).head? := by
  rw [List.head?_append, ← hx]
  cases x with
  | ok a => exact hf a rfl
  | error e => rfl

theorem bind_eq_ok_iff {x : Except ε α} {f : α → Except ε β} {b : β} :
    x >>= f = .ok b ↔ ∃ a, x = .ok a ∧ f a = .ok b := by
  cases x with
  | ok a => exact ⟨fun h => ⟨a, rfl, h⟩, fun ⟨_, ha, h⟩ => Except.ok.inj ha ▸ h⟩
  | error e => exact ⟨nofun, nofun⟩

/-- **A traversal fails with the first error of its members.** -/
theorem error?_mapM (f : α → Except ε β) (xs : List α) :
    error? (xs.mapM f) = xs.findSome? fun x => error? (f x) := by
  induction xs with
  | nil => rfl
  | cons x xs ih =>
    rw [List.mapM_cons, List.findSome?_cons, ← ih]
    cases f x with
    | error e => rfl
    | ok y => cases xs.mapM f <;> rfl

/-- The faults of a traversal are those of its members, one after the other. -/
theorem error?_mapM_of_faults {f : α → Except ε β} {faults : α → List ε}
    (h : ∀ x, error? (f x) = (faults x).head?) (xs : List α) :
    error? (xs.mapM f) = (xs.flatMap faults).head? := by
  rw [error?_mapM, List.head?_flatMap]
  exact congrArg (xs.findSome? ·) (funext h)

/-- **A traversal succeeds with the results of its members, in order.** -/
theorem mapM_eq_ok_iff {f : α → Except ε β} {xs : List α} {ys : List β} :
    xs.mapM f = .ok ys ↔ List.Forall₂ (fun x y => f x = .ok y) xs ys := by
  induction xs generalizing ys with
  | nil =>
    rw [List.mapM_nil, List.forall₂_nil_left_iff]
    exact ⟨fun h => (Except.ok.inj h).symm, fun h => congrArg Except.ok h.symm⟩
  | cons x xs ih =>
    rw [List.mapM_cons, List.forall₂_cons_left_iff]
    simp only [← ih]
    cases hx : f x with
    | error e => exact ⟨nofun, nofun⟩
    | ok y =>
      cases hxs : xs.mapM f with
      | error e => exact ⟨nofun, nofun⟩
      | ok rest =>
        constructor
        · intro h
          exact ⟨y, rest, rfl, rfl, (Except.ok.inj h).symm⟩
        · rintro ⟨y', rest', hy, hrest, rfl⟩
          cases hy
          cases hrest
          rfl

/-- What the results have in common with the members. -/
theorem map_eq_of_mapM {γ : Type} {f : α → Except ε β} {xs : List α} {ys : List β} {g : β → γ}
    {k : α → γ} (h : xs.mapM f = .ok ys) (hf : ∀ x y, f x = .ok y → g y = k x) :
    ys.map g = xs.map k := by
  rw [mapM_eq_ok_iff] at h
  induction h with
  | nil => rfl
  | cons hy _ ih => rw [List.map_cons, List.map_cons, hf _ _ hy, ih]

end Retrace
