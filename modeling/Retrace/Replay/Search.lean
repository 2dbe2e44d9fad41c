import Retrace.Step

/-!
# Finding steps

Positions of steps with a property, from the start, after a cursor or before it. There being none is
not an error.

Models `first_step`, `next_step` and `previous_step`.

* `lt_of_next?`, `lt_of_previous?`: what is found lies strictly on its side of the cursor, and among
  the steps.
-/

namespace Retrace.Search

/-- The lowest position of a step with the property. -/
def first? (p : Step → Bool) (steps : List Step) : Option Nat := steps.findIdx? p

/-- The lowest position after the cursor. -/
def next? (p : Step → Bool) (steps : List Step) (cursor : Nat) : Option Nat :=
  ((steps.drop (cursor + 1)).findIdx? p).map (cursor + 1 + ·)

/-- The highest position of a step with the property. -/
def last? (p : Step → Bool) : List Step → Option Nat
  | [] => none
  | s :: rest => ((last? p rest).map (· + 1)).or (if p s then some 0 else none)

/-- The highest position before the cursor. -/
def previous? (p : Step → Bool) (steps : List Step) (cursor : Nat) : Option Nat :=
  last? p (steps.take cursor)

theorem lt_of_next? {p : Step → Bool} {steps : List Step} {cursor i : Nat}
    (h : next? p steps cursor = some i) : cursor < i ∧ i < steps.length := by
  unfold next? at h
  obtain ⟨k, hk, rfl⟩ := Option.map_eq_some_iff.mp h
  obtain ⟨hlt, -⟩ := List.findIdx?_eq_some_iff_getElem.mp hk
  rw [List.length_drop] at hlt
  omega

theorem lt_length_of_last? {p : Step → Bool} {steps : List Step} {i : Nat}
    (h : last? p steps = some i) : i < steps.length := by
  induction steps generalizing i with
  | nil => exact absurd h (by simp [last?])
  | cons s rest ih =>
    unfold last? at h
    rcases Option.or_eq_some_iff.mp h with h | ⟨-, h⟩
    · obtain ⟨k, hk, rfl⟩ := Option.map_eq_some_iff.mp h
      have := ih hk
      rw [List.length_cons]
      omega
    · by_cases hp : p s = true
      · rw [if_pos hp] at h
        have : i = 0 := (Option.some.inj h).symm
        rw [List.length_cons]
        omega
      · exact absurd h (by simp [hp])

theorem lt_of_previous? {p : Step → Bool} {steps : List Step} {cursor i : Nat}
    (h : previous? p steps cursor = some i) : i < cursor ∧ i < steps.length := by
  have := lt_length_of_last? h
  rw [List.length_take] at this
  omega

end Retrace.Search
