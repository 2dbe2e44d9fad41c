import Retrace.Replay.Search

/-!
# What a search finds

The four searches through the positions of a list of steps, each said by what it finds: the position
that has the property and is closest to where the search starts, or that there is none.

* `Search.Hit`: the step at a position has the property.
* `Search.first?_eq_some_iff`, `Search.next?_eq_some_iff`, `Search.last?_eq_some_iff`,
  `Search.previous?_eq_some_iff`: the position that is found.
* `Search.first?_eq_none_iff`, `Search.next?_eq_none_iff`, `Search.previous?_eq_none_iff`: nothing is
  found exactly when there is nothing.
-/

namespace Retrace.Search

variable {p : Step → Bool} {s : Step} {steps : List Step} {cursor i : Nat}

/-- There is a step at a position, and it has the property. -/
def Hit (p : Step → Bool) (steps : List Step) (i : Nat) : Prop :=
  ∃ h : i < steps.length, p steps[i] = true

instance (p : Step → Bool) (steps : List Step) (i : Nat) : Decidable (Hit p steps i) :=
  inferInstanceAs (Decidable (∃ h : i < steps.length, p steps[i] = true))

theorem Hit.lt_length (h : Hit p steps i) : i < steps.length := h.1

theorem Hit.ne_nil (h : Hit p steps i) : steps ≠ [] :=
  List.ne_nil_of_length_pos (Nat.zero_lt_of_lt h.lt_length)

theorem exists_hit_iff : (∃ i, Hit p steps i) ↔ ∃ s ∈ steps, p s = true := by
  constructor
  · rintro ⟨i, hi, hp⟩
    exact ⟨steps[i], List.getElem_mem hi, hp⟩
  · rintro ⟨s, hs, hp⟩
    obtain ⟨i, hi, rfl⟩ := List.mem_iff_getElem.mp hs
    exact ⟨i, hi, hp⟩

theorem hit_zero_cons : Hit p (s :: steps) 0 ↔ p s = true :=
  ⟨fun ⟨_, hp⟩ => hp, fun hp => ⟨Nat.succ_pos _, hp⟩⟩

theorem hit_succ_cons : Hit p (s :: steps) (i + 1) ↔ Hit p steps i :=
  ⟨fun ⟨h, hp⟩ => ⟨Nat.lt_of_succ_lt_succ h, hp⟩, fun ⟨h, hp⟩ => ⟨Nat.succ_lt_succ h, hp⟩⟩

theorem hit_drop {n : Nat} : Hit p (steps.drop n) i ↔ Hit p steps (n + i) := by
  have hlength : (steps.drop n).length = steps.length - n := List.length_drop
  constructor
  · rintro ⟨h, hp⟩
    rw [List.getElem_drop] at hp
    exact ⟨by omega, hp⟩
  · rintro ⟨h, hp⟩
    refine ⟨by omega, ?_⟩
    rwa [List.getElem_drop]

theorem hit_take {n : Nat} : Hit p (steps.take n) i ↔ i < n ∧ Hit p steps i := by
  have hlength : (steps.take n).length = min n steps.length := List.length_take
  constructor
  · rintro ⟨h, hp⟩
    rw [List.getElem_take] at hp
    exact ⟨by omega, by omega, hp⟩
  · rintro ⟨hn, h, hp⟩
    refine ⟨by omega, ?_⟩
    rwa [List.getElem_take]

/-! ## Forward -/

theorem first?_eq_some_iff : first? p steps = some i ↔ Hit p steps i ∧ ∀ j < i, ¬ Hit p steps j := by
  unfold first?
  rw [List.findIdx?_eq_some_iff_getElem]
  constructor
  · rintro ⟨h, hp, hbefore⟩
    exact ⟨⟨h, hp⟩, fun j hj ⟨_, hpj⟩ => hbefore j hj hpj⟩
  · rintro ⟨⟨h, hp⟩, hbefore⟩
    exact ⟨h, hp, fun j hj hpj => hbefore j hj ⟨by omega, hpj⟩⟩

theorem first?_eq_none_iff : first? p steps = none ↔ ∀ i, ¬ Hit p steps i := by
  unfold first?
  rw [List.findIdx?_eq_none_iff, ← not_exists, exists_hit_iff]
  constructor
  · rintro h ⟨s, hs, hp⟩
    rw [h s hs] at hp
    exact Bool.noConfusion hp
  · intro h s hs
    exact Bool.eq_false_iff.mpr fun hp => h ⟨s, hs, hp⟩

theorem next?_eq_first? (p : Step → Bool) (steps : List Step) (cursor : Nat) :
    next? p steps cursor = (first? p (steps.drop (cursor + 1))).map (cursor + 1 + ·) := rfl

theorem next?_eq_some_iff :
    next? p steps cursor = some i ↔
      cursor < i ∧ Hit p steps i ∧ ∀ j, cursor < j → j < i → ¬ Hit p steps j := by
  rw [next?_eq_first?, Option.map_eq_some_iff]
  constructor
  · rintro ⟨k, hk, rfl⟩
    obtain ⟨hit, hbefore⟩ := first?_eq_some_iff.mp hk
    refine ⟨by omega, hit_drop.mp hit, fun j hj hlt hhit => hbefore (j - (cursor + 1)) (by omega) ?_⟩
    rw [hit_drop]
    rwa [Nat.add_sub_cancel' (show cursor + 1 ≤ j by omega)]
  · rintro ⟨hlt, hit, hbefore⟩
    refine ⟨i - (cursor + 1), first?_eq_some_iff.mpr ⟨?_, fun j hj hhit => ?_⟩, by omega⟩
    · rw [hit_drop]
      rwa [Nat.add_sub_cancel' (show cursor + 1 ≤ i by omega)]
    · exact hbefore (cursor + 1 + j) (by omega) (by omega) (hit_drop.mp hhit)

theorem next?_eq_none_iff : next? p steps cursor = none ↔ ∀ j, cursor < j → ¬ Hit p steps j := by
  rw [next?_eq_first?, Option.map_eq_none_iff, first?_eq_none_iff]
  constructor
  · intro h j hj hhit
    refine h (j - (cursor + 1)) (hit_drop.mpr ?_)
    rwa [Nat.add_sub_cancel' (show cursor + 1 ≤ j by omega)]
  · intro h j hhit
    exact h (cursor + 1 + j) (by omega) (hit_drop.mp hhit)

/-! ## Backward -/

theorem last?_eq_none_iff : last? p steps = none ↔ ∀ i, ¬ Hit p steps i := by
  induction steps with
  | nil => exact ⟨fun _ i h => absurd h.lt_length (Nat.not_lt_zero i), fun _ => rfl⟩
  | cons s rest ih =>
    rw [last?, Option.or_eq_none_iff, Option.map_eq_none_iff, ih]
    constructor
    · rintro ⟨hrest, hs⟩ i hit
      cases i with
      | zero =>
        rw [if_pos (hit_zero_cons.mp hit)] at hs
        cases hs
      | succ i => exact hrest i (hit_succ_cons.mp hit)
    · intro h
      exact ⟨fun i hit => h (i + 1) (hit_succ_cons.mpr hit),
        if_neg fun hp => h 0 (hit_zero_cons.mpr hp)⟩

theorem last?_eq_some_iff : last? p steps = some i ↔ Hit p steps i ∧ ∀ j, i < j → ¬ Hit p steps j := by
  induction steps generalizing i with
  | nil => exact ⟨nofun, fun h => absurd h.1.lt_length (Nat.not_lt_zero i)⟩
  | cons s rest ih =>
    rw [last?, Option.or_eq_some_iff, Option.map_eq_some_iff, Option.map_eq_none_iff,
      last?_eq_none_iff]
    constructor
    · rintro (⟨k, hk, rfl⟩ | ⟨hnone, hs⟩)
      · obtain ⟨hit, hafter⟩ := ih.mp hk
        refine ⟨hit_succ_cons.mpr hit, fun j hj hhit => ?_⟩
        obtain ⟨j, rfl⟩ := Nat.exists_eq_add_one_of_ne_zero (show j ≠ 0 by omega)
        exact hafter j (by omega) (hit_succ_cons.mp hhit)
      · obtain ⟨hp, hi⟩ := Option.ite_none_right_eq_some.mp hs
        obtain rfl : 0 = i := Option.some.inj hi
        refine ⟨hit_zero_cons.mpr hp, fun j hj hhit => ?_⟩
        obtain ⟨j, rfl⟩ := Nat.exists_eq_add_one_of_ne_zero (show j ≠ 0 by omega)
        exact hnone j (hit_succ_cons.mp hhit)
    · rintro ⟨hit, hafter⟩
      cases i with
      | zero =>
        refine .inr ⟨fun j hhit => hafter (j + 1) (by omega) (hit_succ_cons.mpr hhit), ?_⟩
        rw [if_pos (hit_zero_cons.mp hit)]
      | succ i =>
        refine .inl ⟨i, ih.mpr ⟨hit_succ_cons.mp hit, fun j hj hhit => ?_⟩, rfl⟩
        exact hafter (j + 1) (by omega) (hit_succ_cons.mpr hhit)

theorem previous?_eq_some_iff :
    previous? p steps cursor = some i ↔
      i < cursor ∧ Hit p steps i ∧ ∀ j, i < j → j < cursor → ¬ Hit p steps j := by
  unfold previous?
  rw [last?_eq_some_iff]
  simp only [hit_take, not_and]
  constructor
  · rintro ⟨⟨hlt, hit⟩, hafter⟩
    exact ⟨hlt, hit, hafter⟩
  · rintro ⟨hlt, hit, hafter⟩
    exact ⟨⟨hlt, hit⟩, hafter⟩

theorem previous?_eq_none_iff :
    previous? p steps cursor = none ↔ ∀ j < cursor, ¬ Hit p steps j := by
  unfold previous?
  rw [last?_eq_none_iff]
  simp only [hit_take, not_and]

end Retrace.Search
