import Retrace.Text.Lines

/-!
# Texts cut at a separator

A text is cut at every occurrence of one character. Cutting and joining undo each other: the parts joined
by the separator are the text, and parts without the separator are what is found when they are joined.

* `splitAtChar_append_cons`: the parts on both sides of a separator.
* `splitAtChar_intercalate`: joined parts are found again.
-/

namespace Retrace.Text

variable {d : Char} {s t : List Char}

theorem splitAtChar_ne_nil (d : Char) (s : List Char) : splitAtChar d s ≠ [] := by
  cases s with
  | nil => simp [splitAtChar]
  | cons c s =>
    unfold splitAtChar
    split
    · simp
    · split <;> simp

/-- A character that is no separator belongs to the first part. -/
theorem exists_splitAtChar_cons {c : Char} (hc : c ≠ d) (s : List Char) :
    ∃ part parts, splitAtChar d s = part :: parts ∧
      splitAtChar d (c :: s) = (c :: part) :: parts := by
  obtain ⟨part, parts, h⟩ := List.exists_cons_of_ne_nil (splitAtChar_ne_nil d s)
  refine ⟨part, parts, h, ?_⟩
  rw [splitAtChar, if_neg hc, h]

/-- **The parts on both sides of a separator.** -/
theorem splitAtChar_append_cons (d : Char) (s t : List Char) :
    splitAtChar d (s ++ d :: t) = splitAtChar d s ++ splitAtChar d t := by
  induction s with
  | nil => simp [splitAtChar]
  | cons c s ih =>
    by_cases hc : c = d
    · simp [splitAtChar, hc, ih]
    · obtain ⟨part, parts, h, hcons⟩ := exists_splitAtChar_cons hc s
      obtain ⟨part', parts', h', hcons'⟩ := exists_splitAtChar_cons hc (s ++ d :: t)
      rw [ih, h, List.cons_append, List.cons_eq_cons] at h'
      obtain ⟨rfl, rfl⟩ := h'
      rw [List.cons_append, hcons', hcons, List.cons_append]

theorem splitAtChar_of_not_mem (h : d ∉ s) : splitAtChar d s = [s] := by
  induction s with
  | nil => rfl
  | cons c s ih =>
    obtain ⟨hc, hs⟩ := List.ne_and_not_mem_of_not_mem_cons h
    rw [splitAtChar, if_neg fun h => hc h.symm, ih hs]

theorem not_mem_of_mem_splitAtChar {part : List Char} (h : part ∈ splitAtChar d s) : d ∉ part := by
  induction s generalizing part with
  | nil =>
    rw [List.mem_singleton.mp h]
    exact List.not_mem_nil
  | cons c s ih =>
    by_cases hc : c = d
    · rw [splitAtChar, if_pos hc] at h
      rcases List.mem_cons.mp h with rfl | h
      · exact List.not_mem_nil
      · exact ih h
    · obtain ⟨first, parts, hs, hcons⟩ := exists_splitAtChar_cons hc s
      rw [hs] at ih
      rw [hcons] at h
      rcases List.mem_cons.mp h with rfl | h
      · simpa [Ne.symm hc] using ih List.mem_cons_self
      · exact ih (List.mem_cons_of_mem first h)

/-- **Joined parts are found again.** -/
theorem splitAtChar_intercalate {parts : List (List Char)} (hne : parts ≠ [])
    (h : ∀ part ∈ parts, d ∉ part) : splitAtChar d (List.intercalate [d] parts) = parts := by
  induction parts with
  | nil => exact absurd rfl hne
  | cons part parts ih =>
    obtain ⟨hpart, hparts⟩ := List.forall_mem_cons.mp h
    cases parts with
    | nil =>
      rw [List.intercalate_singleton]
      exact splitAtChar_of_not_mem hpart
    | cons next parts =>
      rw [List.intercalate_cons_cons, List.append_assoc, List.singleton_append,
        splitAtChar_append_cons, splitAtChar_of_not_mem hpart,
        ih (List.cons_ne_nil next parts) hparts, List.singleton_append]

theorem length_splitAtChar (d : Char) (s : List Char) :
    (splitAtChar d s).length = s.count d + 1 := by
  induction s with
  | nil => rfl
  | cons c s ih =>
    by_cases hc : c = d
    · simp [splitAtChar, hc, ih]
    · obtain ⟨part, parts, h, hcons⟩ := exists_splitAtChar_cons hc s
      rw [hcons, List.length_cons, List.count_cons_of_ne hc, ← ih, h, List.length_cons]

end Retrace.Text
