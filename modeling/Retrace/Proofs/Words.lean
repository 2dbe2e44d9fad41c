import Mathlib.Data.List.Infix
import Retrace.Text.Blank

/-!
# The words of a text

The words of a text are the maximal runs of characters that are not blank. They are read from the left:
what is glued to the front of a text goes to its first word if it begins with one.

* `IsApart`: a text that begins with no word.
* `words_append_of_isApart`, `exists_words_append`: the words of a text with something in front of it.
* `infix_iff_exists_words`: what has no blank in it stands in a text when it stands in one of its words.
-/

namespace Retrace.Text

/-- A text that is empty or begins with a blank. -/
def IsApart (s : List Char) : Prop := ∀ c ∈ s.head?, isBlank c = true

theorem wordsFrom_append {w : List Char} (hw : ∀ c ∈ w, isBlank c = false) (acc s : List Char) :
    wordsFrom acc (w ++ s) = wordsFrom (w.reverse ++ acc) s := by
  induction w generalizing acc with
  | nil => rfl
  | cons c w ih =>
    obtain ⟨hc, hw⟩ := List.forall_mem_cons.mp hw
    simp [wordsFrom, hc, ih hw]

theorem wordsFrom_of_isApart {s acc : List Char} (hs : IsApart s) (hacc : acc ≠ []) :
    wordsFrom acc s = acc.reverse :: words s := by
  cases s with
  | nil => simp [wordsFrom, words, hacc]
  | cons c s =>
    have hc : isBlank c = true := hs c rfl
    simp [wordsFrom, words, hc, hacc]

theorem words_blank {c : Char} (hc : isBlank c = true) (s : List Char) :
    words (c :: s) = words s := by
  simp [words, wordsFrom, hc]

/-- A word in front of a text that begins with none is a word of its own. -/
theorem words_append_of_isApart {w s : List Char} (hw : ∀ c ∈ w, isBlank c = false) (hne : w ≠ [])
    (hs : IsApart s) : words (w ++ s) = w :: words s := by
  rw [words, wordsFrom_append hw, List.append_nil, wordsFrom_of_isApart hs (by simpa using hne),
    List.reverse_reverse]

/-- In front of a text that begins with a word it goes to that one. -/
theorem exists_words_append {s : List Char} (hs : ¬ IsApart s) :
    ∃ first rest, words s = first :: rest ∧ first ≠ [] ∧ first <+: s ∧
      ∀ w, (∀ c ∈ w, isBlank c = false) → words (w ++ s) = (w ++ first) :: rest := by
  have key : ∀ s : List Char, ¬ IsApart s → ∃ first rest, first ≠ [] ∧ first <+: s ∧
      ∀ acc, wordsFrom acc s = (acc.reverse ++ first) :: rest := by
    intro s
    induction s with
    | nil => exact fun h => absurd (fun c hc => by cases hc) h
    | cons c s ih =>
      intro h
      have hc : isBlank c = false := by simpa [IsApart] using h
      by_cases hs : IsApart s
      · refine ⟨[c], words s, by simp, by simp, fun acc => ?_⟩
        simp [wordsFrom, hc, wordsFrom_of_isApart hs]
      · obtain ⟨first, rest, -, hfirst, hall⟩ := ih hs
        refine ⟨c :: first, rest, by simp, by simpa using hfirst, fun acc => ?_⟩
        simp [wordsFrom, hc, hall]
  obtain ⟨first, rest, hne, hfirst, hall⟩ := key s hs
  refine ⟨first, rest, hall [], hne, hfirst, fun w hw => ?_⟩
  rw [words, wordsFrom_append hw, hall]
  simp

theorem infix_append_cons_iff {α : Type} {m u v : List α} {c : α} (hc : c ∉ m) :
    m <:+: u ++ c :: v ↔ m <:+: u ∨ m <:+: v := by
  constructor
  · rintro ⟨a, b, h⟩
    rw [List.append_assoc] at h
    rcases List.append_eq_append_iff.mp h with ⟨x, rfl, hx⟩ | ⟨x, rfl, hx⟩
    · rcases List.append_eq_append_iff.mp hx with ⟨y, rfl, -⟩ | ⟨y, rfl, hy⟩
      · exact Or.inl ⟨a, y, by simp⟩
      · cases y with
        | nil => exact Or.inl ⟨a, [], by simp⟩
        | cons d y =>
          obtain ⟨rfl, -⟩ := List.cons_eq_cons.mp hy
          exact absurd (by simp) hc
    · cases x with
      | nil => cases m with
        | nil => exact Or.inl (List.nil_infix)
        | cons d m =>
          obtain ⟨rfl, -⟩ := List.cons_eq_cons.mp hx
          exact absurd (by simp) hc
      | cons d x =>
        obtain ⟨-, rfl⟩ := List.cons_eq_cons.mp hx
        exact Or.inr ⟨x, b, by simp⟩
  · rintro (h | h)
    · exact h.trans (List.infix_append' [] u (c :: v))
    · exact h.trans ⟨u ++ [c], [], by simp⟩

/-- What has no blank in it stands in a text when it stands in one of its words. -/
theorem infix_iff_exists_words {m : List Char} (hne : m ≠ []) (hm : ∀ c ∈ m, isBlank c = false)
    (s : List Char) : m <:+: s ↔ ∃ w ∈ words s, m <:+: w := by
  have key : ∀ (s acc : List Char),
      m <:+: acc.reverse ++ s ↔ ∃ w ∈ wordsFrom acc s, m <:+: w := by
    intro s
    induction s with
    | nil =>
      intro acc
      by_cases hacc : acc = []
      · simp [wordsFrom, hacc, hne]
      · simp [wordsFrom, hacc]
    | cons c s ih =>
      intro acc
      by_cases hc : isBlank c = true
      · have hnot : c ∉ m := fun h => by simp [hm c h] at hc
        have hrest := ih []
        rw [infix_append_cons_iff hnot]
        by_cases hacc : acc = []
        · simpa [wordsFrom, hc, hacc, hne] using hrest
        · simpa [wordsFrom, hc, hacc] using or_congr_right hrest
      · have hword := ih (c :: acc)
        simpa [wordsFrom, hc] using hword
  exact key s []

end Retrace.Text
