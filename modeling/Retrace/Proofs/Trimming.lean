import Mathlib.Data.List.DropRight
import Retrace.Text.Blank

/-!
# White space around a text

Trimming takes white space off both ends of a text and nothing else, so that white space put around a
text is not seen in its trimmed form.

* `exists_trim`: a text is its trimmed form with white space around it.
* `trim_around`: white space around a text does not change its trimmed form.
-/

namespace Retrace.Text

/-- A text of nothing but white space. -/
def IsBlank (s : List Char) : Prop := ∀ c ∈ s, isBlank c = true

variable {s w w' : List Char}

theorem trimEnd_eq_rdropWhile (s : List Char) : trimEnd s = s.rdropWhile isBlank := by
  induction s with
  | nil => rfl
  | cons c s ih =>
    rw [trimEnd, ih, List.rdropWhile, List.rdropWhile, List.reverse_cons, List.dropWhile_append]
    cases s.reverse.dropWhile isBlank with
    | nil => cases hc : isBlank c <;> simp [hc]
    | cons d kept => cases hkept : (d :: kept).reverse <;> simp_all

theorem trim_append_left (hw : IsBlank w) (s : List Char) : trim (w ++ s) = trim s := by
  rw [trim, trimStart, List.dropWhile_append_of_pos hw, trim, trimStart]

theorem trim_eq_nil_iff : trim s = [] ↔ IsBlank s := by
  rw [trim, trimEnd_eq_rdropWhile, List.rdropWhile_eq_nil_iff, trimStart]
  constructor
  · intro h c hc
    rw [← List.takeWhile_append_dropWhile (p := isBlank) (l := s)] at hc
    rcases List.mem_append.mp hc with hc | hc
    · exact List.mem_takeWhile_imp hc
    · exact h c hc
  · intro h c hc
    exact h c ((List.dropWhile_sublist isBlank).subset hc)

theorem trim_append_right (hw : IsBlank w) (s : List Char) : trim (s ++ w) = trim s := by
  by_cases hs : IsBlank s
  · have happend : IsBlank (s ++ w) := fun c hc => (List.mem_append.mp hc).elim (hs c) (hw c)
    rw [trim_eq_nil_iff.mpr happend, trim_eq_nil_iff.mpr hs]
  · have hne : trimStart s ≠ [] := fun h => hs (List.dropWhile_eq_nil_iff.mp h)
    have hstart : trimStart (s ++ w) = trimStart s ++ w := by
      rw [trimStart, List.dropWhile_append, if_neg (by simpa [trimStart] using hne), trimStart]
    rw [trim, hstart, trim, trimEnd_eq_rdropWhile, trimEnd_eq_rdropWhile, List.rdropWhile,
      List.reverse_append, List.dropWhile_append_of_pos fun c hc => hw c (List.mem_reverse.mp hc),
      List.rdropWhile]

/-- **White space around a text does not change its trimmed form.** -/
theorem trim_around (hw : IsBlank w) (hw' : IsBlank w') (s : List Char) :
    trim (w ++ (s ++ w')) = trim s := by
  rw [trim_append_left hw, trim_append_right hw']

/-- **A text is its trimmed form with white space around it.** -/
theorem exists_trim (s : List Char) :
    ∃ w w', IsBlank w ∧ IsBlank w' ∧ s = w ++ (trim s ++ w') := by
  refine ⟨s.takeWhile isBlank, (trimStart s).rtakeWhile isBlank,
    fun c hc => List.mem_takeWhile_imp hc, fun c hc => List.mem_rtakeWhile_imp hc, ?_⟩
  rw [trim, trimEnd_eq_rdropWhile, List.rdropWhile_append_rtakeWhile, trimStart,
    List.takeWhile_append_dropWhile]

end Retrace.Text
