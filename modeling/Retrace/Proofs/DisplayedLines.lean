import Mathlib.Data.List.Basic
import Retrace.Proofs.Text

/-!
# Lines as they are displayed

A pane shows the lines of a text without what ends them: no newlines, no carriage return before a newline,
and no empty line behind a final newline. Every other character is shown, in the line that is told by the
newlines before it and in the place that is told by the characters before it on its line.

* `IsLine`: a line of a text with what stands above and below it.
* `exists_isLine`, `isLine_of_char`: each line of a text, and the line of a character.
* `EndsLine.eq_of_count`: the number of a line tells where it begins.
* `IsLine.lastLine_prefix`, `IsLine.displayed_prefix`: a line up to a position, and as it is displayed.
* `getElem?_displayLines`: which character is shown where.
-/

namespace Retrace.Text

variable {s above line below : List Char} {n : Nat}

/-! ## The lines of a text -/

/-- Line `n` of a text, counted from zero, stands between what is above and what is below it, the newline
at its end included. -/
structure IsLine (s : List Char) (n : Nat) (above line below : List Char) : Prop where
  eq : s = above ++ (line ++ below)
  ends : EndsLine above
  count : above.count '\n' = n
  not_mem : '\n' ∉ line
  below : below = [] ∨ ∃ rest, below = '\n' :: rest

theorem lastLine_append {m : List Char} (habove : EndsLine above) (hm : '\n' ∉ m) :
    lastLine (above ++ m) = m := by
  have key : ∀ init : List Char, lastLine (init ++ '\n' :: m) = m := by
    intro init
    induction init with
    | nil =>
      rw [List.nil_append, lastLine, if_pos List.mem_cons_self]
      exact lastLine_of_not_mem hm
    | cons c init ih =>
      rw [List.cons_append, lastLine, if_pos (by simp)]
      exact ih
  rcases habove with rfl | ⟨init, rfl⟩
  · exact lastLine_of_not_mem hm
  · simpa using key init

/-- What stands above a line is told by its newlines. -/
theorem EndsLine.eq_of_count {above' rest rest' : List Char} (h : EndsLine above)
    (h' : EndsLine above') (heq : above ++ rest = above' ++ rest')
    (hcount : above.count '\n' = above'.count '\n') : above = above' := by
  have key : ∀ {u m : List Char}, EndsLine (u ++ m) → (u ++ m).count '\n' = u.count '\n' →
      m = [] := by
    intro u m hends hcount
    have hm : '\n' ∉ m := List.count_eq_zero.mp (by rw [List.count_append] at hcount; omega)
    obtain rfl | ⟨m, c, rfl⟩ := List.eq_nil_or_concat' m
    · rfl
    · rcases hends with hnil | ⟨init, hinit⟩
      · simp at hnil
      · rw [← List.append_assoc] at hinit
        have hc : c = '\n' := by simpa using (List.append_inj' hinit rfl).2
        exact absurd (by simp [hc]) hm
  rcases List.append_eq_append_iff.mp heq with ⟨m, rfl, -⟩ | ⟨m, rfl, -⟩
  · rw [key h' hcount.symm, List.append_nil]
  · rw [key h hcount, List.append_nil]

theorem exists_isLine (h : n ≤ s.count '\n') : ∃ above line below, IsLine s n above line below := by
  induction n generalizing s with
  | zero =>
    by_cases hs : '\n' ∈ s
    · obtain ⟨line, below, rfl, hline⟩ := List.eq_append_cons_of_mem hs
      exact ⟨[], line, '\n' :: below, rfl, Or.inl rfl, rfl, hline, Or.inr ⟨below, rfl⟩⟩
    · exact ⟨[], s, [], by simp, Or.inl rfl, rfl, hs, Or.inl rfl⟩
  | succ n ih =>
    have hs : '\n' ∈ s := List.count_pos_iff.mp (by omega)
    obtain ⟨first, rest, rfl, hfirst⟩ := List.eq_append_cons_of_mem hs
    have hcount : (first ++ ['\n']).count '\n' = 1 := by
      simp [List.count_eq_zero.mpr hfirst]
    have hrest : n ≤ rest.count '\n' := by
      rw [List.append_cons, List.count_append, hcount] at h
      omega
    obtain ⟨above, line, below, heq, hends, habove, hline, hbelow⟩ := ih hrest
    refine ⟨first ++ ['\n'] ++ above, line, below, ?_, Or.inr ?_, ?_, hline, hbelow⟩
    · rw [heq]
      simp
    · rcases hends with rfl | ⟨init, rfl⟩
      · exact ⟨first, by simp⟩
      · exact ⟨first ++ ['\n'] ++ init, by simp⟩
    · rw [List.count_append, hcount, habove, Nat.add_comm]

/-- What stands before a position on a line is a start of the line. -/
theorem IsLine.lastLine_prefix {before after : List Char} (h : IsLine s n above line below)
    (hs : s = before ++ after) (hn : before.count '\n' = n) : lastLine before <+: line := by
  obtain ⟨above', hends, hbefore⟩ := exists_above before
  have hnone := List.count_eq_zero.mpr (newline_not_mem_lastLine before)
  have hcount : above'.count '\n' = n := by
    have := congrArg (List.count '\n') hbefore
    rw [List.count_append, hnone] at this
    omega
  have heq : above' ++ (lastLine before ++ after) = above ++ (line ++ below) := by
    rw [← List.append_assoc, ← hbefore, ← hs, h.eq]
  obtain rfl := hends.eq_of_count h.ends heq (hcount.trans h.count.symm)
  rcases List.append_eq_append_iff.mp (List.append_cancel_left heq) with ⟨m, hline, -⟩ | ⟨m, hlast, hbelow⟩
  · exact ⟨m, hline.symm⟩
  · -- what is below the line would begin on it
    rcases h.below with rfl | ⟨rest, rfl⟩
    · rw [(List.append_eq_nil_iff.mp hbelow.symm).1, List.append_nil] at hlast
      exact hlast ▸ List.prefix_rfl
    · cases m with
      | nil =>
        rw [List.append_nil] at hlast
        exact hlast ▸ List.prefix_rfl
      | cons d m =>
        obtain ⟨rfl, -⟩ := List.cons.inj hbelow
        exact absurd (by rw [hlast]; simp) (newline_not_mem_lastLine before)

/-- The line of a character. -/
theorem isLine_of_char {before after : List Char} {c : Char} (hs : s = before ++ c :: after)
    (hc : c ≠ '\n') : ∃ above tail below, before = above ++ lastLine before ∧
      after = tail ++ below ∧
      IsLine s (before.count '\n') above (lastLine before ++ c :: tail) below := by
  obtain ⟨above, hends, habove⟩ := exists_above before
  have hcount : before.count '\n' = above.count '\n' := by
    have hlast := List.count_eq_zero.mpr (newline_not_mem_lastLine before)
    have := congrArg (List.count '\n') habove
    rw [List.count_append, hlast] at this
    omega
  obtain ⟨tail, below, rfl, htail, hbelow⟩ : ∃ tail below, after = tail ++ below ∧ '\n' ∉ tail ∧
      (below = [] ∨ ∃ rest, below = '\n' :: rest) := by
    by_cases hafter : '\n' ∈ after
    · obtain ⟨tail, below, rfl, htail⟩ := List.eq_append_cons_of_mem hafter
      exact ⟨tail, '\n' :: below, rfl, htail, Or.inr ⟨below, rfl⟩⟩
    · exact ⟨after, [], by simp, hafter, Or.inl rfl⟩
  refine ⟨above, tail, below, habove, rfl, ?_, hends, hcount.symm, ?_, hbelow⟩
  · calc s = (above ++ lastLine before) ++ c :: (tail ++ below) := by rw [hs, ← habove]
      _ = above ++ (lastLine before ++ c :: tail ++ below) := by simp
  · simp [newline_not_mem_lastLine before, htail, hc.symm]

/-! ## Displayed lines -/

theorem IsLine.getElem?_splitAtNewline (h : IsLine s n above line below) :
    (splitAtNewline s)[n]? = some line := by
  obtain ⟨rfl, hends, rfl, hline, hbelow⟩ := h
  have hhead : (splitAtChar '\n' (line ++ below))[0]? = some line := by
    rcases hbelow with rfl | ⟨rest, rfl⟩
    · simp [splitAtChar_of_not_mem hline]
    · simp [splitAtChar_append_cons, splitAtChar_of_not_mem hline]
  rcases hends with rfl | ⟨init, rfl⟩
  · exact hhead
  · have hlength := length_splitAtChar '\n' init
    rw [splitAtNewline, List.append_assoc, List.singleton_append, splitAtChar_append_cons,
      List.getElem?_append_right (by simp [hlength])]
    simpa [hlength] using hhead

theorem IsLine.count_eq (h : IsLine s n above line below) :
    s.count '\n' = n + below.count '\n' := by
  rw [h.eq, List.count_append, List.count_append, h.count, List.count_eq_zero.mpr h.not_mem,
    Nat.zero_add]

theorem getElem?_shownParts (parts : List (List Char)) (n : Nat) :
    (shownParts parts)[n]? = if n + 1 < parts.length then parts[n]?.map dropCarriageReturn
      else parts[n]?.filter fun part => !part.isEmpty := by
  induction parts generalizing n with
  | nil => simp [shownParts]
  | cons part parts ih =>
    cases parts with
    | nil =>
      cases n <;> cases hpart : part.isEmpty <;> simp [shownParts, hpart, Option.filter]
    | cons next parts =>
      rw [shownParts]
      · cases n with
        | zero => simp
        | succ n => simpa using ih n
      · simp

/-- A line is displayed without the carriage return before its newline; the last one is displayed when
it is not empty. -/
theorem IsLine.getElem?_displayLines (h : IsLine s n above line below) :
    (displayLines s)[n]? = if below = [] then (if line = [] then none else some line)
      else some (dropCarriageReturn line) := by
  have hlength := length_splitAtNewline s
  rw [displayLines, getElem?_shownParts, h.getElem?_splitAtNewline, hlength, h.count_eq]
  rcases h.below with rfl | ⟨rest, rfl⟩
  · cases line <;> simp
  · simp

theorem dropCarriageReturn_prefix (l : List Char) : dropCarriageReturn l <+: l := by
  fun_induction dropCarriageReturn l with
  | case1 => exact List.prefix_rfl
  | case2 => exact List.nil_prefix
  | case3 d rest hne ih => exact (List.prefix_cons_inj d).mpr ih

/-- What is displayed of a line is a start of it. -/
theorem IsLine.displayed_prefix {l : List Char} (h : IsLine s n above line below)
    (hl : (displayLines s)[n]? = some l) : l <+: line := by
  rw [h.getElem?_displayLines] at hl
  split at hl
  · split at hl
    · cases hl
    · exact (Option.some.inj hl) ▸ List.prefix_rfl
  · exact (Option.some.inj hl) ▸ dropCarriageReturn_prefix line

theorem getElem?_dropCarriageReturn (l : List Char) (i : Nat) (c : Char) :
    (dropCarriageReturn l)[i]? = some c ↔
      l[i]? = some c ∧ ¬ (c = '\r' ∧ i + 1 = l.length) := by
  fun_induction dropCarriageReturn l generalizing i with
  | case1 => simp
  | case2 => cases i <;> simp +contextual [eq_comm]
  | case3 d rest hne ih =>
    cases i with
    | zero =>
      cases rest with
      | nil =>
        have hd : d ≠ '\r' := fun h => hne h rfl
        simp only [List.getElem?_cons_zero, Option.some_inj]
        constructor
        · rintro rfl
          simp [hd]
        · exact And.left
      | cons e rest => simp
    | succ i => simpa using ih i

/-- A character that is shown where `after` follows it. -/
def IsShown (c : Char) (after : List Char) : Prop :=
  c ≠ '\n' ∧ ¬ (c = '\r' ∧ after.head? = some '\n')

/-- **Which character is shown where.** -/
theorem getElem?_displayLines (s : List Char) (n i : Nat) (c : Char) :
    (∃ l, (displayLines s)[n]? = some l ∧ l[i]? = some c) ↔
      ∃ before after, s = before ++ c :: after ∧ IsShown c after ∧ before.count '\n' = n ∧
        (lastLine before).length = i := by
  constructor
  · rintro ⟨shown, hshown, hi⟩
    have hn : n ≤ s.count '\n' := by
      have hpart : (splitAtNewline s)[n]? ≠ none := by
        intro hnone
        rw [displayLines, getElem?_shownParts, hnone] at hshown
        simp at hshown
      have := List.getElem?_eq_none_iff.not.mp hpart
      rw [length_splitAtNewline] at this
      omega
    obtain ⟨above, l, below, h⟩ := exists_isLine hn
    rw [h.getElem?_displayLines] at hshown
    -- the character stands in the line, and is no carriage return before a newline
    have hline : l[i]? = some c ∧ ¬ (c = '\r' ∧ i + 1 = l.length ∧ below ≠ []) := by
      split at hshown
      · next hbelow =>
        split at hshown
        · cases hshown
        · obtain rfl := Option.some.inj hshown
          exact ⟨hi, by simp [hbelow]⟩
      · obtain rfl := Option.some.inj hshown
        obtain ⟨hc, hnot⟩ := (getElem?_dropCarriageReturn l i c).mp hi
        exact ⟨hc, fun ⟨hr, hlast, _⟩ => hnot ⟨hr, hlast⟩⟩
    obtain ⟨hc, hnot⟩ := hline
    obtain ⟨hlt, hget⟩ := List.getElem?_eq_some_iff.mp hc
    have hcut : l = l.take i ++ c :: l.drop (i + 1) := by
      rw [← hget, List.getElem_cons_drop, List.take_append_drop]
    have hnewline : '\n' ∉ l.take i := fun hmem => h.not_mem (List.mem_of_mem_take hmem)
    refine ⟨above ++ l.take i, l.drop (i + 1) ++ below, ?_, ⟨?_, ?_⟩, ?_, ?_⟩
    · calc s = above ++ (l ++ below) := h.eq
        _ = above ++ (l.take i ++ c :: l.drop (i + 1) ++ below) := by rw [← hcut]
        _ = _ := by simp
    · rintro rfl
      exact h.not_mem (List.mem_of_getElem? hc)
    · rintro ⟨hr, hhead⟩
      refine hnot ⟨hr, ?_, ?_⟩
      · by_contra hne
        have hne' : l.drop (i + 1) ≠ [] := by simp; omega
        rw [List.head?_append_of_ne_nil _ hne'] at hhead
        exact h.not_mem (List.mem_of_mem_drop (List.mem_of_head? hhead))
      · rintro rfl
        rw [List.append_nil] at hhead
        exact h.not_mem (List.mem_of_mem_drop (List.mem_of_head? hhead))
    · rw [List.count_append, h.count, List.count_eq_zero.mpr hnewline, Nat.add_zero]
    · rw [lastLine_append h.ends hnewline, List.length_take]
      omega
  · rintro ⟨before, after, hs, ⟨hc, hshown⟩, rfl, rfl⟩
    obtain ⟨above, tail, below, -, rfl, h⟩ := isLine_of_char hs hc
    have hget : (lastLine before ++ c :: tail)[(lastLine before).length]? = some c := by simp
    rw [h.getElem?_displayLines]
    rcases h.below with rfl | ⟨rest, rfl⟩
    · exact ⟨_, by simp, hget⟩
    · refine ⟨_, by simp, (getElem?_dropCarriageReturn _ _ c).mpr ⟨hget, ?_⟩⟩
      rintro ⟨hr, hlast⟩
      have htail : tail = [] := by simpa using hlast
      exact hshown ⟨hr, by simp [htail]⟩

end Retrace.Text
