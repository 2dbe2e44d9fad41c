import Retrace.Proofs.Parts
import Retrace.Text.Bytes

/-!
# Positions and lines of text

A byte position is the size of a prefix, so statements about positions are statements about ways to
write a text as `before ++ after`. A line is spoken of in the same way: `before` ends with its
`lastLine`, the part behind its last newline.

* `splitAt?_append`, `isBoundary_iff`, `slice?_append`: cuts of a text that is given in parts.
* `exists_eq_append`, `byteSize_le_iff_prefix`: of two ways to cut a text, the shorter start is a start
  of the longer one.
* `newlinesBefore`: how many newlines end at or before a byte offset, which may lie inside a
  character or beyond the end.
-/

namespace Retrace.Text

/-! ## Byte positions -/

theorem eq_nil_of_byteSize {s : List Char} (h : byteSize s = 0) : s = [] := by
  cases s with
  | nil => rfl
  | cons c s =>
    have := c.utf8Size_pos
    rw [byteSize] at h
    omega

theorem byteSize_toList (s : String) : byteSize s.toList = s.utf8ByteSize := by
  have hofList : ∀ cs : List Char, byteSize cs = (String.ofList cs).utf8ByteSize := by
    intro cs
    induction cs with
    | nil => rfl
    | cons c cs ih =>
      rw [byteSize, String.ofList_cons, String.utf8ByteSize_append, String.utf8ByteSize_singleton,
        ih]
  rw [hofList, String.ofList_toList]

theorem splitAt?_cons {c : Char} {n : Nat} (h : c.utf8Size ≤ n) (s : List Char) :
    splitAt? n (c :: s) = (splitAt? (n - c.utf8Size) s).map (Prod.map (c :: ·) id) := by
  obtain ⟨k, rfl⟩ : ∃ k, n = k + 1 := ⟨n - 1, by have := c.utf8Size_pos; omega⟩
  rw [splitAt?, if_pos h]
  rfl

theorem splitAt?_append (s t : List Char) (n : Nat) :
    splitAt? (byteSize s + n) (s ++ t) = (splitAt? n t).map (Prod.map (s ++ ·) id) := by
  induction s with
  | nil =>
    rw [byteSize, Nat.zero_add, List.nil_append]
    cases splitAt? n t <;> rfl
  | cons c s ih =>
    have hrest : byteSize (c :: s) + n - c.utf8Size = byteSize s + n := by rw [byteSize]; omega
    rw [List.cons_append, splitAt?_cons (by rw [byteSize]; omega), hrest, ih]
    cases splitAt? n t <;> rfl

theorem isBoundary_append (s t : List Char) (n : Nat) :
    isBoundary (s ++ t) (byteSize s + n) = isBoundary t n := by
  unfold isBoundary
  rw [splitAt?_append, Option.isSome_map]

/-- A position is a boundary exactly when it is the size of a prefix. -/
theorem isBoundary_iff {s : List Char} {n : Nat} :
    isBoundary s n = true ↔ ∃ before after, s = before ++ after ∧ byteSize before = n := by
  constructor
  · intro h
    obtain ⟨⟨before, after⟩, hs⟩ := Option.isSome_iff_exists.mp h
    obtain ⟨h1, h2⟩ := append_of_splitAt? hs
    exact ⟨before, after, h1.symm, h2⟩
  · rintro ⟨before, after, rfl, rfl⟩
    unfold isBoundary
    rw [splitAt?_byteSize]
    rfl

theorem slice?_append (s t u : List Char) :
    slice? (byteSize s) (byteSize s + byteSize t) (s ++ (t ++ u)) = some t := by
  have hle : ¬ byteSize s + byteSize t < byteSize s := by omega
  unfold slice? takeBytes?
  simp [hle, splitAt?_byteSize]

/-- Of two ways to cut a text, the shorter start is a start of the longer one. -/
theorem exists_eq_append {s t u v : List Char} (h : s ++ t = u ++ v)
    (hle : byteSize s ≤ byteSize u) : ∃ m, u = s ++ m ∧ t = m ++ v := by
  rcases List.append_eq_append_iff.mp h with ⟨m, hu, ht⟩ | ⟨m, hs, hv⟩
  · exact ⟨m, hu, ht⟩
  · have hm : m = [] := by
      rw [hs, byteSize_append] at hle
      exact eq_nil_of_byteSize (by omega)
    subst hm
    exact ⟨[], by simpa using hs.symm, by simpa using hv.symm⟩

theorem byteSize_le_iff_prefix {s t u v : List Char} (h : s ++ t = u ++ v) :
    byteSize s ≤ byteSize u ↔ s <+: u := by
  constructor
  · intro hle
    obtain ⟨m, hm, -⟩ := exists_eq_append h hle
    exact ⟨m, hm.symm⟩
  · rintro ⟨m, rfl⟩
    rw [byteSize_append]
    omega

theorem length_le_iff_prefix {s t u v : List Char} (h : s ++ t = u ++ v) :
    s.length ≤ u.length ↔ s <+: u :=
  ⟨List.prefix_of_prefix_length_le (List.prefix_append s t) (h ▸ List.prefix_append u v),
    List.IsPrefix.length_le⟩

/-! ## Lines -/

theorem splitAtNewline_ne_nil (s : List Char) : splitAtNewline s ≠ [] := splitAtChar_ne_nil '\n' s

theorem splitAtNewline_newline (s : List Char) :
    splitAtNewline ('\n' :: s) = [] :: splitAtNewline s := by
  simp [splitAtNewline, splitAtChar]

theorem splitAtNewline_cons {c : Char} (hc : c ≠ '\n') (s : List Char) :
    ∃ line lines, splitAtNewline s = line :: lines ∧
      splitAtNewline (c :: s) = (c :: line) :: lines :=
  exists_splitAtChar_cons hc s

theorem length_splitAtNewline (s : List Char) :
    (splitAtNewline s).length = s.count '\n' + 1 :=
  length_splitAtChar '\n' s

/-- The part of a text behind its last newline. -/
def lastLine : List Char → List Char
  | [] => []
  | c :: rest => if '\n' ∈ c :: rest then lastLine rest else c :: rest

theorem lastLine_of_not_mem {s : List Char} (h : '\n' ∉ s) : lastLine s = s := by
  cases s with
  | nil => rfl
  | cons c s => rw [lastLine, if_neg h]

/-- A text that ends where a line begins. -/
def EndsLine (s : List Char) : Prop := s = [] ∨ ∃ init, s = init ++ ['\n']

theorem newline_not_mem_lastLine (s : List Char) : '\n' ∉ lastLine s := by
  induction s with
  | nil => simp [lastLine]
  | cons c s ih =>
    unfold lastLine
    split
    · exact ih
    · assumption

/-- A text is what lies above its last line, and that line. -/
theorem exists_above (s : List Char) : ∃ above, EndsLine above ∧ s = above ++ lastLine s := by
  induction s with
  | nil => exact ⟨[], Or.inl rfl, rfl⟩
  | cons c s ih =>
    obtain ⟨above, hends, hs⟩ := ih
    unfold lastLine
    split
    · rename_i hmem
      refine ⟨c :: above, Or.inr ?_, by rw [List.cons_append, ← hs]⟩
      rcases hends with rfl | ⟨init, rfl⟩
      · -- the rest is one line, so the newline is `c` itself
        have hc : c = '\n' := by
          rcases List.mem_cons.mp hmem with h | h
          · exact h.symm
          · rw [hs, List.nil_append] at h
            exact absurd h (newline_not_mem_lastLine s)
        exact ⟨[], by rw [hc]; rfl⟩
      · exact ⟨c :: init, rfl⟩
    · exact ⟨[], Or.inl rfl, rfl⟩

/-- The number of newlines that end at or before a byte offset. -/
def newlinesBefore : Nat → List Char → Nat
  | 0, _ => 0
  | _ + 1, [] => 0
  | offset + 1, c :: rest =>
    (if c = '\n' then 1 else 0) + newlinesBefore (offset + 1 - c.utf8Size) rest

theorem newlinesBefore_zero (s : List Char) : newlinesBefore 0 s = 0 := by
  unfold newlinesBefore
  rfl

theorem newlinesBefore_cons {n : Nat} (h : 0 < n) (c : Char) (s : List Char) :
    newlinesBefore n (c :: s) =
      (if c = '\n' then 1 else 0) + newlinesBefore (n - c.utf8Size) s := by
  obtain ⟨k, rfl⟩ : ∃ k, n = k + 1 := ⟨n - 1, by omega⟩
  rw [newlinesBefore]

theorem newlinesBefore_append (s t : List Char) :
    newlinesBefore (byteSize s) (s ++ t) = s.count '\n' := by
  induction s with
  | nil => exact newlinesBefore_zero t
  | cons c s ih =>
    have hc := c.utf8Size_pos
    have hrest : byteSize (c :: s) - c.utf8Size = byteSize s := by rw [byteSize]; omega
    rw [List.cons_append, newlinesBefore_cons (by rw [byteSize]; omega), hrest, ih,
      List.count_cons]
    by_cases h : c = '\n'
    · simp [h, Nat.add_comm]
    · simp [h]

end Retrace.Text
