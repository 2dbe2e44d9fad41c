/-!
# Byte positions in text

A text is a list of characters; a position in it is the UTF-8 length of a prefix. A number that is
not the length of a prefix lies inside a character or beyond the end, and no cut is made there.

* `byteSize`: the length of a text in bytes.
* `splitAt?`: the text before and after a position, exactly when the position is one.
* `slice?`: the text between two positions.
-/

namespace Retrace.Text

/-- The length of a text in bytes. -/
def byteSize : List Char → Nat
  | [] => 0
  | c :: rest => c.utf8Size + byteSize rest

/-- The text before and after a byte position, or nothing when no character starts or ends there. -/
def splitAt? : Nat → List Char → Option (List Char × List Char)
  | 0, s => some ([], s)
  | _ + 1, [] => none
  | n + 1, c :: rest =>
    if c.utf8Size ≤ n + 1 then
      (splitAt? (n + 1 - c.utf8Size) rest).map fun (before, after) => (c :: before, after)
    else none

/-- Whether a byte position lies between two characters or at an end of the text. -/
def isBoundary (s : List Char) (n : Nat) : Bool := (splitAt? n s).isSome

/-- The text before a byte position. -/
def takeBytes? (n : Nat) (s : List Char) : Option (List Char) := (splitAt? n s).map Prod.fst

/-- The text between two byte positions. -/
def slice? (start stop : Nat) (s : List Char) : Option (List Char) := do
  if stop < start then none
  let (_, tail) ← splitAt? start s
  takeBytes? (stop - start) tail

theorem byteSize_append (s t : List Char) : byteSize (s ++ t) = byteSize s + byteSize t := by
  induction s with
  | nil => simp [byteSize]
  | cons c s ih => simp [byteSize, ih, Nat.add_assoc]

theorem append_of_splitAt? {n : Nat} {s before after : List Char}
    (h : splitAt? n s = some (before, after)) : before ++ after = s ∧ byteSize before = n := by
  fun_induction splitAt? n s generalizing before after with
  | case1 s => simp at h; obtain ⟨rfl, rfl⟩ := h; exact ⟨rfl, rfl⟩
  | case2 n => simp at h
  | case3 n c rest hle ih =>
    simp only [Option.map_eq_some_iff, Prod.mk.injEq, Prod.exists] at h
    obtain ⟨b, a, hs, rfl, rfl⟩ := h
    obtain ⟨h1, h2⟩ := ih hs
    simp only [List.cons_append, h1, byteSize, h2, true_and]
    omega
  | case4 n c rest hlt => simp at h

theorem splitAt?_byteSize (s t : List Char) : splitAt? (byteSize s) (s ++ t) = some (s, t) := by
  induction s with
  | nil => simp [byteSize, splitAt?]
  | cons c s ih =>
    have hc : 0 < c.utf8Size := Char.utf8Size_pos c
    obtain ⟨k, hk⟩ : ∃ k, byteSize (c :: s) = k + 1 :=
      ⟨byteSize (c :: s) - 1, by simp [byteSize]; omega⟩
    have hs : k + 1 - c.utf8Size = byteSize s := by rw [← hk, byteSize]; omega
    have hle : c.utf8Size ≤ k + 1 := by rw [← hk, byteSize]; omega
    rw [hk, List.cons_append, splitAt?, if_pos hle, hs, ih]
    rfl

end Retrace.Text
