import Retrace.Proofs.TypeTokens
import Retrace.Value.Format
import Retrace.Value.Payload

/-!
# Spellings of a type

Qualifiers say nothing about a value, so two spellings with the same tokens but for qualifiers should be
treated alike.

Types are classified by the words between the blanks, not by tokens. The two readings agree but in two
places. A qualifier that stands directly behind the last asterisk hides it (`int *const` is no pointer,
`int * const` is one), and the mark of a pointer to a function counts only when its three characters stand
together.

* `Ending`: how the last word that is no qualifier ends, by the last token that is none.
* `classify_eq_pointer_iff`, `classify_of_ne_pointer`: the class by the tokens.
* `spellings_spec`: which spellings of one type are treated alike.
-/

namespace Retrace.CType

open Text

/-! ## The end of a type -/

/-- How the last word that is no qualifier ends, by the last token that is none. A qualifier directly
behind an asterisk ends the word in place of it. -/
inductive Ending : Option (List Char) → Option Token → Prop
  | none : Ending none none
  | star (a : List Char) : Ending (some (a ++ ['*'])) (some .star)
  | hidden (a q : List Char) (hq : isQualifier q = true) :
      Ending (some (a ++ '*' :: q)) (some .star)
  | word (a u : List Char) (hu : IsWord u) : Ending (some (a ++ u)) (some (.word u))

theorem Ending.exists_token {w : List Char} {k : Option Token} (h : Ending (some w) k) :
    ∃ t, k = some t := by
  cases h with
  | star => exact ⟨_, rfl⟩
  | hidden => exact ⟨_, rfl⟩
  | word => exact ⟨_, rfl⟩

/-- The end of a word that is no qualifier. -/
theorem IsGroup.ending {g : List Token} (hg : IsGroup g) (h : isQualifier (groupText g) = false) :
    Ending (some (groupText g)) (kept g).getLast? := by
  obtain ⟨before, last, rfl⟩ := List.eq_nil_or_concat' g |>.resolve_left hg.ne_nil
  cases last with
  | star =>
    have := Ending.star (groupText before)
    simpa [groupText, Token.text, kept, Token.isQualifier] using this
  | word u =>
    cases hu : isQualifier u with
    | false =>
      have := Ending.word (groupText before) u (hg.isWord u (by simp))
      simpa [groupText, Token.text, kept, Token.isQualifier, hu] using this
    | true =>
      obtain rfl | ⟨before, b, rfl⟩ := List.eq_nil_or_concat' before
      · simp [groupText, Token.text, hu] at h
      · -- the neighbour of a word in its group is an asterisk
        have hb : b = .star := by
          have := (List.isChain_append.mp hg.chain).2.2 b (by simp) (.word u) (by simp)
          simpa using this
        subst hb
        have := Ending.hidden (groupText before) u hu
        simpa [groupText, Token.text, kept, Token.isQualifier, hu] using this

/-- **The end of a type.** -/
theorem ending_of_groups {groups : List (List Token)} (h : ∀ g ∈ groups, IsGroup g) :
    Ending ((groups.map groupText).filter fun w => !isQualifier w).getLast?
      (kept groups.flatten).getLast? := by
  induction groups using List.reverseRecOn with
  | nil => exact .none
  | append_singleton groups g ih =>
    have hg : IsGroup g := h g (by simp)
    have hgroups := ih fun g hmem => h g (by simp [hmem])
    rw [List.flatten_append, List.flatten_singleton, kept_append]
    cases hq : isQualifier (groupText g) with
    | true =>
      -- a word that is a qualifier leaves the end where it was
      have hkept : kept g = [] := by
        rw [hg.eq_qualifier hq]
        simp [kept, Token.isQualifier, hq]
      simpa [hq, hkept] using hgroups
    | false =>
      have hend := hg.ending hq
      obtain ⟨t, ht⟩ := hend.exists_token
      rw [ht] at hend
      simpa [hq, ht] using hend

/-! ## Classes by tokens -/

/-- The mark of a pointer to a function or an array stands in a text. -/
def HasMark (s : List Char) : Prop := ['(', '*', ')'] <:+: s

/-- The last word that is no qualifier ends in one all the same, directly behind an asterisk. -/
def HidesStar (s : List Char) : Prop :=
  ∃ a q, (words s).getLast? = some (a ++ '*' :: q) ∧ isQualifier q = true

/-- What makes a type a pointer or an array: its last token, which has to be seen when it is an asterisk,
or the mark. -/
def IsPointerSpelling (s : List Char) (ts : List Token) : Prop :=
  ((kept ts).getLast? = some .star ∧ ¬ HidesStar s) ∨
    (∃ u, (kept ts).getLast? = some (.word u) ∧ u.getLast? = some ']') ∨ HasMark s

theorem hasPointerMark_iff {w : List Char} : hasPointerMark w = true ↔ HasMark w := by
  induction w with
  | nil => simp [hasPointerMark, HasMark]
  | cons c w ih =>
    unfold HasMark at ih ⊢
    rw [hasPointerMark, Bool.or_eq_true, ih, List.infix_cons_iff, List.isPrefixOf_iff_prefix]
    rfl

/-- The mark stands in a text when it stands in a word that is no qualifier. -/
theorem any_hasPointerMark_words (s : List Char) :
    (words s).any hasPointerMark = true ↔ HasMark s := by
  have hiff : HasMark s ↔ ∃ w ∈ Text.words s, HasMark w :=
    infix_iff_exists_words (by simp) (by simp [isBlank]) s
  simp only [List.any_eq_true, hasPointerMark_iff, hiff, words, List.mem_filter]
  refine exists_congr fun w => and_congr_left fun hmark => and_iff_left ?_
  by_contra hq
  have hopen : '(' ∈ w := hmark.subset (by simp)
  exact (forall_mem_of_isQualifier (by simpa using hq) '(' hopen).2.2 rfl

/-- The last character of a word that ends in a qualifier. -/
theorem getLast?_append_qualifier {q : List Char} (hq : isQualifier q = true) (a : List Char) :
    ∃ c ∈ q, (a ++ '*' :: q).getLast? = some c := by
  obtain ⟨r, c, rfl⟩ := List.eq_nil_or_concat' q |>.resolve_left (ne_nil_of_isQualifier hq)
  refine ⟨c, by simp, ?_⟩
  have hsplit : a ++ '*' :: (r ++ [c]) = (a ++ '*' :: r) ++ [c] := by simp
  rw [hsplit, List.getLast?_concat]

theorem getLast?_append_qualifier_ne {q : List Char} (hq : isQualifier q = true) (a : List Char) :
    (a ++ '*' :: q).getLast? ≠ some '*' := by
  obtain ⟨c, hmem, hlast⟩ := getLast?_append_qualifier hq a
  rw [hlast]
  rintro ⟨rfl⟩
  exact (forall_mem_of_isQualifier hq '*' hmem).1 rfl

theorem not_hidesStar {s : List Char} (h : (words s).getLast?.bind List.getLast? = some '*') :
    ¬ HidesStar s := by
  rintro ⟨a, q, hlast, hq⟩
  rw [hlast] at h
  exact getLast?_append_qualifier_ne hq a h

/-- Whether a type ends as a pointer or an array does, by its last token. -/
theorem Ending.pointer_iff {w : Option (List Char)} {k : Option Token} (h : Ending w k) :
    (∃ c, w.bind List.getLast? = some c ∧ (c = '*' ∨ c = ']')) ↔
      (k = some .star ∧ ¬ ∃ a q, w = some (a ++ '*' :: q) ∧ isQualifier q = true) ∨
        ∃ u, k = some (.word u) ∧ u.getLast? = some ']' := by
  cases h with
  | none => simp
  | star a =>
    refine iff_of_true ⟨'*', by simp, Or.inl rfl⟩ (Or.inl ⟨rfl, ?_⟩)
    rintro ⟨b, q, heq, hq⟩
    have hlast := Option.some.inj heq ▸ List.getLast?_concat
    exact getLast?_append_qualifier_ne hq b hlast
  | hidden a q hq =>
    obtain ⟨c, hmem, hlast⟩ := getLast?_append_qualifier hq a
    have hc := forall_mem_of_isQualifier hq c hmem
    refine iff_of_false ?_ ?_
    · simp [hlast, hc]
    · rintro (⟨-, hnot⟩ | ⟨u, hu, -⟩)
      · exact hnot ⟨a, q, rfl, hq⟩
      · cases hu
  | word a u hu =>
    obtain ⟨v, c, rfl⟩ := List.eq_nil_or_concat' u |>.resolve_left hu.1
    have hc := (hu.2 c (by simp)).2
    simp [hc]

theorem isPointer_iff (ws : List (List Char)) : isPointer ws = true ↔
    (∃ c, ws.getLast?.bind List.getLast? = some c ∧ (c = '*' ∨ c = ']')) ∨
      ws.any hasPointerMark = true := by
  unfold isPointer
  rw [Bool.or_eq_true]
  refine or_congr_left ?_
  cases ws.getLast?.bind List.getLast? <;> simp

theorem arithmeticClass_ne_pointer (ws : List String) : arithmeticClass ws ≠ .pointer := by
  unfold arithmeticClass
  split <;> exact nofun

/-- No type with an asterisk in it is arithmetic. -/
theorem arithmeticClass_of_star {ws : List String} (h : ∃ w ∈ ws, '*' ∈ w.toList) :
    arithmeticClass ws = .other := by
  unfold arithmeticClass
  split
  all_goals first
    | rfl
    | exact absurd h (by decide)

variable {ts us : List Token} {s t : String}

theorem classify_eq_ite (s : String) : classify s =
    if isPointer (words s.toList) = true then .pointer
    else arithmeticClass ((words s.toList).map String.ofList) := rfl

theorem isPointer_of_classify : classify s = .pointer ↔ isPointer (words s.toList) = true := by
  rw [classify_eq_ite]
  split
  · next h => simp [h]
  · next h => simp [h, arithmeticClass_ne_pointer]

/-- **A type is a pointer or an array by its last token or by the mark.** -/
theorem classify_eq_pointer_iff (h : Spells ts s.toList) :
    classify s = .pointer ↔ IsPointerSpelling s.toList ts := by
  obtain ⟨groups, rfl, hwords, hgroups⟩ := h.exists_groups
  have hend := (ending_of_groups hgroups).pointer_iff
  have hkeptWords : words s.toList = (groups.map groupText).filter fun w => !isQualifier w := by
    rw [words, hwords]
  rw [isPointer_of_classify, isPointer_iff, any_hasPointerMark_words, IsPointerSpelling, HidesStar,
    ← or_assoc]
  exact or_congr_left (hkeptWords ▸ hend)

theorem filter_groupText_of_not_mem {groups : List (List Token)} (h : ∀ g ∈ groups, IsGroup g)
    (hstar : .star ∉ groups.flatten) :
    ((groups.map groupText).filter fun w => !isQualifier w) =
      (kept groups.flatten).map Token.text := by
  induction groups with
  | nil => rfl
  | cons g groups ih =>
    obtain ⟨hg, hgroups⟩ := List.forall_mem_cons.mp h
    rw [List.flatten_cons, List.mem_append, not_or] at hstar
    obtain ⟨u, rfl⟩ := hg.eq_singleton hstar.1
    rw [List.flatten_cons, kept_append, List.map_append, ← ih hgroups hstar.2]
    cases hu : isQualifier u <;>
      simp [groupText, Token.text, kept, Token.isQualifier, hu]

/-- **Any other type has the class of its tokens.** -/
theorem classify_of_ne_pointer (h : Spells ts s.toList) (hne : classify s ≠ .pointer) :
    classify s = arithmeticClass ((kept ts).map fun t => String.ofList t.text) := by
  have hclass : classify s = arithmeticClass ((words s.toList).map String.ofList) := by
    rw [classify_eq_ite, if_neg fun hpointer => hne (isPointer_of_classify.mpr hpointer)]
  obtain ⟨groups, rfl, hwords, hgroups⟩ := h.exists_groups
  by_cases hstar : .star ∈ groups.flatten
  · obtain ⟨g, hg, hmem⟩ := List.mem_flatten.mp hstar
    have hword : groupText g ∈ words s.toList := by
      refine List.mem_filter.mpr ⟨hwords ▸ List.mem_map_of_mem hg, ?_⟩
      by_contra hq
      have hqualifier : isQualifier (groupText g) = true := by simpa using hq
      exact (forall_mem_of_isQualifier hqualifier '*' (star_mem_groupText hmem)).1 rfl
    rw [hclass, arithmeticClass_of_star, arithmeticClass_of_star]
    · exact ⟨_, List.mem_map_of_mem (star_mem_kept_iff.mpr hstar), by simp [Token.text]⟩
    · exact ⟨_, List.mem_map_of_mem hword, by simpa using star_mem_groupText hmem⟩
  · rw [hclass, words, hwords, filter_groupText_of_not_mem hgroups hstar, List.map_map]
    rfl

/-! ## Types that are treated alike -/

theorem decode_congr (h : classify s = classify t) (payload : List UInt8) :
    (Payload.decode s payload).toOption = (Payload.decode t payload).toOption := by
  have htake (width : Nat) (f : List UInt8 → Value) :
      ((Payload.take s payload width).map f).toOption =
        ((Payload.take t payload width).map f).toOption := by
    unfold Payload.take
    split <;> rfl
  unfold Payload.decode
  rw [h]
  cases classify t <;> first | exact htake _ _ | rfl

theorem format_congr (h : classify s = classify t) (v : Value) : v.format s = v.format t := by
  rw [Value.format, h, Value.format]

/-- Two spellings with the same tokens but for qualifiers are of one class when both are told to be
pointers or neither is. -/
theorem classify_eq_iff (hs : Spells ts s.toList) (ht : Spells us t.toList)
    (hkept : kept ts = kept us) : classify s = classify t ↔
      (IsPointerSpelling s.toList ts ↔ IsPointerSpelling t.toList us) := by
  rw [← classify_eq_pointer_iff hs, ← classify_eq_pointer_iff ht]
  refine ⟨fun h => by rw [h], fun h => ?_⟩
  by_cases hpointer : classify s = .pointer
  · rw [hpointer, h.mp hpointer]
  · rw [classify_of_ne_pointer hs hpointer, hkept,
      classify_of_ne_pointer ht fun htp => hpointer (h.mpr htp)]

theorem HasMark.star_mem (hs : Spells ts s.toList) (h : HasMark s.toList) : .star ∈ ts :=
  hs.star_mem (h.subset (by simp))

/-- A pointer without a bracket at its end has an asterisk. -/
theorem IsPointerSpelling.star_mem (hs : Spells ts s.toList) (h : IsPointerSpelling s.toList ts)
    (hend : ∀ u, (kept ts).getLast? = some (.word u) → u.getLast? ≠ some ']') : .star ∈ ts := by
  rcases h with ⟨hlast, -⟩ | ⟨u, hu, hbracket⟩ | hmark
  · exact star_mem_kept_iff.mp (List.mem_of_getLast? hlast)
  · exact absurd hbracket (hend u hu)
  · exact hmark.star_mem hs

/-- Of two spellings of one type that are not treated alike, one is no arithmetic type. -/
theorem classify_eq_other_of_ne (hs : Spells ts s.toList) (ht : Spells us t.toList)
    (hkept : kept ts = kept us) (hpointer : classify s = .pointer) (hne : classify t ≠ .pointer) :
    classify t = .other := by
  have hspelling := (classify_eq_pointer_iff hs).mp hpointer
  have hstar : .star ∈ ts := hspelling.star_mem hs fun u hu hbracket =>
    hne ((classify_eq_pointer_iff ht).mpr (Or.inr (Or.inl ⟨u, hkept ▸ hu, hbracket⟩)))
  rw [classify_of_ne_pointer ht hne, ← hkept]
  exact arithmeticClass_of_star ⟨_, List.mem_map_of_mem (star_mem_kept_iff.mpr hstar), by simp [Token.text]⟩

/-- **Spellings of one type.** Take two spellings with the same tokens but for qualifiers. They are
treated alike exactly when both are told to be pointers or neither is; so they are if in neither a
qualifier directly behind the last asterisk hides it and the mark stands together in both or in neither,
and if there is no asterisk. Where they are not treated alike, one is a pointer and the other a type that
has no values. -/
theorem spellings_spec (hs : Spells ts s.toList) (ht : Spells us t.toList)
    (hkept : kept ts = kept us) :
    (classify s = classify t ↔
      (IsPointerSpelling s.toList ts ↔ IsPointerSpelling t.toList us)) ∧
    (¬ HidesStar s.toList → ¬ HidesStar t.toList → (HasMark s.toList ↔ HasMark t.toList) →
      classify s = classify t) ∧
    (.star ∉ ts → classify s = classify t) ∧
    (classify s = classify t →
      (∀ payload, (Payload.decode s payload).toOption = (Payload.decode t payload).toOption) ∧
      ∀ v : Value, v.format s = v.format t) ∧
    (classify s ≠ classify t →
      classify s = .pointer ∧ classify t = .other ∨
        classify s = .other ∧ classify t = .pointer) := by
  have hiff := classify_eq_iff hs ht hkept
  refine ⟨hiff, fun hseen hseen' hmark => ?_, fun hstar => ?_,
    fun h => ⟨decode_congr h, format_congr h⟩, fun hne => ?_⟩
  · simp [hiff, IsPointerSpelling, hkept, hseen, hseen', hmark]
  · have hstar' : .star ∉ us := by
      rwa [← star_mem_kept_iff, ← hkept, star_mem_kept_iff]
    have hlast : (kept us).getLast? ≠ some .star := fun h =>
      hstar' (star_mem_kept_iff.mp (List.mem_of_getLast? h))
    have hmark : ¬ HasMark s.toList := fun h => hstar (h.star_mem hs)
    have hmark' : ¬ HasMark t.toList := fun h => hstar' (h.star_mem ht)
    simp [hiff, IsPointerSpelling, hkept, hlast, hmark, hmark']
  · by_cases hpointer : classify s = .pointer
    · have hne' : classify t ≠ .pointer := fun h => hne (hpointer.trans h.symm)
      exact Or.inl ⟨hpointer, classify_eq_other_of_ne hs ht hkept hpointer hne'⟩
    · by_cases hpointer' : classify t = .pointer
      · exact Or.inr ⟨classify_eq_other_of_ne ht hs hkept.symm hpointer' hpointer, hpointer'⟩
      · exact absurd (hiff.mpr (by
          rw [← classify_eq_pointer_iff hs, ← classify_eq_pointer_iff ht]
          exact iff_of_false hpointer hpointer')) hne

/-- Qualifiers at other places, and other blanks. -/
theorem spellings_qualifiedPointer :
    Spells [.word "volatile".toList, .word "char".toList, .star] "volatile char*".toList ∧
    Spells [.word "char".toList, .word "const".toList, .star, .word "restrict".toList]
      "char  const* restrict".toList ∧
    ¬ HidesStar "volatile char*".toList ∧ ¬ HidesStar "char  const* restrict".toList ∧
    classify "volatile char*" = classify "char  const* restrict" := by
  have hs : Spells [.word "volatile".toList, .word "char".toList, .star]
      "volatile char*".toList := spells_iff.mpr (by decide +kernel)
  have ht : Spells [.word "char".toList, .word "const".toList, .star, .word "restrict".toList]
      "char  const* restrict".toList := spells_iff.mpr (by decide +kernel)
  have hseen : ¬ HidesStar "volatile char*".toList := not_hidesStar (by decide +kernel)
  have hseen' : ¬ HidesStar "char  const* restrict".toList := not_hidesStar (by decide +kernel)
  have hmark : HasMark "volatile char*".toList ↔ HasMark "char  const* restrict".toList := by
    unfold HasMark
    decide +kernel
  exact ⟨hs, ht, hseen, hseen', (spellings_spec hs ht (by decide +kernel)).2.1 hseen hseen' hmark⟩

/-- A qualifier directly behind the asterisk changes how a pointer is treated. -/
theorem spellings_hiddenPointer :
    Spells [.word "int".toList, .star] "int *".toList ∧
    Spells [.word "int".toList, .star, .word "const".toList] "int *const".toList ∧
    kept [.word "int".toList, .star] = kept [.word "int".toList, .star, .word "const".toList] ∧
    classify "int *" = .pointer ∧ classify "int *const" = .other ∧
    Payload.decode "int *" [0, 16, 0, 0] = .ok (.pointer 4096 []) ∧
    Payload.decode "int *const" [0, 16, 0, 0] = .error (.unsupportedType "int *const") := by
  simp only [spells_iff]
  decide +kernel

end Retrace.CType
