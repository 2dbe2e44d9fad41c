import Mathlib.Data.List.Chain
import Retrace.CType
import Retrace.Proofs.Words

/-!
# The tokens of a type

A C type is a row of tokens, words and asterisks; between them stands white space, which two words need
and an asterisk does not. A word between blanks is then a group of tokens, and no two words stand side by
side in it.

* `Spells`: the tokens that a text spells; `spells_iff`: they are the ones that `tokens` finds.
* `Spells.exists_groups`: the words of a text hold its tokens in groups.
* `IsGroup.eq_qualifier`: a qualifier that is a word of the text is a group of its own.
-/

namespace Retrace.CType

open Text

/-! ## Tokens -/

/-- A token of a type: a word or an asterisk. -/
inductive Token where
  | word (text : List Char)
  | star
  deriving DecidableEq

namespace Token

/-- The characters of a token. -/
def text : Token → List Char
  | word u => u
  | star => ['*']

/-- Whether a token is a qualifier. -/
def isQualifier : Token → Bool
  | word u => CType.isQualifier u
  | star => false

end Token

/-- The tokens of a type that are no qualifiers. -/
def kept (ts : List Token) : List Token := ts.filter fun t => !t.isQualifier

theorem kept_append (ts us : List Token) : kept (ts ++ us) = kept ts ++ kept us :=
  List.filter_append ..

theorem star_mem_kept_iff {ts : List Token} : .star ∈ kept ts ↔ .star ∈ ts := by
  simp [kept, Token.isQualifier]

/-- A word without blanks and asterisks. -/
def IsWord (u : List Char) : Prop := u ≠ [] ∧ ∀ c ∈ u, isBlank c = false ∧ c ≠ '*'

/-- A text spells tokens: blanks may stand anywhere between them, and where a word ends there is a blank,
an asterisk or the end. -/
inductive Spells : List Token → List Char → Prop
  | nil : Spells [] []
  | blank {ts : List Token} {s : List Char} {c : Char} (hc : isBlank c = true) (h : Spells ts s) :
      Spells ts (c :: s)
  | star {ts : List Token} {s : List Char} (h : Spells ts s) : Spells (.star :: ts) ('*' :: s)
  | word {ts : List Token} {s u : List Char} (hu : IsWord u)
      (hend : ∀ c ∈ s.head?, isBlank c = true ∨ c = '*') (h : Spells ts s) :
      Spells (.word u :: ts) (u ++ s)

/-- Whether a text begins with a word. -/
def beginsWord (s : List Char) : Bool := s.head?.any fun c => !isBlank c && c != '*'

/-- A character in front of tokens, as part of the first one when that is a word and not set apart. -/
def glue (c : Char) : Bool → List Token → List Token
  | true, .word u :: ts => .word (c :: u) :: ts
  | _, ts => .word [c] :: ts

/-- The tokens of a text. -/
def tokens : List Char → List Token
  | [] => []
  | c :: s =>
    if isBlank c then tokens s
    else if c = '*' then .star :: tokens s
    else glue c (beginsWord s) (tokens s)

theorem beginsWord_eq_false_iff {s : List Char} :
    beginsWord s = false ↔ ∀ c ∈ s.head?, isBlank c = true ∨ c = '*' := by
  cases s with
  | nil => simp [beginsWord]
  | cons c s => cases hc : isBlank c <;> simp [beginsWord, hc]

theorem tokens_append {u s : List Char} (hu : IsWord u)
    (hend : ∀ c ∈ s.head?, isBlank c = true ∨ c = '*') :
    tokens (u ++ s) = .word u :: tokens s := by
  obtain ⟨hne, hu⟩ := hu
  induction u with
  | nil => exact absurd rfl hne
  | cons c u ih =>
    obtain ⟨⟨hblank, hstar⟩, hu⟩ := List.forall_mem_cons.mp hu
    cases u with
    | nil =>
      simp [tokens, hblank, hstar, glue, beginsWord_eq_false_iff.mpr hend]
    | cons d u =>
      have hd := hu d List.mem_cons_self
      have hbegins : beginsWord (d :: u ++ s) = true := by simp [beginsWord, hd]
      rw [List.cons_append, tokens, ih (List.cons_ne_nil d u) hu, hbegins]
      simp [hblank, hstar, glue]

theorem spells_tokens (s : List Char) : Spells (tokens s) s := by
  induction s with
  | nil => exact .nil
  | cons c s ih =>
    by_cases hblank : isBlank c = true
    · simpa [tokens, hblank] using Spells.blank hblank ih
    by_cases hstar : c = '*'
    · subst hstar
      simpa [tokens, hblank] using Spells.star ih
    have hc : isBlank c = false ∧ c ≠ '*' := ⟨by simpa using hblank, hstar⟩
    cases hbegins : beginsWord s with
    | false =>
      have hword : IsWord [c] := ⟨by simp, by simpa using hc⟩
      simpa [tokens, hc, hbegins, glue] using
        Spells.word hword (beginsWord_eq_false_iff.mp hbegins) ih
    | true =>
      -- the character goes to the word behind it
      generalize htokens : tokens s = ts at ih
      cases ih with
      | nil => simp [beginsWord] at hbegins
      | blank hd => simp [beginsWord, hd] at hbegins
      | star => simp [beginsWord] at hbegins
      | @word ts s u hu hend h =>
        have hword : IsWord (c :: u) := ⟨by simp, List.forall_mem_cons.mpr ⟨hc, hu.2⟩⟩
        simpa [tokens, hc, hbegins, htokens, glue] using Spells.word hword hend h

/-- **Every text spells its tokens and no others.** -/
theorem spells_iff {ts : List Token} {s : List Char} : Spells ts s ↔ tokens s = ts := by
  constructor
  · intro h
    induction h with
    | nil => rfl
    | blank hc h ih => simpa [tokens, hc] using ih
    | star h ih =>
      have hblank : isBlank '*' = false := by decide
      simpa [tokens, hblank] using ih
    | word hu hend h ih => rw [tokens_append hu hend, ih]
  · rintro rfl
    exact spells_tokens s

theorem Spells.star_mem {s : List Char} (h : Spells ts s) (hstar : '*' ∈ s) : .star ∈ ts := by
  induction h with
  | nil => cases hstar
  | blank hc h ih =>
    refine ih ((List.mem_cons.mp hstar).resolve_left ?_)
    rintro rfl
    exact absurd hc (by decide)
  | star h ih => exact List.mem_cons_self
  | word hu hend h ih =>
    have hs := (List.mem_append.mp hstar).resolve_left fun hmem => (hu.2 '*' hmem).2 rfl
    exact List.mem_cons_of_mem _ (ih hs)

/-! ## Words as groups of tokens -/

/-- Tokens that follow one another without blanks: of any two neighbours one is an asterisk. -/
structure IsGroup (g : List Token) : Prop where
  ne_nil : g ≠ []
  isWord : ∀ u, .word u ∈ g → IsWord u
  chain : g.IsChain fun a b => a = .star ∨ b = .star

/-- The characters of a group. -/
def groupText (g : List Token) : List Char := g.flatMap Token.text

theorem IsGroup.cons {t : Token} {g : List Token} (hg : IsGroup g)
    (ht : ∀ u, t = .word u → IsWord u) (h : t = .star ∨ g.head? = some .star) :
    IsGroup (t :: g) where
  ne_nil := List.cons_ne_nil t g
  isWord u hu := by
    rcases List.mem_cons.mp hu with rfl | hu
    · exact ht u rfl
    · exact hg.isWord u hu
  chain := by
    refine List.isChain_cons.mpr ⟨fun b hb => ?_, hg.chain⟩
    exact h.imp_right fun hstar => Option.some.inj (hb.symm.trans hstar)

theorem isGroup_singleton {t : Token} (ht : ∀ u, t = .word u → IsWord u) : IsGroup [t] where
  ne_nil := List.cons_ne_nil t []
  isWord u hu := ht u (List.mem_singleton.mp hu).symm
  chain := .singleton t

theorem IsGroup.head?_eq_star {g : List Token} (hg : IsGroup g) {s : List Char}
    (h : groupText g <+: '*' :: s) : g.head? = some .star := by
  cases g with
  | nil => exact absurd rfl hg.ne_nil
  | cons t g =>
    cases t with
    | star => rfl
    | word u =>
      obtain ⟨hne, hu⟩ := hg.isWord u List.mem_cons_self
      cases u with
      | nil => exact absurd rfl hne
      | cons c u =>
        obtain ⟨rfl, -⟩ := List.cons_prefix_cons.mp h
        exact absurd rfl (hu '*' List.mem_cons_self).2

/-- **The words of a text hold its tokens in groups.** -/
theorem Spells.exists_groups {ts : List Token} {s : List Char} (h : Spells ts s) :
    ∃ groups : List (List Token), groups.flatten = ts ∧ Text.words s = groups.map groupText ∧
      ∀ g ∈ groups, IsGroup g := by
  induction h with
  | nil => exact ⟨[], rfl, rfl, by simp⟩
  | blank hc h ih =>
    rw [words_blank hc]
    exact ih
  | @star ts s h ih =>
    obtain ⟨groups, rfl, hwords, hgroups⟩ := ih
    have hblank : ∀ c ∈ ['*'], isBlank c = false := List.forall_mem_singleton.mpr rfl
    by_cases hs : IsApart s
    · refine ⟨[.star] :: groups, rfl, ?_, ?_⟩
      · exact (words_append_of_isApart hblank (by decide) hs).trans (by rw [hwords]; rfl)
      · exact List.forall_mem_cons.mpr ⟨isGroup_singleton nofun, hgroups⟩
    · obtain ⟨first, rest, hsplit, -, -, happend⟩ := exists_words_append hs
      obtain ⟨g, groups, rfl, rfl, rfl⟩ := List.map_eq_cons_iff.mp (hwords.symm.trans hsplit)
      obtain ⟨hg, hgroups⟩ := List.forall_mem_cons.mp hgroups
      refine ⟨(.star :: g) :: groups, rfl, happend ['*'] hblank, ?_⟩
      exact List.forall_mem_cons.mpr ⟨hg.cons nofun (Or.inl rfl), hgroups⟩
  | @word ts s u hu hend h ih =>
    obtain ⟨groups, rfl, hwords, hgroups⟩ := ih
    have hblank : ∀ c ∈ u, isBlank c = false := fun c hc => (hu.2 c hc).1
    have hword : ∀ v, Token.word u = .word v → IsWord v := by
      rintro v ⟨rfl⟩
      exact hu
    by_cases hs : IsApart s
    · refine ⟨[.word u] :: groups, rfl, ?_, ?_⟩
      · rw [words_append_of_isApart hblank hu.1 hs, hwords]
        simp [groupText, Token.text]
      · exact List.forall_mem_cons.mpr ⟨isGroup_singleton hword, hgroups⟩
    · obtain ⟨first, rest, hsplit, -, hfirst, happend⟩ := exists_words_append hs
      obtain ⟨g, groups, rfl, rfl, rfl⟩ := List.map_eq_cons_iff.mp (hwords.symm.trans hsplit)
      obtain ⟨hg, hgroups⟩ := List.forall_mem_cons.mp hgroups
      -- the word is glued to what follows, which then is an asterisk
      have hstar : g.head? = some .star := by
        cases s with
        | nil => exact absurd (fun c hc => by cases hc) hs
        | cons c s =>
          have hc : c = '*' :=
            (hend c rfl).resolve_left fun hblank => hs (by simpa [IsApart] using hblank)
          exact hg.head?_eq_star (hc ▸ hfirst)
      refine ⟨(.word u :: g) :: groups, rfl, happend u hblank, ?_⟩
      exact List.forall_mem_cons.mpr ⟨hg.cons hword (Or.inr hstar), hgroups⟩

/-! ## Qualifiers -/

theorem isQualifier_iff {w : List Char} : isQualifier w = true ↔
    w = "const".toList ∨ w = "volatile".toList ∨ w = "restrict".toList := by
  simp [isQualifier, or_assoc]

theorem forall_mem_of_isQualifier {w : List Char} (h : isQualifier w = true) :
    ∀ c ∈ w, c ≠ '*' ∧ c ≠ ']' ∧ c ≠ '(' := by
  rcases isQualifier_iff.mp h with rfl | rfl | rfl <;> simp

theorem ne_nil_of_isQualifier {w : List Char} (h : isQualifier w = true) : w ≠ [] := by
  rintro rfl
  exact absurd h (by decide)

theorem star_mem_groupText {g : List Token} (h : .star ∈ g) : '*' ∈ groupText g :=
  List.mem_flatMap.mpr ⟨.star, h, List.mem_singleton_self '*'⟩

/-- A group without asterisks is one word. -/
theorem IsGroup.eq_singleton {g : List Token} (hg : IsGroup g) (h : .star ∉ g) :
    ∃ u, g = [.word u] := by
  cases g with
  | nil => exact absurd rfl hg.ne_nil
  | cons t g =>
    cases g with
    | cons b g =>
      rcases (List.isChain_cons_cons.mp hg.chain).1 with rfl | rfl
      · exact absurd List.mem_cons_self h
      · exact absurd (List.mem_cons_of_mem t List.mem_cons_self) h
    | nil =>
      cases t with
      | star => exact absurd List.mem_cons_self h
      | word u => exact ⟨u, rfl⟩

/-- A word that is a qualifier is a group of one token. -/
theorem IsGroup.eq_qualifier {g : List Token} (hg : IsGroup g)
    (h : isQualifier (groupText g) = true) :
    g = [.word (groupText g)] := by
  have hstar : .star ∉ g := fun hmem =>
    (forall_mem_of_isQualifier h '*' (star_mem_groupText hmem)).1 rfl
  obtain ⟨u, rfl⟩ := hg.eq_singleton hstar
  simp [groupText, Token.text]

end Retrace.CType
