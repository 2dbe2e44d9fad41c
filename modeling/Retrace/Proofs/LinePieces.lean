import Mathlib.Data.List.TakeWhile
import Retrace.Viewer.CodeStyle

/-!
# The pieces of a line of code

A line of code falls into pieces with one style each: a comment up to the end, a quoted text, a word, or a
character alone. The rules for pieces are stated here on their own, without a scanner: what a quoted text
is, that a word is as long as it can be, and that no piece is taken for a simpler one. The styled line is
made of these pieces. Every piece takes at least one character, so there are no more of them than characters.

* `QuotedBody`, `QuotedText`: what follows an opening quote.
* `splitQuoted_eq_iff`: the text that is split off is the quoted text.
* `Pieces`: the rules for pieces.
* `Pieces.flatMap_text`, `Pieces.length_le`: pieces are the line, cut up, and no more than its characters.
* `exists_pieces`, `Pieces.unruns_eq`: every line falls into pieces, and styling follows them.
-/

namespace Retrace.Viewer

/-! ## Quoted texts -/

/-- What may stand between two quotes of a kind. A backslash takes the next character along, which may be
a quote or a backslash. -/
inductive QuotedBody (quote : Char) : List Char → Prop
  | nil : QuotedBody quote []
  | escaped (c : Char) {body : List Char} (h : QuotedBody quote body) :
      QuotedBody quote ('\\' :: c :: body)
  | plain {c : Char} {body : List Char} (hslash : c ≠ '\\') (hquote : c ≠ quote)
      (h : QuotedBody quote body) : QuotedBody quote (c :: body)

/-- A quoted text behind its opening quote, and what follows it. When no quote closes the text it reaches to
the end of the line, where a backslash may be left alone. -/
inductive QuotedText (quote : Char) : List Char → List Char → Prop
  | closed {body : List Char} (h : QuotedBody quote body) (after : List Char) :
      QuotedText quote (body ++ [quote]) after
  | unclosed {body : List Char} (h : QuotedBody quote body) : QuotedText quote body []
  | loneSlash {body : List Char} (h : QuotedBody quote body) : QuotedText quote (body ++ ['\\']) []

section Quoted

variable {quote c : Char} {s text after body : List Char}

theorem QuotedText.escaped (c : Char) (h : QuotedText quote text after) :
    QuotedText quote ('\\' :: c :: text) after := by
  cases h with
  | closed h after => exact .closed (h.escaped c) after
  | unclosed h => exact .unclosed (h.escaped c)
  | loneSlash h => exact .loneSlash (h.escaped c)

theorem QuotedText.plain (hslash : c ≠ '\\') (hquote : c ≠ quote) (h : QuotedText quote text after) :
    QuotedText quote (c :: text) after := by
  cases h with
  | closed h after => exact .closed (h.plain hslash hquote) after
  | unclosed h => exact .unclosed (h.plain hslash hquote)
  | loneSlash h => exact .loneSlash (h.plain hslash hquote)

theorem quotedText_splitQuoted (quote : Char) (s : List Char) :
    QuotedText quote (splitQuoted quote s).1 (splitQuoted quote s).2 := by
  fun_induction splitQuoted quote s with
  | case1 => exact .unclosed .nil
  | case2 => exact .loneSlash .nil
  | case3 c rest text after h ih =>
    rw [h] at ih
    exact ih.escaped c
  | case4 rest => exact .closed .nil rest
  | case5 c rest hlast hescape hquote text after h ih =>
    have hslash : c ≠ '\\' := by
      rintro rfl
      cases rest with
      | nil => exact hlast rfl rfl
      | cons d rest => exact hescape d rest rfl rfl
    rw [h] at ih
    exact ih.plain hslash hquote

theorem splitQuoted_cons_of_ne (hslash : c ≠ '\\') (s : List Char) :
    splitQuoted quote (c :: s) = if c = quote then ([c], s)
      else (c :: (splitQuoted quote s).1, (splitQuoted quote s).2) := by
  rw [splitQuoted]
  · intro h
    exact absurd h hslash
  · intro d rest h
    exact absurd h hslash

/-- The body of a quoted text is passed over as a whole. -/
theorem QuotedBody.splitQuoted_append (h : QuotedBody quote body) (s : List Char) :
    splitQuoted quote (body ++ s) = (body ++ (splitQuoted quote s).1, (splitQuoted quote s).2) := by
  induction h with
  | nil => rfl
  | escaped c _ ih => rw [List.cons_append, List.cons_append, splitQuoted, ih]; rfl
  | plain hslash hquote _ ih =>
    rw [List.cons_append, splitQuoted_cons_of_ne hslash, if_neg hquote, ih]
    rfl

theorem QuotedText.splitQuoted_append (h : QuotedText quote text after) (hquote : quote ≠ '\\') :
    splitQuoted quote (text ++ after) = (text, after) := by
  cases h with
  | closed h after =>
    rw [List.append_assoc, h.splitQuoted_append, List.singleton_append, splitQuoted_cons_of_ne hquote,
      if_pos rfl]
  | unclosed h =>
    rw [h.splitQuoted_append, splitQuoted, List.append_nil]
  | loneSlash h =>
    rw [List.append_nil, h.splitQuoted_append, splitQuoted]

/-- **What is split off is the quoted text.** -/
theorem splitQuoted_eq_iff (hquote : quote ≠ '\\') :
    splitQuoted quote s = (text, after) ↔ s = text ++ after ∧ QuotedText quote text after := by
  constructor
  · intro h
    have happend := Viewer.splitQuoted_append quote s
    have htext := quotedText_splitQuoted quote s
    rw [h] at happend htext
    exact ⟨happend.symm, htext⟩
  · rintro ⟨rfl, htext⟩
    exact htext.splitQuoted_append hquote

end Quoted

/-! ## Pieces -/

/-- A line begins with a comment. -/
def BeginsComment (line : List Char) : Prop := ∃ rest, line = '/' :: '/' :: rest

/-- The characters that open and close quoted texts. -/
def IsQuote (c : Char) : Prop := c = '"' ∨ c = '\''

/-- A line cut up into pieces, each a run of one style: a comment, which reaches to the end; a quoted text; a
word that does not go on behind its end; or a character that begins none of these. -/
inductive Pieces : List Char → List Run → Prop
  | nil : Pieces [] []
  | comment {line : List Char} (h : BeginsComment line) :
      Pieces line [⟨line, .colored Palette.grey⟩]
  | quoted {quote : Char} {text after : List Char} {pieces : List Run} (hquote : IsQuote quote)
      (htext : QuotedText quote text after) (h : Pieces after pieces) :
      Pieces (quote :: text ++ after) (⟨quote :: text, .colored Palette.orange⟩ :: pieces)
  | word {word after : List Char} {pieces : List Run} (hne : word ≠ [])
      (hword : ∀ c ∈ word, isWordChar c = true) (hafter : ∀ c ∈ after.head?, isWordChar c = false)
      (h : Pieces after pieces) :
      Pieces (word ++ after) (⟨word, wordStyle word (after.head? = some '(')⟩ :: pieces)
  | symbol {c : Char} {after : List Char} {pieces : List Run} (hcomment : ¬ BeginsComment (c :: after))
      (hquote : ¬ IsQuote c) (hword : isWordChar c = false) (h : Pieces after pieces) :
      Pieces (c :: after) (⟨[c], symbolStyle c⟩ :: pieces)

section Pieces

variable {c : Char} {line rest : List Char} {pieces : List Run} {text : StyledText}

theorem beginsComment_cons_iff : BeginsComment (c :: rest) ↔ c = '/' ∧ rest.head? = some '/' := by
  constructor
  · rintro ⟨rest, ⟨⟩⟩
    exact ⟨rfl, rfl⟩
  · rintro ⟨rfl, hrest⟩
    obtain ⟨rest, rfl⟩ := List.head?_eq_some_iff.mp hrest
    exact ⟨rest, rfl⟩

theorem IsQuote.ne (h : IsQuote c) : c ≠ '/' ∧ c ≠ '\\' := by
  rcases h with rfl | rfl <;> decide

/-- Neither a slash nor a quote belongs to words. -/
theorem not_isWordChar (h : c = '/' ∨ IsQuote c) : isWordChar c = false := by
  rcases h with rfl | rfl | rfl <;> decide +kernel

/-- A word ends where no character of words follows. -/
theorem takeWhile_dropWhile_word {word after : List Char} (hword : ∀ c ∈ word, isWordChar c = true)
    (hafter : ∀ c ∈ after.head?, isWordChar c = false) :
    (word ++ after).takeWhile isWordChar = word ∧ (word ++ after).dropWhile isWordChar = after := by
  rw [List.takeWhile_append_of_pos hword, List.dropWhile_append_of_pos hword]
  cases after with
  | nil => exact ⟨List.append_nil word, rfl⟩
  | cons d after =>
    have hd : ¬ isWordChar d = true := Bool.eq_false_iff.mp (hafter d rfl)
    rw [List.takeWhile_cons_of_neg hd, List.dropWhile_cons_of_neg hd]
    exact ⟨List.append_nil word, rfl⟩

/-! ### Styling by the kind of the first piece -/

theorem styleLine_of_beginsComment (h : BeginsComment line) :
    styleLine line = styled (.colored Palette.grey) line := by
  obtain ⟨rest, rfl⟩ := h
  rw [styleLine, if_pos ⟨rfl, rfl⟩]

theorem styleLine_of_isQuote (h : IsQuote c) (rest : List Char) :
    styleLine (c :: rest) = styled (.colored Palette.orange) (c :: (splitQuoted c rest).1) ++
      styleLine (splitQuoted c rest).2 := by
  have hquote : c = '"' ∨ c = '\'' := h
  rw [styleLine, if_neg fun hcomment => h.ne.1 hcomment.1, if_pos hquote]

theorem styleLine_of_isWordChar (h : isWordChar c = true) (rest : List Char) :
    styleLine (c :: rest) =
      styled (wordStyle (c :: rest.takeWhile isWordChar)
          ((rest.dropWhile isWordChar).head? = some '(')) (c :: rest.takeWhile isWordChar) ++
        styleLine (rest.dropWhile isWordChar) := by
  have hother : ¬ (c = '/' ∨ IsQuote c) := fun hc => by
    rw [not_isWordChar hc] at h
    exact Bool.false_ne_true h
  unfold IsQuote at hother
  rw [styleLine, if_neg fun hcomment => hother (.inl hcomment.1), if_neg fun hq => hother (.inr hq),
    if_pos h]

theorem styleLine_of_symbol (hcomment : ¬ BeginsComment (c :: rest)) (hquote : ¬ IsQuote c)
    (hword : isWordChar c = false) : styleLine (c :: rest) = (c, symbolStyle c) :: styleLine rest := by
  unfold IsQuote at hquote
  rw [styleLine, if_neg (mt beginsComment_cons_iff.mpr hcomment), if_neg hquote,
    if_neg (by rw [hword]; exact Bool.false_ne_true)]

/-! ### Pieces and styling -/

/-- **Pieces are the line, cut up**, and none is empty. -/
theorem Pieces.flatMap_text (h : Pieces line pieces) :
    pieces.flatMap Run.text = line ∧ ∀ p ∈ pieces, p.text ≠ [] := by
  induction h with
  | nil => exact ⟨rfl, nofun⟩
  | comment h =>
    obtain ⟨rest, rfl⟩ := h
    exact ⟨by simp, List.forall_mem_singleton.mpr (List.cons_ne_nil _ _)⟩
  | quoted _ _ _ ih =>
    rw [List.flatMap_cons, ih.1]
    exact ⟨rfl, List.forall_mem_cons.mpr ⟨List.cons_ne_nil _ _, ih.2⟩⟩
  | word hne _ _ _ ih =>
    rw [List.flatMap_cons, ih.1]
    exact ⟨rfl, List.forall_mem_cons.mpr ⟨hne, ih.2⟩⟩
  | symbol _ _ _ _ ih =>
    rw [List.flatMap_cons, ih.1]
    exact ⟨rfl, List.forall_mem_cons.mpr ⟨List.cons_ne_nil _ _, ih.2⟩⟩

/-- There are no more pieces than characters. -/
theorem Pieces.length_le (h : Pieces line pieces) : pieces.length ≤ line.length := by
  obtain ⟨rfl, hne⟩ := h.flatMap_text
  clear h
  induction pieces with
  | nil => exact Nat.le_refl 0
  | cons p pieces ih =>
    obtain ⟨hp, hpieces⟩ := List.forall_mem_cons.mp hne
    have hpos := List.length_pos_iff.mpr hp
    have hrest := ih hpieces
    rw [List.flatMap_cons, List.length_append, List.length_cons]
    omega

/-- Every line falls into pieces. -/
theorem exists_pieces (line : List Char) : ∃ pieces, Pieces line pieces := by
  fun_induction styleLine line with
  | case1 => exact ⟨[], .nil⟩
  | case2 c rest h => exact ⟨_, .comment (beginsComment_cons_iff.mpr h)⟩
  | case3 c rest h hquote _ ih =>
    obtain ⟨pieces, hpieces⟩ := ih
    have hslash := (IsQuote.ne hquote).2
    obtain ⟨hrest, htext⟩ := (splitQuoted_eq_iff hslash).mp (Eq.refl (splitQuoted c rest))
    have hquoted := Pieces.quoted hquote htext hpieces
    rw [List.cons_append, ← hrest] at hquoted
    exact ⟨_, hquoted⟩
  | case4 c rest h hquote hw _ word after ih =>
    obtain ⟨pieces, hpieces⟩ := ih
    have hword : ∀ d ∈ word, isWordChar d = true :=
      List.forall_mem_cons.mpr ⟨hw, fun d hd => List.mem_takeWhile_imp hd⟩
    have hafter : ∀ d ∈ after.head?, isWordChar d = false := fun d hd => by
      have hhead := List.head?_dropWhile_not isWordChar rest
      rw [Option.mem_def.mp hd] at hhead
      exact hhead
    have hpiece := Pieces.word (List.cons_ne_nil _ _) hword hafter hpieces
    rw [List.cons_append, List.takeWhile_append_dropWhile] at hpiece
    exact ⟨_, hpiece⟩
  | case5 c rest h hquote hw ih =>
    obtain ⟨pieces, hpieces⟩ := ih
    exact ⟨_, .symbol (mt beginsComment_cons_iff.mp h) hquote (Bool.eq_false_iff.mpr hw) hpieces⟩

/-- **A styled line is made of its pieces.** -/
theorem Pieces.unruns_eq (h : Pieces line pieces) : unruns pieces = styleLine line := by
  induction h with
  | nil =>
    rw [styleLine]
    rfl
  | comment h =>
    rw [styleLine_of_beginsComment h]
    exact List.append_nil _
  | quoted hquote htext _ ih =>
    have hsplit := (splitQuoted_eq_iff hquote.ne.2).mpr ⟨rfl, htext⟩
    rw [List.cons_append, styleLine_of_isQuote hquote, hsplit, ← ih]
    rfl
  | @word word after _ hne hword hafter _ ih =>
    obtain ⟨c, rest, rfl⟩ := List.exists_cons_of_ne_nil hne
    obtain ⟨hc, hrest⟩ := List.forall_mem_cons.mp hword
    obtain ⟨htake, hdrop⟩ := takeWhile_dropWhile_word hrest hafter
    rw [List.cons_append, styleLine_of_isWordChar hc, htake, hdrop, ← ih]
    rfl
  | symbol hcomment hquote hword _ ih =>
    rw [styleLine_of_symbol hcomment hquote hword, ← ih]
    rfl

/-- A called word beyond ASCII, and a quoted text that neither a comment mark nor an escaped quote ends, with
a backslash left alone at the end of the line. -/
example : runs (styleLine "né(\"//\\\" \\".toList) =
    [.ofString "né" (.colored Palette.yellow), .ofString "(" (.colored Palette.blue),
      .ofString "\"//\\\" \\" (.colored Palette.orange)] := by
  decide +kernel

end Pieces

end Retrace.Viewer
