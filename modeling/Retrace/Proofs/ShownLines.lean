import Mathlib.Data.List.Chain
import Mathlib.Data.List.Forall2
import Retrace.Proofs.LinePieces
import Retrace.Proofs.MarkedPane
import Retrace.Proofs.SourcePane

/-!
# The lines that a code pane shows

A line goes through three hands before a pane shows it: its characters are styled, part of them is shaded, and
they are grouped into runs behind the number of the line. None of them drops, adds or moves a character, so
that the pane shows the line itself, whatever is shaded.

* `IsGrouping`, `isGrouping_iff`: runs are the one way to group characters by their styles.
* `map_fst_shadeRange`, `getElem?_shadeRange_of_not`: a shade changes styles, and only where it lies.
* `ShowsLine`, `ShowsLines`: rows that show lines behind their numbers.
* `showsLines_codeLines`: the rows of a code pane do so for every way of shading that keeps characters.
* `shownLines_spec`: all of it for both code panes.
-/

namespace Retrace.Viewer

open Text

/-! ## Runs -/

/-- Characters grouped into runs: they are the characters of the runs in order, with the styles of these; no
run is empty; and of two runs in a row each has a style of its own. -/
structure IsGrouping (text : StyledText) (rs : List Run) : Prop where
  chars : unruns rs = text
  ne_nil : ∀ r ∈ rs, r.text ≠ []
  apart : rs.IsChain fun r next => r.style ≠ next.style

section Runs

variable {c : Char} {style : Style} {s : List Char} {text : StyledText} {r : Run} {rs : List Run}

theorem consRun_of_eq (h : r.style = style) :
    consRun c style (r :: rs) = ⟨c :: r.text, style⟩ :: rs :=
  if_pos h

theorem consRun_of_ne (h : ∀ next ∈ rs.head?, next.style ≠ style) :
    consRun c style rs = ⟨[c], style⟩ :: rs := by
  cases rs with
  | nil => rfl
  | cons r rs => exact if_neg (h r rfl)

/-- A character in front of a grouping leaves it one. -/
theorem IsGrouping.consRun (h : IsGrouping text rs) (c : Char) (style : Style) :
    IsGrouping ((c, style) :: text) (consRun c style rs) := by
  have hchars := unruns_consRun c style rs
  rw [h.chars] at hchars
  by_cases hjoin : ∃ r rest, rs = r :: rest ∧ r.style = style
  · obtain ⟨r, rest, rfl, rfl⟩ := hjoin
    obtain ⟨hnext, hrest⟩ := List.isChain_cons.mp h.apart
    rw [consRun_of_eq rfl] at hchars ⊢
    exact ⟨hchars, List.forall_mem_cons.mpr ⟨List.cons_ne_nil _ _, (List.forall_mem_cons.mp h.ne_nil).2⟩,
      List.isChain_cons.mpr ⟨hnext, hrest⟩⟩
  · have hother : ∀ next ∈ rs.head?, next.style ≠ style := fun next hnext hstyle => by
      obtain ⟨rest, hrest⟩ := List.head?_eq_some_iff.mp hnext
      exact hjoin ⟨next, rest, hrest, hstyle⟩
    rw [consRun_of_ne hother] at hchars ⊢
    exact ⟨hchars, List.forall_mem_cons.mpr ⟨List.cons_ne_nil _ _, h.ne_nil⟩,
      List.isChain_cons.mpr ⟨fun next hnext => (hother next hnext).symm, h.apart⟩⟩

theorem isGrouping_runs (text : StyledText) : IsGrouping text (runs text) := by
  induction text with
  | nil => exact ⟨rfl, nofun, .nil⟩
  | cons p text ih => exact ih.consRun p.1 p.2

/-- Characters of one style are a run of their own in front of runs of which the first has another one. -/
theorem runs_styled_append (hs : s ≠ []) (hapart : ∀ next ∈ (runs text).head?, next.style ≠ style) :
    runs (styled style s ++ text) = ⟨s, style⟩ :: runs text := by
  induction s with
  | nil => exact absurd rfl hs
  | cons c s ih =>
    change Viewer.consRun c style (runs (styled style s ++ text)) = _
    cases s with
    | nil => exact consRun_of_ne hapart
    | cons d s =>
      rw [ih (List.cons_ne_nil d s)]
      exact consRun_of_eq rfl

/-- **Runs are the one way to group characters by their styles.** -/
theorem isGrouping_iff : IsGrouping text rs ↔ rs = runs text := by
  constructor
  · intro h
    induction rs generalizing text with
    | nil =>
      rw [← h.chars]
      rfl
    | cons r rs ih =>
      obtain ⟨hr, hne⟩ := List.forall_mem_cons.mp h.ne_nil
      obtain ⟨hnext, hapart⟩ := List.isChain_cons.mp h.apart
      have hrest : rs = runs (unruns rs) := ih ⟨rfl, hne, hapart⟩
      have hother : ∀ next ∈ (runs (unruns rs)).head?, next.style ≠ r.style := by
        rw [← hrest]
        exact fun next hmem => (hnext next hmem).symm
      have hchars : text = styled r.style r.text ++ unruns rs := h.chars.symm
      rw [hchars, runs_styled_append hr hother, ← hrest]
  · rintro rfl
    exact isGrouping_runs text

theorem map_fst_unruns (rs : List Run) : (unruns rs).map Prod.fst = rs.flatMap Run.text := by
  rw [unruns, List.map_flatMap]
  refine congrArg (rs.flatMap ·) (funext fun r => ?_)
  exact map_fst_styled r.style r.text

end Runs

/-! ## Shades -/

section Shades

variable {start stop i : Nat}

theorem map_fst_shadeRange (start stop : Nat) (shade : Style) (text : StyledText) :
    (shadeRange start stop shade text).map Prod.fst = text.map Prod.fst := by
  refine List.ext_getElem? fun i => ?_
  rw [List.getElem?_map, List.getElem?_map, getElem?_shadeRange, Option.map_map]
  rfl

/-- A shade leaves the styles around it as they are. -/
theorem getElem?_shadeRange_of_not (shade : Style) (text : StyledText) (h : ¬ (start ≤ i ∧ i < stop)) :
    (shadeRange start stop shade text)[i]? = text[i]? := by
  rw [getElem?_shadeRange]
  simp only [if_neg h, Prod.mk.eta, Option.map_id']

theorem map_fst_shadeCovered (range : Option SourceRange) (n : Nat) (line : List Char)
    (text : StyledText) : (shadeCovered range n line text).map Prod.fst = text.map Prod.fst := by
  unfold shadeCovered
  split
  · exact map_fst_shadeRange _ _ _ text
  · rfl

theorem map_fst_shadeMarked (marked : List (Nat × Nat × Nat)) (n : Nat) (line : List Char)
    (text : StyledText) : (shadeMarked marked n line text).map Prod.fst = text.map Prod.fst := by
  unfold shadeMarked
  generalize marked.filter _ = marks
  induction marks generalizing text with
  | nil => rfl
  | cons mark marks ih => exact (ih _).trans (map_fst_shadeRange _ _ _ text)

end Shades

/-! ## Rows -/

/-- A row shows a numbered line: behind the number, which may be marked, its runs hold the characters of the
line. -/
def ShowsLine (line : List Char × Nat) (row : List Run) : Prop :=
  ∃ (marked : Bool) (style : Style) (rest : List Run),
    row = ⟨lineNumber line.2 ++ [if marked then '▶' else ' ', ' '], style⟩ :: rest ∧
    rest.flatMap Run.text = line.1

/-- Rows show the page of some lines at an offset: they are as many, and each of them shows its line. -/
def ShowsLines (lines : List (List Char)) (offset height : Nat) (rows : List (List Run)) : Prop :=
  List.Forall₂ ShowsLine (page offset height (lines.zipIdx 1)) rows

theorem showsLine_numberedLine {line : List Char} {text : StyledText} (h : text.map Prod.fst = line)
    (n : Nat) (current : Bool) : ShowsLine (line, n) (numberedLine n current text) := by
  refine ⟨current, _, runs text, rfl, ?_⟩
  rw [← map_fst_unruns, unruns_runs, h]

/-- **A code pane shows its lines** for every way of shading them that keeps their characters. -/
theorem showsLines_codeLines {shade : Nat → List Char → StyledText → StyledText}
    (hshade : ∀ n line text, (shade n line text).map Prod.fst = text.map Prod.fst)
    (current : Option Nat) (offset height : Nat) (lines : List (List Char)) :
    ShowsLines lines offset height (codeLines shade current offset height lines) := by
  refine List.forall₂_map_right_iff.mpr (List.forall₂_same.mpr ?_)
  rintro ⟨line, n⟩ -
  exact showsLine_numberedLine ((hshade n line _).trans (map_fst_styleLine line)) n _

/-! ## Code panes -/

/-- **A code pane shows the lines themselves.** A line falls into pieces that follow the rules, no more of them
than there are characters; they are the line, cut up, and the styled line is made of them, so that it has the
characters of the line. A shade over a part of a text, be this part empty, the wrong way round or beyond the
end, keeps the characters, and outside the part their styles too. The runs of a text are the one way to group
its characters by their styles. So the rows that the panes draw show, behind their numbers, the lines of the
page as they are: those of the source, whatever statement is shaded, and those of the evaluated text, whatever
mask is read. -/
theorem shownLines_spec (line : List Char) (start stop : Nat) (shade : Style) (text : StyledText)
    (f : Frame) (code : String) (statement : Option SourceRange) (mask : Option String) (block : Char)
    (scroll : CodeScroll) :
    ((styleLine line).map Prod.fst = line ∧
      (∃ pieces, Pieces line pieces) ∧ ∀ pieces, Pieces line pieces →
        pieces.flatMap Run.text = line ∧ pieces.length ≤ line.length ∧
          unruns pieces = styleLine line) ∧
    ((shadeRange start stop shade text).map Prod.fst = text.map Prod.fst ∧
      ∀ i, ¬ (start ≤ i ∧ i < stop) → (shadeRange start stop shade text)[i]? = text[i]?) ∧
    (∀ rs, IsGrouping text rs ↔ rs = runs text) ∧
    (let pane := sourcePane f code statement scroll
      let rows := sourceRows f code statement scroll
      pane.1 = drawCode (f.box " Source Code ") rows ∧
      ShowsLines (displayLines code.toList) pane.2.offset (f.box " Source Code ").pageHeight rows) ∧
    let pane := evaluatedPane f code mask block scroll
    let rows := evaluatedRows f code mask block scroll
    pane.1 = drawCode (f.box " Evaluated ") rows ∧
    ShowsLines (displayLines code.toList) pane.2.offset (f.box " Evaluated ").pageHeight rows := by
  refine ⟨⟨map_fst_styleLine line, exists_pieces line,
      fun pieces h => ⟨h.flatMap_text.1, h.length_le, h.unruns_eq⟩⟩,
    ⟨map_fst_shadeRange start stop shade text, fun i => getElem?_shadeRange_of_not shade text⟩,
    fun rs => isGrouping_iff, ⟨fst_sourcePane .., ?_⟩, fst_evaluatedPane .., ?_⟩
  · exact showsLines_codeLines (map_fst_shadeCovered statement) _ _ _ _
  · exact showsLines_codeLines (map_fst_shadeMarked _) _ _ _ _

end Retrace.Viewer
