import Mathlib.Data.List.Basic
import Retrace.Viewer.Pane

/-!
# Styled text

Styling a line keeps its characters in their order and gives none of them a background, so that a shade
laid over part of the line is told by the background. Grouping into runs loses nothing.

* `unruns_runs`: the characters of the runs of a text are the text.
* `map_fst_styleLine`, `background_of_mem_styleLine`: what styling makes of a line.
* `getElem?_shadeRange`: a shade over part of a line.
* `getElem?_codeLines`: the rows of a code pane.
-/

namespace Retrace.Viewer

open Text

/-! ## Runs -/

theorem unruns_consRun (c : Char) (style : Style) (rs : List Run) :
    unruns (consRun c style rs) = (c, style) :: unruns rs := by
  cases rs with
  | nil => rfl
  | cons r rs =>
    unfold consRun
    by_cases h : r.style = style <;> simp [h, unruns, Run.chars]

theorem unruns_runs (text : StyledText) : unruns (runs text) = text := by
  induction text with
  | nil => rfl
  | cons p text ih =>
    obtain ⟨c, style⟩ := p
    rw [runs, unruns_consRun, ih]

/-! ## Styled lines -/

theorem map_fst_styled (style : Style) (s : List Char) : (styled style s).map Prod.fst = s := by
  simp [styled, Function.comp_def]

theorem map_fst_styleLine (line : List Char) : (styleLine line).map Prod.fst = line := by
  fun_induction styleLine line with
  | case1 => rfl
  | case2 c rest h => exact map_fst_styled _ _
  | case3 c rest h hq _ ih =>
    rw [List.map_append, map_fst_styled, ih, List.cons_append, splitQuoted_append]
  | case4 c rest h hq hw _ word after ih =>
    rw [List.map_append, map_fst_styled, ih]
    simp [word, after]
  | case5 c rest h hq hw ih => rw [List.map_cons, ih]

theorem background_wordStyle (word : List Char) (called : Bool) :
    (wordStyle word called).background = none := by
  unfold wordStyle
  repeat' split
  all_goals rfl

theorem background_symbolStyle (c : Char) : (symbolStyle c).background = none := by
  unfold symbolStyle
  split <;> rfl

theorem background_of_mem_styled {style : Style} (h : style.background = none) {s : List Char}
    {p : Char × Style} (hp : p ∈ styled style s) : p.2.background = none := by
  obtain ⟨c, -, rfl⟩ := List.mem_map.mp hp
  exact h

/-- **Styling gives no background.** -/
theorem background_of_mem_styleLine {line : List Char} {p : Char × Style}
    (hp : p ∈ styleLine line) : p.2.background = none := by
  fun_induction styleLine line with
  | case1 => cases hp
  | case2 c rest h => exact background_of_mem_styled rfl hp
  | case3 c rest h hq _ ih =>
    rcases List.mem_append.mp hp with hp | hp
    · exact background_of_mem_styled rfl hp
    · exact ih hp
  | case4 c rest h hq hw _ word after ih =>
    rcases List.mem_append.mp hp with hp | hp
    · exact background_of_mem_styled (background_wordStyle _ _) hp
    · exact ih hp
  | case5 c rest h hq hw ih =>
    rcases List.mem_cons.mp hp with rfl | hp
    · exact background_symbolStyle c
    · exact ih hp

/-- A styled line has the line's characters in their places, without background. -/
theorem getElem?_styleLine (l : List Char) (i : Nat) : ∃ style : Style,
    style.background = none ∧ (styleLine l)[i]? = l[i]?.map fun c => (c, style) := by
  cases hi : (styleLine l)[i]? with
  | none =>
    have hnone : l[i]? = none := by
      rw [← map_fst_styleLine l, List.getElem?_map, hi, Option.map_none]
    exact ⟨Style.plain, rfl, by rw [hnone, Option.map_none]⟩
  | some p =>
    have hsome : l[i]? = some p.1 := by
      have hmap := List.getElem?_map (f := Prod.fst) (l := styleLine l) (i := i)
      rwa [map_fst_styleLine, hi] at hmap
    exact ⟨p.2, background_of_mem_styleLine (List.mem_of_getElem? hi), by rw [hsome]; rfl⟩

/-! ## Shades -/

theorem getElem?_shadeRange (start stop : Nat) (style : Style) (text : StyledText) (i : Nat) :
    (shadeRange start stop style text)[i]? = text[i]?.map fun p =>
      (p.1, if start ≤ i ∧ i < stop then style.onto p.2 else p.2) := by
  rw [shadeRange, List.getElem?_mapIdx]
  refine congrArg (Option.map · text[i]?) (funext fun p => ?_)
  by_cases h : start ≤ i ∧ i < stop <;> simp [h]

/-- A style shades what it is the style of. -/
def Style.IsShaded (style : Style) : Prop := style.background = some Palette.shade

/-- **A shade over part of a line** keeps its characters and shades just that part. -/
theorem getElem?_shadeRange_styleLine {shade : Style} (hshade : shade.IsShaded)
    (start stop : Nat) (l : List Char) (i : Nat) : ∃ style : Style,
      (style.IsShaded ↔ start ≤ i ∧ i < stop) ∧
      (shadeRange start stop shade (styleLine l))[i]? = l[i]?.map fun c => (c, style) := by
  obtain ⟨below, hbelow, hline⟩ := getElem?_styleLine l i
  rw [getElem?_shadeRange, hline, Option.map_map]
  refine ⟨if start ≤ i ∧ i < stop then shade.onto below else below, ?_, rfl⟩
  unfold Style.IsShaded at *
  by_cases h : start ≤ i ∧ i < stop <;> simp [h, Style.onto, hshade, hbelow]

/-! ## Rows -/

/-- A row of a code pane: the line behind its number, if it is on the page. -/
theorem getElem?_codeLines (shade : Nat → List Char → StyledText → StyledText)
    (current : Option Nat) (offset height : Nat) (lines : List (List Char)) (k : Nat) :
    (codeLines shade current offset height lines)[k]? = if k < height then
      lines[offset + k]?.map fun line => numberedLine (offset + k + 1)
        (current == some (offset + k + 1)) (shade (offset + k + 1) line (styleLine line))
      else none := by
  have hnumber : 1 + (offset + k) = offset + k + 1 := by omega
  rw [codeLines, List.getElem?_map, List.getElem?_take]
  by_cases hk : k < height
  · rw [if_pos hk, if_pos hk, List.getElem?_drop, List.getElem?_zipIdx, Option.map_map, hnumber]
    rfl
  · rw [if_neg hk, if_neg hk, Option.map_none]

theorem unruns_tail_numberedLine (n : Nat) (current : Bool) (text : StyledText) :
    unruns (numberedLine n current text).tail = text :=
  unruns_runs text

end Retrace.Viewer
