import Mathlib.Data.List.Chain
import Retrace.Proofs.Image
import Retrace.Proofs.Rewriting

/-!
# What lies in the image of a span

The image of a span is worked out from the replacements, end by end, with a running shift. A span whose
ends lie strictly inside replaced spans is widened to those; the replacements then fall into those in
front of it, those behind it and those in it, where an insertion at an end of the span counts as in it.
The image begins where the text in front ends once its replacements are made, and ends where the text
behind begins. The shift never leads below zero, nor the end before the start.

* `edge`, `hull`: an end of a span, and the span, widened to the replacements that they lie in.
* `changesBefore`, `changesInside`, `changesBehind`: the three parts of the replacements.
* `placeOfPoint`: the place that the running shift leads to, with nothing held at zero.
* `exists_parts_start`, `exists_parts_stop`: an end of the span parts the replacements, and those on its
  near side account for its place.
* `PartedBy.take_image`, `PartedBy.drop_image`, `PartedBy.slice_image`: what stands in front of the image,
  behind it and in it.
* `image_spec`: the three parts of the result.
-/

namespace Retrace.Segment

open Text

/-! ## Replacements around a point -/

/-- Whether a point lies strictly inside the span of a replacement. -/
def straddles (point : Nat) (change : Segment Nat) : Bool :=
  decide (change.span.start < point) && decide (point < change.span.stop)

/-- Whether a replacement only inserts, at a point. -/
def insertsAt (point : Nat) (change : Segment Nat) : Bool :=
  change.span.start == point && change.span.stop == point

/-- An end of the span of a replacement. -/
def endOf (which : SpanEnd) (change : Segment Nat) : Nat :=
  match which with
  | .start => change.span.start
  | .stop => change.span.stop

/-- An end of a span, or that end of the replacement that it lies strictly inside. -/
def edge (which : SpanEnd) (changes : List (Segment Nat)) (point : Nat) : Nat :=
  ((changes.find? (straddles point)).map (endOf which)).getD point

/-- The span widened to the replacements that its ends lie strictly inside. -/
def hull (span : Span Nat) (changes : List (Segment Nat)) : Span Nat :=
  ⟨edge .start changes span.start, edge .stop changes span.stop⟩

/-- Whether a replacement ends at an edge or before, and does not insert at the point itself. -/
def liesBefore (edge point : Nat) (change : Segment Nat) : Bool :=
  decide (change.span.stop ≤ edge) && !change.insertsAt point

/-- Whether a replacement starts at an edge or behind, and does not insert at the point itself. -/
def liesBehind (edge point : Nat) (change : Segment Nat) : Bool :=
  decide (edge ≤ change.span.start) && !change.insertsAt point

/-- The replacements in front of a span. -/
def changesBefore (span : Span Nat) (changes : List (Segment Nat)) : List (Segment Nat) :=
  changes.filter (liesBefore (hull span changes).start span.start)

/-- The replacements behind a span. -/
def changesBehind (span : Span Nat) (changes : List (Segment Nat)) : List (Segment Nat) :=
  changes.filter (liesBehind (hull span changes).stop span.stop)

/-- The replacements in a span: those neither in front of it nor behind it. -/
def changesInside (span : Span Nat) (changes : List (Segment Nat)) : List (Segment Nat) :=
  changes.filter fun change => !change.liesBefore (hull span changes).start span.start &&
    !change.liesBehind (hull span changes).stop span.stop

variable {which : SpanEnd} {point limit : Nat} {change : Segment Nat}
  {changes near far : List (Segment Nat)}

theorem straddles_iff : straddles point change = true ↔
    change.span.start < point ∧ point < change.span.stop := by
  simp [straddles]

theorem insertsAt_iff : insertsAt point change = true ↔
    change.span.start = point ∧ change.span.stop = point := by
  simp [insertsAt]

theorem liesBefore_iff {edge : Nat} : liesBefore edge point change = true ↔
    change.span.stop ≤ edge ∧ ¬ (change.span.start = point ∧ change.span.stop = point) := by
  rw [← insertsAt_iff]
  simp [liesBefore]

theorem liesBehind_iff {edge : Nat} : liesBehind edge point change = true ↔
    edge ≤ change.span.start ∧ ¬ (change.span.start = point ∧ change.span.stop = point) := by
  rw [← insertsAt_iff]
  simp [liesBehind]

theorem isBefore_start_iff : change.isBefore .start point = true ↔
    change.span.stop ≤ point ∧ ¬ (change.span.start = point ∧ change.span.stop = point) := by
  rw [← liesBefore_iff]
  simp [isBefore, liesBefore, insertsAt]

theorem isBefore_stop_iff : change.isBefore .stop point = true ↔ change.span.stop ≤ point := by
  simp [isBefore]

theorem edge_of_not_straddles (h : ∀ c ∈ changes, ¬ straddles point c = true) :
    edge which changes point = point := by
  rw [edge, List.find?_eq_none.mpr h]
  rfl

theorem edge_of_straddles (hnear : ∀ c ∈ near, ¬ straddles point c = true)
    (h : straddles point change = true) (far : List (Segment Nat)) :
    edge which (near ++ change :: far) point = endOf which change := by
  have hfind : (near ++ change :: far).find? (straddles point) = some change := by
    rw [List.find?_append, List.find?_eq_none.mpr hnear, Option.none_or, List.find?_cons_of_pos h]
  rw [edge, hfind]
  rfl

/-- Among replacements in order at most one has a point strictly inside. -/
theorem edge_eq_of_straddles (h : InOrder changes) (hmem : change ∈ changes)
    (hs : straddles point change = true) : edge which changes point = endOf which change := by
  obtain ⟨near, behind, rfl⟩ := List.append_of_mem hmem
  refine edge_of_straddles (fun c hc hc' => ?_) hs behind
  have hle := h.parts_start.before c hc
  have := (straddles_iff.mp hc').2
  have := (straddles_iff.mp hs).1
  omega

/-! ## The place of a point -/

/-- The place of an end of a replacement, its span's start having stayed where it was. -/
def placeOfEnd (which : SpanEnd) (change : Segment Nat) : Int :=
  match which with
  | .start => change.span.start
  | .stop => change.span.start + change.value.utf8ByteSize

/-- The place that the shift leads to, with nothing held at zero. -/
def placeOfPoint (which : SpanEnd) (point : Nat) (shift : Int) : List (Segment Nat) → Int
  | [] => point + shift
  | change :: changes =>
    if change.isBefore which point then
      placeOfPoint which point (shift + change.growth Int.ofNat) changes
    else if change.span.start < point then placeOfEnd which change + shift
    else point + shift

/-- The image of a point is its place, held at zero. -/
theorem imageOfPoint_eq_toNat (which : SpanEnd) (point : Nat) (shift : Int)
    (changes : List (Segment Nat)) :
    imageOfPoint Int.ofNat which point shift changes =
      (placeOfPoint which point shift changes).toNat := by
  induction changes generalizing shift with
  | nil => rfl
  | cons change changes ih =>
    rw [imageOfPoint, placeOfPoint, ih]
    split
    · rfl
    · split
      · cases which with
        | start => rfl
        | stop => exact congrArg Int.toNat (Int.add_right_comm _ shift _)
      · rfl

/-- The replacements before a point shift it; the first one that is not before it decides. -/
theorem exists_reached (which : SpanEnd) (point : Nat) (changes : List (Segment Nat)) :
    ∃ near far, changes = near ++ far ∧ (∀ c ∈ near, c.isBefore which point = true) ∧
      (∀ c ∈ far.head?, ¬ c.isBefore which point = true) ∧
      ∀ shift, placeOfPoint which point shift changes =
        placeOfPoint which point (shift + (added near - removed near)) far := by
  induction changes with
  | nil => exact ⟨[], [], rfl, by simp, by simp, fun shift => by simp [added, removed]⟩
  | cons change changes ih =>
    by_cases h : change.isBefore which point = true
    · obtain ⟨near, far, rfl, hnear, hfar, hplace⟩ := ih
      refine ⟨change :: near, far, rfl, List.forall_mem_cons.mpr ⟨h, hnear⟩, hfar, fun shift => ?_⟩
      rw [placeOfPoint, if_pos h, hplace, added_cons, removed_cons, growth]
      congr 1
      simp only [Int.ofNat_eq_natCast]
      omega
    · refine ⟨[], change :: changes, rfl, by simp, ?_, fun shift => by simp [added, removed]⟩
      rintro c ⟨⟩
      exact h

/-! ## What an end of a span parts -/

theorem not_straddles_of_stop_le (h : change.span.stop ≤ point) : ¬ straddles point change = true :=
  fun hs => by
    have := (straddles_iff.mp hs).2
    omega

theorem not_straddles_of_le_start (h : point ≤ change.span.start) :
    ¬ straddles point change = true := fun hs => by
  have := (straddles_iff.mp hs).1
  omega

/-- A replacement that is not before a point ends behind it, or starts at it. -/
theorem lt_stop_or_eq_of_not_isBefore (h : ¬ change.isBefore which point = true) :
    point < change.span.stop ∨ change.span.start = point := by
  cases which with
  | start =>
    rw [isBefore_start_iff] at h
    omega
  | stop =>
    rw [isBefore_stop_iff] at h
    omega

/-- Behind a point, it lies inside the first replacement, or all start at it or later. -/
theorem straddles_head_or_le_start (h : Within 0 limit far)
    (hfar : ∀ c ∈ far.head?, ¬ c.isBefore which point = true) :
    (∃ change behind, far = change :: behind ∧ straddles point change = true) ∨
      ∀ c ∈ far, point ≤ c.span.start := by
  cases far with
  | nil => exact .inr fun c hc => absurd hc List.not_mem_nil
  | cons change behind =>
    obtain ⟨-, hforward, -, hbehind⟩ := within_cons.mp h
    have hbefore := lt_stop_or_eq_of_not_isBefore (hfar change rfl)
    by_cases hinside : straddles point change = true
    · exact .inl ⟨change, behind, rfl, hinside⟩
    · rw [straddles_iff] at hinside
      refine .inr (List.forall_mem_cons.mpr ⟨by omega, fun c hc => ?_⟩)
      have := hbehind.start_le c hc
      omega

/-- Behind the first replacement that ends behind a point all others do too. -/
theorem lt_stop_of_not_isBefore (h : Within 0 limit far)
    (hfar : ∀ c ∈ far.head?, ¬ c.isBefore .stop point = true) :
    ∀ c ∈ far, point < c.span.stop := by
  cases far with
  | nil => exact fun c hc => absurd hc List.not_mem_nil
  | cons change behind =>
    obtain ⟨-, -, -, hbehind⟩ := within_cons.mp h
    have hstop := hfar change rfl
    rw [isBefore_stop_iff] at hstop
    refine List.forall_mem_cons.mpr ⟨by omega, fun c hc => ?_⟩
    have := hbehind.start_le c hc
    have := hbehind.inOrder.forward c hc
    omega

/-- A point that is not inside the first replacement which is not before it is its own edge. -/
theorem edge_of_le_start (hnear : ∀ c ∈ near, c.span.stop ≤ point)
    (hfar : ∀ c ∈ far, point ≤ c.span.start) : edge which (near ++ far) point = point :=
  edge_of_not_straddles <| List.forall_mem_append.mpr
    ⟨fun c hc => not_straddles_of_stop_le (hnear c hc),
      fun c hc => not_straddles_of_le_start (hfar c hc)⟩

/-- A point that the replacements behind it start at or later is shifted no further. -/
theorem placeOfPoint_of_le_start (hfar : ∀ c ∈ far.head?, ¬ c.isBefore which point = true)
    (hstart : ∀ c ∈ far, point ≤ c.span.start) (shift : Int) :
    placeOfPoint which point shift far = point + shift := by
  cases far with
  | nil => rw [placeOfPoint]
  | cons change behind =>
    have := hstart change List.mem_cons_self
    rw [placeOfPoint, if_neg (hfar change rfl), if_neg (by omega)]

/-- A point inside the first replacement which is not before it goes to an end of that. -/
theorem placeOfPoint_of_straddles (h : ¬ change.isBefore which point = true)
    (hs : straddles point change = true) (shift : Int) :
    placeOfPoint which point shift (change :: far) = placeOfEnd which change + shift := by
  rw [placeOfPoint, if_neg h, if_pos (straddles_iff.mp hs).1]

/-- The start of a span parts the replacements in front of it from the others, and those in front
account for its place. -/
theorem exists_parts_start (h : Within 0 limit changes) (point : Nat) :
    ∃ near far, changes = near ++ far ∧
      (∀ c ∈ near, c.liesBefore (edge .start changes point) point = true) ∧
      (∀ c ∈ far, ¬ c.liesBefore (edge .start changes point) point = true) ∧
      Parts (edge .start changes point) near far ∧ edge .start changes point ≤ point ∧
      placeOfPoint .start point 0 changes =
        edge .start changes point + (added near - removed near) := by
  obtain ⟨near, far, rfl, hnear, hfar, hplace⟩ := exists_reached .start point changes
  have hstop : ∀ c ∈ near, c.span.stop ≤ point := fun c hc => (isBefore_start_iff.mp (hnear c hc)).1
  refine ⟨near, far, rfl, ?_⟩
  rw [hplace, Int.zero_add]
  rcases straddles_head_or_le_start h.behind hfar with ⟨change, behind, rfl, hs⟩ | hstart
  · -- the start snaps to that of the replacement that it lies in
    obtain ⟨hstart, hlt⟩ := straddles_iff.mp hs
    have hparts := h.inOrder.parts_start
    rw [edge_of_straddles (fun c hc => not_straddles_of_stop_le (hstop c hc)) hs, endOf]
    refine ⟨fun c hc => ?_, fun c hc hbefore => ?_, hparts, hstart.le, ?_⟩
    · have := hparts.before c hc
      exact liesBefore_iff.mpr ⟨this, by omega⟩
    · have hle := (liesBefore_iff.mp hbefore).1
      rcases List.mem_cons.mp hc with rfl | hc
      · omega
      · have := h.inOrder.parts_stop.behind c hc
        have := h.behind.inOrder.forward c (List.mem_cons_of_mem change hc)
        omega
    · rw [placeOfPoint_of_straddles (hfar change rfl) hs, placeOfEnd]
  · -- the start stays, with what follows at it or behind it
    rw [edge_of_le_start hstop hstart, placeOfPoint_of_le_start hfar hstart]
    refine ⟨fun c hc => ?_, fun c hc hbefore => ?_, ⟨hstop, hstart⟩, Nat.le_refl point, rfl⟩
    · exact liesBefore_iff.mpr (isBefore_start_iff.mp (hnear c hc))
    · obtain ⟨hle, hinserts⟩ := liesBefore_iff.mp hbefore
      have := hstart c hc
      have := h.behind.inOrder.forward c hc
      exact hinserts ⟨by omega, by omega⟩

/-- The end of a span parts the replacements behind it from the others, and the others account for its
place. -/
theorem exists_parts_stop (h : Within 0 limit changes) (hpoint : point ≤ limit) :
    ∃ near far, changes = near ++ far ∧
      (∀ c ∈ near, ¬ c.liesBehind (edge .stop changes point) point = true) ∧
      (∀ c ∈ far, c.liesBehind (edge .stop changes point) point = true) ∧
      Parts (edge .stop changes point) near far ∧ point ≤ edge .stop changes point ∧
      edge .stop changes point ≤ limit ∧
      placeOfPoint .stop point 0 changes =
        edge .stop changes point + (added near - removed near) := by
  obtain ⟨near, far, rfl, hnear, hfar, hplace⟩ := exists_reached .stop point changes
  have hstop : ∀ c ∈ near, c.span.stop ≤ point := fun c hc => isBefore_stop_iff.mp (hnear c hc)
  have hforward := h.inOrder.forward
  rw [hplace, Int.zero_add]
  rcases straddles_head_or_le_start h.behind hfar with ⟨change, behind, rfl, hs⟩ | hstart
  · -- the end snaps to that of the replacement that it lies in, which is then on the near side
    obtain ⟨hstart, hlt⟩ := straddles_iff.mp hs
    have hle := h.behind.le_stop change List.mem_cons_self
    have hparts := h.inOrder.parts_stop
    rw [edge_of_straddles (fun c hc => not_straddles_of_stop_le (hstop c hc)) hs, endOf]
    refine ⟨near ++ [change], behind, by simp, fun c hc hc' => ?_, fun c hc => ?_, hparts, hlt.le,
      hle, ?_⟩
    · have hle := (liesBehind_iff.mp hc').1
      rcases List.mem_append.mp hc with hc | hc
      · have := hforward c (List.mem_append_left _ hc)
        have := hstop c hc
        omega
      · obtain rfl := List.mem_singleton.mp hc
        omega
    · have := hparts.behind c hc
      exact liesBehind_iff.mpr ⟨this, by omega⟩
    · rw [placeOfPoint_of_straddles (hfar change rfl) hs, placeOfEnd]
      simp only [added, removed, List.map_append, List.map_singleton, List.sum_append_nat,
        List.sum_singleton]
      omega
  · -- the end stays, with what follows at it or behind it
    rw [edge_of_le_start hstop hstart, placeOfPoint_of_le_start hfar hstart]
    refine ⟨near, far, rfl, fun c hc hbehind => ?_, fun c hc => ?_, ⟨hstop, hstart⟩,
      Nat.le_refl point, hpoint, rfl⟩
    · obtain ⟨hle, hinserts⟩ := liesBehind_iff.mp hbehind
      have := hstop c hc
      have := hforward c (List.mem_append_left far hc)
      exact hinserts ⟨by omega, by omega⟩
    · refine liesBehind_iff.mpr ⟨hstart c hc, fun hinserts => ?_⟩
      have := lt_stop_of_not_isBefore h.behind hfar c hc
      omega

/-! ## Three parts of the replacements -/

theorem filter_eq_of_split {p : Segment Nat → Bool} (h : changes = near ++ far)
    (hnear : ∀ c ∈ near, p c = true) (hfar : ∀ c ∈ far, ¬ p c = true) :
    changes.filter p = near ∧ changes.filter (fun c => !p c) = far := by
  subst h
  rw [List.filter_append, List.filter_append, List.filter_eq_self.mpr hnear,
    List.filter_eq_nil_iff.mpr hfar, List.append_nil]
  refine ⟨rfl, ?_⟩
  rw [List.filter_eq_nil_iff.mpr (by simpa using hnear), List.nil_append,
    List.filter_eq_self.mpr (by simpa using hfar)]

/-- A span within a text parts the replacements in three, at the two ends of its hull. -/
structure PartedBy (span : Span Nat) (limit : Nat) (changes : List (Segment Nat)) : Prop where
  eq_append : changes =
    changesBefore span changes ++ changesInside span changes ++ changesBehind span changes
  start : Parts (hull span changes).start (changesBefore span changes) (changesInside span changes)
  stop : Parts (hull span changes).stop (changesBefore span changes ++ changesInside span changes)
    (changesBehind span changes)
  hull_start_le : (hull span changes).start ≤ span.start
  start_le_stop : span.start ≤ span.stop
  le_hull_stop : span.stop ≤ (hull span changes).stop
  hull_stop_le : (hull span changes).stop ≤ limit
  place_start : placeOfPoint .start span.start 0 changes = (hull span changes).start +
    (added (changesBefore span changes) - removed (changesBefore span changes))
  place_stop : placeOfPoint .stop span.stop 0 changes = (hull span changes).stop +
    (added (changesBefore span changes ++ changesInside span changes) -
      removed (changesBefore span changes ++ changesInside span changes))

theorem partedBy_of_within (h : Within 0 limit changes) {span : Span Nat}
    (hle : span.start ≤ span.stop) (hlimit : span.stop ≤ limit) : PartedBy span limit changes := by
  obtain ⟨near, far, hsplit, hbefore, hnotBefore, hparts, hstart, hplace⟩ :=
    exists_parts_start h span.start
  obtain ⟨near', far', hsplit', hnotBehind, hbehind, hparts', hstop, hstop', hplace'⟩ :=
    exists_parts_stop h hlimit
  obtain ⟨hnear, hfar⟩ := filter_eq_of_split hsplit hbefore hnotBefore
  obtain ⟨hnear', hfar'⟩ :=
    filter_eq_of_split (p := fun c => !c.liesBehind (hull span changes).stop span.stop) hsplit'
      (by simpa [hull] using hnotBehind) (by simpa [hull] using hbehind)
  simp only [Bool.not_not] at hfar'
  -- what lies in front of the span is on the near side of its end
  have hfront : near.filter (fun c => !c.liesBehind (hull span changes).stop span.stop) = near := by
    refine List.filter_eq_self.mpr fun c hc => ?_
    rw [Bool.not_eq_true', ← Bool.not_eq_true, liesBehind_iff]
    obtain ⟨hend, hinserts⟩ := liesBefore_iff.mp (hbefore c hc)
    have hforward := h.inOrder.forward c (hsplit ▸ List.mem_append_left far hc)
    rintro ⟨hend', -⟩
    change edge .stop changes span.stop ≤ c.span.start at hend'
    exact hinserts ⟨by omega, by omega⟩
  have hinside : changesInside span changes =
      far.filter fun c => !c.liesBehind (hull span changes).stop span.stop := by
    rw [← hfar, List.filter_filter]
    refine List.filter_congr fun c _ => ?_
    rw [Bool.and_comm]
    rfl
  have hnearStop : near' = changesBefore span changes ++ changesInside span changes := by
    rw [← hnear', hsplit, List.filter_append, ← hsplit, hfront, hinside]
    exact congrArg (· ++ _) hnear.symm
  have hnearStart : near = changesBefore span changes := hnear.symm
  have hfarStop : far' = changesBehind span changes := hfar'.symm
  subst hnearStop hnearStart hfarStop
  refine ⟨hsplit', ⟨hparts.before, fun c hc => ?_⟩, hparts', hstart, hle, hstop, hstop', hplace,
    hplace'⟩
  rw [hinside] at hc
  exact hparts.behind c (List.mem_filter.mp hc).1

namespace PartedBy

variable {span : Span Nat}

theorem hull_start_le_stop (h : PartedBy span limit changes) :
    (hull span changes).start ≤ (hull span changes).stop :=
  h.hull_start_le.trans (h.start_le_stop.trans h.le_hull_stop)

/-- Replacements in the span lie in its hull. -/
theorem inside (h : PartedBy span limit changes) (hmem : change ∈ changesInside span changes) :
    (hull span changes).start ≤ change.span.start ∧ change.span.stop ≤ (hull span changes).stop :=
  ⟨h.start.behind change hmem, h.stop.before change (List.mem_append_right _ hmem)⟩

/-- Insertions at the two ends of the span count as in it. -/
theorem mem_inside_of_insertsAt (h : PartedBy span limit changes) (hmem : change ∈ changes)
    (hinserts : insertsAt span.start change = true ∨ insertsAt span.stop change = true) :
    change ∈ changesInside span changes := by
  have hstart := h.hull_start_le
  have hle := h.start_le_stop
  have hstop := h.le_hull_stop
  rw [insertsAt_iff, insertsAt_iff] at hinserts
  have hbefore : ¬ change.liesBefore (hull span changes).start span.start = true := by
    rw [liesBefore_iff]
    omega
  have hbehind : ¬ change.liesBehind (hull span changes).stop span.stop = true := by
    rw [liesBehind_iff]
    omega
  exact List.mem_filter.mpr ⟨hmem, by simp [hbefore, hbehind]⟩

variable {text : List UInt8}

/-- The bytes up to the end of the hull are rewritten in front of it and in it. -/
theorem rewritten_hull (h : PartedBy span limit changes) (hwithin : Within 0 limit changes)
    (htext : text.length = limit) :
    rewritten 0 (text.take (hull span changes).stop)
        (changesBefore span changes ++ changesInside span changes) =
      rewritten 0 (text.take (hull span changes).start) (changesBefore span changes) ++
        rewritten (hull span changes).start
          ((text.take (hull span changes).stop).drop (hull span changes).start)
          (changesInside span changes) := by
  have hlength : 0 + (text.take (hull span changes).stop).length = (hull span changes).stop := by
    have := h.hull_stop_le
    rw [List.length_take]
    omega
  rw [h.eq_append] at hwithin
  rw [rewritten_append (hwithin.before h.stop) hlength (Nat.zero_le _) h.start, Nat.sub_zero,
    List.take_take, Nat.min_eq_left h.hull_start_le_stop]

/-- The bytes up to the end of the hull and those behind it are rewritten by themselves. -/
theorem rewritten_eq (h : PartedBy span limit changes) (hwithin : Within 0 limit changes)
    (htext : text.length = limit) :
    rewritten 0 text changes =
      rewritten 0 (text.take (hull span changes).stop)
          (changesBefore span changes ++ changesInside span changes) ++
        rewritten (hull span changes).stop (text.drop (hull span changes).stop)
          (changesBehind span changes) := by
  conv_lhs => rw [h.eq_append]
  rw [h.eq_append] at hwithin
  rw [rewritten_append hwithin (by omega) (Nat.zero_le _) h.stop, Nat.sub_zero]

end PartedBy

theorem length_rewritten_take {text : List UInt8} {cut : Nat} (hcut : cut ≤ text.length)
    (h : Within 0 cut near) :
    ((rewritten 0 (text.take cut) near).length : Int) = cut + (added near - removed near) := by
  have hlength := length_rewritten h ((Nat.zero_add _).trans (List.length_take_of_le hcut))
  rw [List.length_take_of_le hcut] at hlength
  omega

/-- The image runs from where the text in front of the hull ends, once rewritten, to where that of the
hull ends; neither clamp has anything to do. -/
theorem PartedBy.image_eq {text : List UInt8} {span : Span Nat} (h : PartedBy span limit changes)
    (hwithin : Within 0 limit changes) (htext : text.length = limit) :
    image span changes =
      ⟨(rewritten 0 (text.take (hull span changes).start) (changesBefore span changes)).length,
        (rewritten 0 (text.take (hull span changes).stop)
          (changesBefore span changes ++ changesInside span changes)).length⟩ ∧
    ((image span changes).start : Int) = placeOfPoint .start span.start 0 changes ∧
    ((image span changes).stop : Int) = placeOfPoint .stop span.stop 0 changes := by
  have hle := h.hull_start_le_stop
  have hle' := h.hull_stop_le
  have hhull := h.rewritten_hull hwithin htext
  rw [h.eq_append] at hwithin
  have hbefore := hwithin.before h.stop
  have hcut : (hull span changes).stop ≤ text.length := by omega
  have hstop := length_rewritten_take hcut hbefore
  have hstart := length_rewritten_take (hle.trans hcut) (hbefore.before h.start)
  rw [← h.place_stop] at hstop
  rw [← h.place_start] at hstart
  have himage : image span changes =
      ⟨(rewritten 0 (text.take (hull span changes).start) (changesBefore span changes)).length,
        (rewritten 0 (text.take (hull span changes).stop)
          (changesBefore span changes ++ changesInside span changes)).length⟩ := by
    unfold image imageBy
    dsimp only
    rw [imageOfPoint_eq_toNat, imageOfPoint_eq_toNat, ← hstart, ← hstop, Int.toNat_natCast,
      Int.toNat_natCast, hhull, List.length_append, Nat.max_eq_right (Nat.le_add_right _ _)]
  rw [himage]
  exact ⟨rfl, hstart, hstop⟩

/-! ## The parts of the result -/

/-- An end of a span that lies strictly inside a replaced span goes to that end of it. -/
theorem hull_of_straddles (h : InOrder changes) (span : Span Nat) (hmem : change ∈ changes) :
    (straddles span.start change = true → (hull span changes).start = change.span.start) ∧
      (straddles span.stop change = true → (hull span changes).stop = change.span.stop) :=
  ⟨edge_eq_of_straddles h hmem, edge_eq_of_straddles h hmem⟩

section Result

variable {text : List UInt8} {span : Span Nat} (h : PartedBy span limit changes)
  (hwithin : Within 0 limit changes) (htext : text.length = limit)
include h hwithin htext

/-- The image is a span of the result. -/
theorem PartedBy.image_in_result : (image span changes).start ≤ (image span changes).stop ∧
    (image span changes).stop ≤ (rewritten 0 text changes).length := by
  rw [(h.image_eq hwithin htext).1]
  constructor
  · rw [h.rewritten_hull hwithin htext, List.length_append]
    exact Nat.le_add_right _ _
  · rw [h.rewritten_eq hwithin htext, List.length_append]
    exact Nat.le_add_right _ _

/-- In front of the image stands the text in front of the hull, rewritten. -/
theorem PartedBy.take_image : (rewritten 0 text changes).take (image span changes).start =
    rewritten 0 (text.take (hull span changes).start) (changesBefore span changes) := by
  rw [(h.image_eq hwithin htext).1, h.rewritten_eq hwithin htext, h.rewritten_hull hwithin htext,
    List.append_assoc, List.take_left' rfl]

/-- Behind the image stands the text behind the hull, rewritten. -/
theorem PartedBy.drop_image : (rewritten 0 text changes).drop (image span changes).stop =
    rewritten (hull span changes).stop (text.drop (hull span changes).stop)
      (changesBehind span changes) := by
  rw [(h.image_eq hwithin htext).1, h.rewritten_eq hwithin htext, List.drop_left' rfl]

/-- **The image is the text of the hull, rewritten.** -/
theorem PartedBy.slice_image :
    ((rewritten 0 text changes).take (image span changes).stop).drop (image span changes).start =
      rewritten (hull span changes).start
        ((text.take (hull span changes).stop).drop (hull span changes).start)
        (changesInside span changes) := by
  rw [(h.image_eq hwithin htext).1, h.rewritten_eq hwithin htext, List.take_left' rfl,
    h.rewritten_hull hwithin htext, List.drop_left' rfl]

end Result

/-- In a text that 64-bit signed offsets reach, words lead to the same image. -/
theorem wordImage_eq_of_within (h : Within 0 limit changes) {span : Span Nat}
    (hle : span.start ≤ span.stop) (hstop : span.stop ≤ limit) (hlimit : limit < signBit) :
    wordImage span changes = image span changes := by
  refine wordImage_eq_image ⟨by omega, by omega⟩ fun c hc => ?_
  have := h.inOrder.forward c hc
  have := h.le_stop c hc
  exact ⟨by omega, by omega⟩

/-- **What lies in the image of a span.** For a text with replacements made, and a span of the text, let
the hull be the span with each end that lies strictly inside a replaced span moved to that end of it;
at most one replacement can have it inside. The replacements are those in front of the hull, those in it
and those behind it, in this order; insertions at an end of the span are among those in it. Then the
image is a span of the result. In front of it stands the text in front of the hull with its
replacements made, behind it the text behind the hull with its own, and the image is the text of the
hull with the replacements in it. The running shift leads to the ends of the image as they are, with
nothing held at zero or at the start, and for a text that 64-bit signed offsets reach, words do. -/
theorem image_spec {text out : String} {changes : List (Segment Nat)} {span : Span Nat}
    (h : splice text changes = .ok out) (hle : span.start ≤ span.stop)
    (hstop : span.stop ≤ text.utf8ByteSize) :
    (∀ c ∈ changes, (straddles span.start c = true → (hull span changes).start = c.span.start) ∧
      (straddles span.stop c = true → (hull span changes).stop = c.span.stop)) ∧
    changes =
      changesBefore span changes ++ changesInside span changes ++ changesBehind span changes ∧
    (∀ c ∈ changesInside span changes,
      (hull span changes).start ≤ c.span.start ∧ c.span.stop ≤ (hull span changes).stop) ∧
    (∀ c ∈ changes, insertsAt span.start c = true ∨ insertsAt span.stop c = true →
      c ∈ changesInside span changes) ∧
    bytes out.toList = rewritten 0 (bytes text.toList) changes ∧
    (image span changes).start ≤ (image span changes).stop ∧
    (image span changes).stop ≤ out.utf8ByteSize ∧
    (bytes out.toList).take (image span changes).start =
      rewritten 0 ((bytes text.toList).take (hull span changes).start)
        (changesBefore span changes) ∧
    (bytes out.toList).drop (image span changes).stop =
      rewritten (hull span changes).stop ((bytes text.toList).drop (hull span changes).stop)
        (changesBehind span changes) ∧
    ((bytes out.toList).take (image span changes).stop).drop (image span changes).start =
      rewritten (hull span changes).start
        (((bytes text.toList).take (hull span changes).stop).drop (hull span changes).start)
        (changesInside span changes) ∧
    ((image span changes).start : Int) = placeOfPoint .start span.start 0 changes ∧
    ((image span changes).stop : Int) = placeOfPoint .stop span.stop 0 changes ∧
    (text.utf8ByteSize < signBit → wordImage span changes = image span changes) := by
  have hwithin := within_of_splice h
  have hparted := partedBy_of_within hwithin hle hstop
  have htext := length_bytes_toList text
  obtain ⟨-, hplaces⟩ := hparted.image_eq hwithin htext
  obtain ⟨hforward, hsize⟩ := hparted.image_in_result hwithin htext
  rw [← length_bytes_toList out, bytes_of_splice h]
  exact ⟨fun c hc => hull_of_straddles hwithin.inOrder span hc, hparted.eq_append,
    fun c => hparted.inside, fun c => hparted.mem_inside_of_insertsAt, rfl, hforward, hsize,
    hparted.take_image hwithin htext, hparted.drop_image hwithin htext,
    hparted.slice_image hwithin htext, hplaces.1, hplaces.2,
    wordImage_eq_of_within hwithin hle hstop⟩

/-- Replacements that touch one another, insert at one point and cross the start of a span, which lies
inside a character. -/
def crowdedChanges : List (Segment Nat) :=
  [⟨⟨0, 1⟩, "xyz"⟩, ⟨⟨1, 1⟩, "<"⟩, ⟨⟨1, 4⟩, "É"⟩, ⟨⟨5, 5⟩, "+"⟩, ⟨⟨6, 6⟩, "|"⟩, ⟨⟨6, 6⟩, "!"⟩,
    ⟨⟨6, 9⟩, "-"⟩]

/-- The start goes back to the replacement that crosses it, and both insertions at the end are in the
image. -/
theorem crowdedChanges_image :
    splice "aébcdefgh" crowdedChanges = .ok "xyz<Éc+d|!-h" ∧
    hull ⟨2, 6⟩ crowdedChanges = ⟨1, 6⟩ ∧ image ⟨2, 6⟩ crowdedChanges = ⟨4, 11⟩ ∧
    ((bytes "xyz<Éc+d|!-h".toList).take 11).drop 4 = bytes "Éc+d|!".toList := by
  have hsplice : splice "aébcdefgh" crowdedChanges = .ok "xyz<Éc+d|!-h" := by rfl
  have himage : image ⟨2, 6⟩ crowdedChanges = ⟨4, 11⟩ := by decide +kernel
  obtain ⟨-, -, -, -, -, -, -, -, -, hinside, -⟩ :=
    @image_spec _ _ _ ⟨2, 6⟩ hsplice (by decide) (by decide)
  rw [himage] at hinside
  exact ⟨hsplice, by decide +kernel, himage, hinside.trans (by decide +kernel)⟩

end Retrace.Segment
