import Mathlib.Data.List.DropRight
import Mathlib.Data.List.Forall2
import Retrace.Trace.File

/-!
# Arrays of natural numbers in JSON text

What the reader takes for an array of natural numbers, against the grammar: numerals without a sign, a
point, an exponent or leading zeros, between brackets and separated by commas, with white space anywhere
around them.

* `IsArray`: the texts of such arrays.
* `exists_readElements`, `exists_of_readElements`: the reader and the grammar agree on the elements.
* `fourSizes?_read?_eq_some_iff`: when four numbers below `2 ^ 64` are read out of a text.
-/

namespace Retrace

namespace Json

/-! ## The grammar -/

/-- Decimal digits that stand for a number. -/
structure IsNumeral (ds : List Char) (n : Nat) : Prop where
  ne_nil : ds ≠ []
  digits : ∀ c ∈ ds, c.isDigit = true
  value : Nat.ofDigitChars 10 ds 0 = n

/-- The numeral of a natural number in JSON, which begins with a zero only when that is all of it. -/
structure IsNatural (ds : List Char) (n : Nat) : Prop extends IsNumeral ds n where
  leading : ds.head? = some '0' → ds = ['0']

/-- A text of white space only. -/
def IsGap (w : List Char) : Prop := ∀ c ∈ w, isSpace c = true

/-- Natural numbers separated by commas, at least one. -/
inductive AreElements : List Nat → List Char → Prop
  | last {n : Nat} {w ds w' : List Char} (hw : IsGap w) (hds : IsNatural ds n) (hw' : IsGap w') :
      AreElements [n] (w ++ (ds ++ w'))
  | cons {n : Nat} {ns : List Nat} {w ds w' s : List Char} (hw : IsGap w) (hds : IsNatural ds n)
      (hw' : IsGap w') (h : AreElements ns s) : AreElements (n :: ns) (w ++ (ds ++ (w' ++ ',' :: s)))

/-- A text that holds an array of natural numbers, at least one. -/
def IsArray (ns : List Nat) (s : List Char) : Prop :=
  ∃ w body w', IsGap w ∧ AreElements ns body ∧ IsGap w' ∧ s = w ++ '[' :: (body ++ ']' :: w')

/-! ## White space -/

variable {w s rest : List Char}

theorem isDigit_eq_false_of_isSpace {c : Char} (hc : isSpace c = true) : c.isDigit = false := by
  simp only [isSpace, Bool.or_eq_true, beq_iff_eq] at hc
  rcases hc with ((rfl | rfl) | rfl) | rfl <;> rfl

theorem skipSpace_append (hw : IsGap w) (s : List Char) : skipSpace (w ++ s) = skipSpace s :=
  List.dropWhile_append_of_pos hw

theorem skipSpace_cons {c : Char} (hc : isSpace c = false) (s : List Char) :
    skipSpace (c :: s) = c :: s := by
  rw [skipSpace, List.dropWhile_cons_of_neg (by simp [hc])]

theorem skipSpace_skipSpace (s : List Char) : skipSpace (skipSpace s) = skipSpace s :=
  List.dropWhile_idempotent isSpace s

/-- What is skipped is white space. -/
theorem exists_skipSpace (s : List Char) : ∃ w, IsGap w ∧ s = w ++ skipSpace s :=
  ⟨s.takeWhile isSpace, fun _ hc => List.mem_takeWhile_imp hc, List.takeWhile_append_dropWhile.symm⟩

theorem isGap_of_skipSpace (h : skipSpace s = []) : IsGap s := List.dropWhile_eq_nil_iff.mp h

/-! ## Numbers -/

/-- A text with which a natural number cannot go on. -/
def EndsNumber (s : List Char) : Prop :=
  ∀ c ∈ s.head?, c.isDigit = false ∧ c ≠ '.' ∧ c ≠ 'e' ∧ c ≠ 'E'

theorem digitsValue_map (ds : List Char) :
    digitsValue (ds.map fun c => c.toNat - '0'.toNat) = Nat.ofDigitChars 10 ds 0 :=
  List.foldl_map

theorem readDigits_append {ds : List Char} (hds : ∀ c ∈ ds, c.isDigit = true)
    (hs : ∀ c ∈ s.head?, c.isDigit = false) :
    readDigits (ds ++ s) = (ds.map fun c => c.toNat - '0'.toNat, s) := by
  have hnone : s.takeWhile Char.isDigit = [] ∧ s.dropWhile Char.isDigit = s := by
    cases s with
    | nil => exact ⟨rfl, rfl⟩
    | cons c s => simp [hs c rfl]
  rw [readDigits, List.takeWhile_append_of_pos hds, List.dropWhile_append_of_pos hds, hnone.1,
    hnone.2, List.append_nil]

theorem eq_zero_of_digit {c : Char} (hc : c.isDigit = true) (h : c.toNat - '0'.toNat = 0) :
    c = '0' := by
  have hle : 48 ≤ c.toNat := by
    simp only [Char.isDigit, Bool.and_eq_true, decide_eq_true_eq, ge_iff_le, UInt32.le_iff_toNat_le] at hc
    exact hc.1
  have hzero : '0'.toNat = 48 := rfl
  exact Char.toNat_inj.mp (by omega)

theorem readNumber_append {ds : List Char} {n : Nat} (hds : IsNatural ds n) (hs : EndsNumber s) :
    readNumber (ds ++ s) = some (⟨false, ds.map fun c => c.toNat - '0'.toNat, [], none⟩, s) := by
  have hdigits := readDigits_append hds.digits fun c hc => (hs c hc).1
  have hfraction : readFraction s = some ([], s) := by
    unfold readFraction
    split
    · exact absurd rfl (hs '.' rfl).2.1
    · rfl
  have hexponent : readExponent? s = some (none, s) := by
    unfold readExponent?
    split
    · exact absurd rfl (hs 'e' rfl).2.2.1
    · exact absurd rfl (hs 'E' rfl).2.2.2
    · rfl
  have hmagnitude : readMagnitude false (ds ++ s) =
      some (⟨false, ds.map fun c => c.toNat - '0'.toNat, [], none⟩, s) := by
    unfold readMagnitude
    rw [hdigits]
    dsimp only
    split
    · next h => exact absurd (List.map_eq_nil_iff.mp h) hds.ne_nil
    · next h =>
      obtain ⟨c, t, rfl, hc, ht⟩ := List.map_eq_cons_iff.mp h
      have hzero := eq_zero_of_digit (hds.digits c List.mem_cons_self) hc
      obtain ⟨-, rfl⟩ := List.cons_eq_cons.mp (hds.leading (congrArg some hzero))
      cases ht
    · simp [hfraction, hexponent]
  unfold readNumber
  split
  · next rest h =>
    obtain ⟨c, t, rfl⟩ := List.exists_cons_of_ne_nil hds.ne_nil
    obtain ⟨rfl, -⟩ := List.cons_eq_cons.mp h
    exact absurd (hds.digits '-' List.mem_cons_self) (by decide)
  · exact hmagnitude

theorem eq_of_readFraction (h : readFraction s = some ([], rest)) : rest = s := by
  unfold readFraction at h
  split at h
  · dsimp only at h
    split at h
    · cases h
    · next hdigits =>
      obtain ⟨hnil, -⟩ := Prod.mk.inj (Option.some.inj h)
      simp [hnil] at hdigits
  · cases h
    rfl

theorem eq_of_readExponent? (h : readExponent? s = some (none, rest)) : rest = s := by
  unfold readExponent? at h
  split at h
  · simp at h
  · simp at h
  · cases h
    rfl

/-- Digits that the reader takes for a whole number are the numeral of one. -/
theorem of_readMagnitude {negative : Bool} {m : Number}
    (h : readMagnitude negative s = some (m, rest)) : m.negative = negative ∧
      (m.isInteger = true → ∃ ds, IsNatural ds (digitsValue m.integer) ∧ s = ds ++ rest) := by
  unfold readMagnitude readDigits at h
  dsimp only at h
  split at h
  · cases h
  · cases h
  · next hne hleading =>
    simp only [Option.bind_eq_bind, Option.bind_eq_some_iff] at h
    obtain ⟨⟨fraction, t⟩, hfraction, ⟨exponent, u⟩, hexponent, h⟩ := h
    cases h
    refine ⟨rfl, fun hinteger => ⟨s.takeWhile Char.isDigit, ⟨⟨?_, ?_, ?_⟩, ?_⟩, ?_⟩⟩
    · intro hnil
      exact hne (by rw [hnil]; rfl)
    · exact fun c hc => List.mem_takeWhile_imp hc
    · exact (digitsValue_map _).symm
    · intro hhead
      cases hds : s.takeWhile Char.isDigit with
      | nil => rw [hds] at hhead; cases hhead
      | cons c ds =>
        rw [hds] at hhead hleading
        cases hhead
        cases ds with
        | nil => rfl
        | cons d ds => exact absurd rfl (hleading (d.toNat - '0'.toNat) _)
    · simp only [Number.isInteger, Bool.and_eq_true, List.isEmpty_iff, Option.isNone_iff_eq_none]
        at hinteger
      obtain ⟨rfl, rfl⟩ := hinteger
      rw [eq_of_readExponent? hexponent, eq_of_readFraction hfraction,
        List.takeWhile_append_dropWhile]

theorem exists_of_readNumber {m : Number} (h : readNumber s = some (m, rest))
    (hinteger : m.isInteger = true) (hsign : m.negative = false) :
    ∃ ds, IsNatural ds (digitsValue m.integer) ∧ s = ds ++ rest := by
  unfold readNumber at h
  split at h
  · cases hsign.symm.trans (of_readMagnitude h).1
  · exact (of_readMagnitude h).2 hinteger

theorem value?_eq_natural_iff {m : Number} {n : Nat} : m.value? = some (.natural n) ↔
    n < UInt64.size ∧ m.isInteger = true ∧ m.negative = false ∧ digitsValue m.integer = n := by
  unfold Number.value?
  dsimp only
  split
  · next h =>
    simp only [Bool.and_eq_true, Bool.not_eq_true', decide_eq_true_eq] at h
    obtain ⟨⟨hinteger, hsign⟩, hlt⟩ := h
    constructor
    · rintro ⟨⟩
      exact ⟨hlt, hinteger, hsign, rfl⟩
    · rintro ⟨-, -, -, rfl⟩
      rfl
  · next h =>
    refine ⟨fun hnatural => ?_, fun ⟨hlt, hinteger, hsign, hvalue⟩ => absurd ?_ h⟩
    · split at hnatural
      · cases hnatural
      · obtain ⟨_, -, hfloat⟩ := Option.map_eq_some_iff.mp hnatural
        cases hfloat
    · simp [hinteger, hsign, hvalue, hlt]

/-- A value that is a number without a sign, a point and an exponent. -/
def IsWhole (j : Json) (n : Nat) : Prop :=
  ∃ m : Number, j = .number m ∧ m.isInteger = true ∧ m.negative = false ∧ digitsValue m.integer = n

theorem IsWhole.unique {j : Json} {n k : Nat} (hn : j.IsWhole n) (hk : j.IsWhole k) : n = k := by
  obtain ⟨m, rfl, -, -, rfl⟩ := hn
  obtain ⟨m', h, -, -, rfl⟩ := hk
  cases h
  rfl

/-- The numbers of 64 bits are the whole ones that are small enough. -/
theorem size?_eq_some_iff {j : Json} {n : Nat} :
    j.size? = some n ↔ n < UInt64.size ∧ j.IsWhole n := by
  constructor
  · intro h
    unfold size? natural? at h
    split at h
    · next m =>
      split at h
      · next k hk =>
        split at h
        · cases h
          obtain ⟨hlt, hm⟩ := value?_eq_natural_iff.mp hk
          exact ⟨hlt, m, rfl, hm⟩
        · cases h
      · cases h
    · cases h
  · rintro ⟨hlt, m, rfl, hm⟩
    simp [size?, natural?, value?_eq_natural_iff.mpr ⟨hlt, hm⟩, hlt]

/-! ## Elements -/

theorem readValue_skipSpace (fuel : Nat) (s : List Char) :
    readValue fuel (skipSpace s) = readValue fuel s := by
  cases fuel with
  | zero => rfl
  | succ fuel => rw [readValue, readValue, skipSpace_skipSpace]

theorem readElements_skipSpace (fuel : Nat) (s : List Char) :
    readElements fuel (skipSpace s) = readElements fuel s := by
  cases fuel with
  | zero => rfl
  | succ fuel => rw [readElements, readElements, readValue_skipSpace]

theorem readValue_natural {ds : List Char} {n : Nat} (hw : IsGap w) (hds : IsNatural ds n)
    (hs : EndsNumber s) (fuel : Nat) : readValue (fuel + 1) (w ++ (ds ++ s)) =
      some (.number ⟨false, ds.map fun c => c.toNat - '0'.toNat, [], none⟩, s) := by
  obtain ⟨c, t, rfl⟩ := List.exists_cons_of_ne_nil hds.ne_nil
  have hc := hds.digits c List.mem_cons_self
  have hspace : isSpace c = false := by
    cases h : isSpace c with
    | true => rw [isDigit_eq_false_of_isSpace h] at hc; cases hc
    | false => rfl
  rw [readValue, skipSpace_append hw, List.cons_append, skipSpace_cons hspace, ← List.cons_append]
  split
  case h_7 => rw [readNumber_append hds hs]; rfl
  all_goals
    next h =>
    obtain ⟨rfl, -⟩ := List.cons_eq_cons.mp h
    exact absurd hc (by decide)

theorem endsNumber_append {c : Char} (hw : IsGap w) (hc : c = ',' ∨ c = ']') (s : List Char) :
    EndsNumber (w ++ c :: s) := by
  cases w with
  | nil =>
    rintro d ⟨⟩
    rcases hc with rfl | rfl <;> decide
  | cons d w =>
    rintro d ⟨⟩
    have hspace := hw d List.mem_cons_self
    refine ⟨isDigit_eq_false_of_isSpace hspace, ?_, ?_, ?_⟩ <;>
      (rintro rfl; exact absurd hspace (by decide))

theorem IsNatural.isWhole {ds : List Char} {n : Nat} (h : IsNatural ds n) :
    IsWhole (.number ⟨false, ds.map fun c => c.toNat - '0'.toNat, [], none⟩) n :=
  ⟨_, rfl, rfl, rfl, (digitsValue_map ds).trans h.value⟩

/-- **The elements of the grammar are read.** -/
theorem exists_readElements {ns : List Nat} {body : List Char} (h : AreElements ns body)
    {fuel : Nat} (hfuel : body.length < fuel) (rest : List Char) :
    ∃ js, readElements fuel (body ++ ']' :: rest) = some (js, rest) ∧ List.Forall₂ IsWhole js ns := by
  induction h generalizing fuel with
  | @last n w ds w' hw hds hw' =>
    have hpos := List.length_pos_iff.mpr hds.ne_nil
    obtain ⟨fuel, rfl⟩ : ∃ k, fuel = k + 2 := ⟨fuel - 2, by simp at hfuel; omega⟩
    refine ⟨_, ?_, .cons hds.isWhole .nil⟩
    rw [readElements, List.append_assoc, List.append_assoc,
      readValue_natural hw hds (endsNumber_append hw' (.inr rfl) rest)]
    simp [skipSpace_append hw', skipSpace_cons (c := ']') rfl]
  | @cons n ns w ds w' s hw hds hw' h ih =>
    obtain ⟨fuel, rfl⟩ : ∃ k, fuel = k + 2 := ⟨fuel - 2, by simp at hfuel; omega⟩
    have hless : s.length < fuel + 1 := by simp at hfuel; omega
    obtain ⟨js, hjs, hwhole⟩ := ih hless
    refine ⟨_, ?_, .cons hds.isWhole hwhole⟩
    rw [readElements, List.append_assoc, List.append_assoc, List.append_assoc, List.cons_append,
      readValue_natural hw hds (endsNumber_append hw' (.inl rfl) (s ++ ']' :: rest))]
    simp [skipSpace_append hw', skipSpace_cons (c := ',') rfl, hjs]

theorem readNumber_of_readValue {fuel : Nat} {m : Number}
    (h : readValue fuel s = some (.number m, rest)) : readNumber (skipSpace s) = some (m, rest) := by
  cases fuel with
  | zero => cases h
  | succ fuel =>
    rw [readValue] at h
    split at h
    case h_7 =>
      obtain ⟨⟨m', rest'⟩, hnumber, heq⟩ := Option.map_eq_some_iff.mp h
      cases heq
      exact hnumber
    case h_5 | h_6 => split at h <;> simp at h
    all_goals simp at h

theorem readElements_of_readValue {fuel : Nat} {js : List Json}
    (h : readValue fuel s = some (.array js, rest)) (hne : js ≠ []) :
    ∃ fuel' body, skipSpace s = '[' :: body ∧ readElements fuel' body = some (js, rest) := by
  cases fuel with
  | zero => cases h
  | succ fuel =>
    rw [readValue] at h
    split at h
    case h_5 body hs =>
      split at h
      · cases h
        exact absurd rfl hne
      · obtain ⟨⟨js', rest'⟩, helements, heq⟩ := Option.map_eq_some_iff.mp h
        cases heq
        exact ⟨fuel, body, hs, (readElements_skipSpace fuel body).symm.trans helements⟩
    case h_6 => split at h <;> simp at h
    all_goals simp at h

theorem readElements_bracket (fuel : Nat) (s : List Char) : readElements fuel (']' :: s) = none := by
  have hnumber : readNumber (']' :: s) = none := by
    simp [readNumber, readMagnitude, readDigits]
  rcases fuel with _ | _ | fuel
  · rfl
  · rfl
  · rw [readElements, readValue, skipSpace_cons rfl]
    simp [hnumber]

theorem readValue_of_readElements {fuel : Nat} {body : List Char} {js : List Json}
    (hs : skipSpace s = '[' :: body) (h : readElements fuel body = some (js, rest)) :
    readValue (fuel + 1) s = some (.array js, rest) := by
  rw [← readElements_skipSpace] at h
  simp only [readValue, hs]
  split
  · next hclose =>
    rw [hclose, readElements_bracket] at h
    cases h
  · rw [h]
    rfl

/-- **What is read as natural numbers follows the grammar.** -/
theorem exists_of_readElements {fuel : Nat} {js : List Json} {ns : List Nat}
    (h : readElements fuel s = some (js, rest)) (hwhole : List.Forall₂ IsWhole js ns) :
    ∃ body, AreElements ns body ∧ s = body ++ ']' :: rest := by
  induction fuel generalizing s js ns with
  | zero => cases h
  | succ fuel ih =>
    rw [readElements] at h
    simp only [Option.bind_eq_bind, Option.bind_eq_some_iff] at h
    obtain ⟨⟨value, t⟩, hvalue, h⟩ := h
    obtain ⟨w, hw, hs⟩ := exists_skipSpace s
    obtain ⟨w', hw', ht⟩ := exists_skipSpace t
    have hnumeral {n : Nat} (hn : value.IsWhole n) :
        ∃ ds, IsNatural ds n ∧ skipSpace s = ds ++ t := by
      obtain ⟨m, rfl, hinteger, hsign, rfl⟩ := hn
      exact exists_of_readNumber (readNumber_of_readValue hvalue) hinteger hsign
    split at h
    · next hclose =>
      cases h
      cases hwhole with
      | cons hn hnil =>
        cases hnil
        obtain ⟨ds, hds, hread⟩ := hnumeral hn
        refine ⟨_, .last hw hds hw', ?_⟩
        rw [hs, hread, ht, hclose, List.append_assoc, List.append_assoc]
    · next hcomma =>
      obtain ⟨⟨js', rest'⟩, helements, heq⟩ := Option.map_eq_some_iff.mp h
      cases heq
      cases hwhole with
      | cons hn hns =>
        obtain ⟨body, hbody, hrest⟩ := ih helements hns
        obtain ⟨ds, hds, hread⟩ := hnumeral hn
        refine ⟨_, .cons hw hds hw' hbody, ?_⟩
        rw [hs, hread, ht, hcomma, hrest]
        simp
    · cases h

/-- The text of an array is read as its elements. -/
theorem read?_of_isArray {ns : List Nat} {text : String} (h : IsArray ns text.toList) :
    ∃ js, read? text = some (.array js) ∧ List.Forall₂ IsWhole js ns := by
  obtain ⟨w, body, w', hw, hbody, hw', htext⟩ := h
  have hfuel : body.length < 2 * text.toList.length + 1 := by
    rw [htext]
    simp
    omega
  obtain ⟨js, hjs, hwhole⟩ := exists_readElements hbody hfuel w'
  have hopen : skipSpace text.toList = '[' :: (body ++ ']' :: w') := by
    rw [htext, skipSpace_append hw, skipSpace_cons rfl]
  have hend : skipSpace w' = [] := List.dropWhile_eq_nil_iff.mpr hw'
  refine ⟨js, ?_, hwhole⟩
  simp [read?, readValue_of_readElements hopen hjs, hend]

/-- A text that is read as whole numbers, at least one, holds an array of them. -/
theorem isArray_of_read? {ns : List Nat} {text : String} {js : List Json}
    (h : read? text = some (.array js)) (hwhole : List.Forall₂ IsWhole js ns) (hne : ns ≠ []) :
    IsArray ns text.toList := by
  unfold read? at h
  simp only [Option.bind_eq_bind, Option.bind_eq_some_iff] at h
  obtain ⟨⟨value, rest⟩, hvalue, h⟩ := h
  split at h
  · next hend =>
    cases h
    have hjs : js ≠ [] := by
      rintro rfl
      exact hne (List.forall₂_nil_left_iff.mp hwhole)
    obtain ⟨fuel, s, hopen, helements⟩ := readElements_of_readValue hvalue hjs
    obtain ⟨body, hbody, hs⟩ := exists_of_readElements helements hwhole
    obtain ⟨w, hw, htext⟩ := exists_skipSpace text.toList
    exact ⟨w, body, rest, hw, hbody, isGap_of_skipSpace (List.isEmpty_iff.mp hend),
      by rw [← hs, ← hopen, ← htext]⟩
  · cases h

/-- A text holds one array at most. -/
theorem IsArray.unique {ns ms : List Nat} {s : List Char} (hn : IsArray ns s) (hm : IsArray ms s) :
    ns = ms := by
  have htext : s = (String.ofList s).toList := String.toList_ofList.symm
  rw [htext] at hn hm
  obtain ⟨js, hjs, hwhole⟩ := read?_of_isArray hn
  obtain ⟨js', hjs', hwhole'⟩ := read?_of_isArray hm
  cases hjs.symm.trans hjs'
  clear hjs hjs' hn hm
  induction hwhole generalizing ms with
  | nil => exact (List.forall₂_nil_left_iff.mp hwhole').symm
  | cons h _ ih =>
    obtain ⟨m, ms, h', hrest, rfl⟩ := List.forall₂_cons_left_iff.mp hwhole'
    rw [h.unique h', ih hrest]

end Json

/-- **When four numbers below `2 ^ 64` are read out of a text.** -/
theorem fourSizes?_read?_eq_some_iff {text : String} {a b c d : Nat} :
    (Json.read? text).bind fourSizes? = some (a, b, c, d) ↔
      Json.IsArray [a, b, c, d] text.toList ∧ ∀ n ∈ [a, b, c, d], n < UInt64.size := by
  constructor
  · intro h
    obtain ⟨j, hread, hfour⟩ := Option.bind_eq_some_iff.mp h
    unfold fourSizes? at hfour
    split at hfour
    · next ja jb jc jd =>
      simp only [Option.bind_eq_bind, Option.bind_eq_some_iff, Json.size?_eq_some_iff] at hfour
      obtain ⟨_, ⟨ha, hja⟩, _, ⟨hb, hjb⟩, _, ⟨hc, hjc⟩, _, ⟨hd, hjd⟩, heq⟩ := hfour
      cases heq
      refine ⟨Json.isArray_of_read? hread (.cons hja (.cons hjb (.cons hjc (.cons hjd .nil)))) ?_, ?_⟩
      · simp
      · simp [ha, hb, hc, hd]
    · cases hfour
  · rintro ⟨harray, hlt⟩
    obtain ⟨js, hread, hwhole⟩ := Json.read?_of_isArray harray
    simp only [List.forall_mem_cons, List.not_mem_nil, false_implies, implies_true, and_true] at hlt
    obtain ⟨ha, hb, hc, hd⟩ := hlt
    obtain _ | ⟨hja, _ | ⟨hjb, _ | ⟨hjc, _ | ⟨hjd, _ | _⟩⟩⟩⟩ := hwhole
    simp [hread, fourSizes?, Json.size?_eq_some_iff.mpr ⟨ha, hja⟩, Json.size?_eq_some_iff.mpr ⟨hb, hjb⟩,
      Json.size?_eq_some_iff.mpr ⟨hc, hjc⟩, Json.size?_eq_some_iff.mpr ⟨hd, hjd⟩]

end Retrace
