import Retrace.Proofs.CallForest

/-!
# What a call tree shows

The tree of a list of steps and the table of its calls are the same data. A builder's rows are the
table of the steps it has recorded, whatever is still open; one step keeps that up, so a run does, and
closing the chain at the end loses no row and no event.

* `CallTree.Builder.Built`: the invariant; `Built.exists_record` keeps it up over one step.
* `CallTree.Builder.exists_recordAll`: it holds after every list whose returns are all matched.
* `CallTree.ofSteps_of_firstExcess`: a return too many is reported where it stands.
* `CallTree.flat_of_ofSteps`, `CallTree.events_of_ofSteps`: the tree shows the table and the events.
* `CallTree.ofSteps_spec`: all of it for the steps alone.
-/

namespace Retrace

namespace CallTree

open Call

namespace Builder

/-! ## The invariant -/

/-- The rows of a builder. -/
def rows (b : Builder) : List CallRow := closedRows 0 b.roots ++ openRows 0 b.opened

/-- The events of a builder. -/
def events (b : Builder) : List Step := eventsOf b.roots ++ openEvents b.opened

/-- A builder holds what the steps recorded in it say of their calls. -/
structure Built (steps : List Step) (b : Builder) : Prop where
  nextId : b.nextId = invocations steps
  height : (b.opened.length : Int) = balance steps
  rows : b.rows = callTable steps
  events : b.events = steps.filter Step.isCallEvent
  running : ∀ c ∈ b.opened, c.returns = []
  topLevel : b.roots.length + min b.opened.length 1 = topLevelCalls steps

theorem built_empty : Built [] empty where
  nextId := rfl
  height := rfl
  rows := rfl
  events := rfl
  running := fun _ h => absurd h List.not_mem_nil
  topLevel := rfl

variable {steps : List Step} {s : Step} {b : Builder} (index : Nat)

/-! ## One step -/

/-- A step that neither makes a call nor ends one can only change the innermost call. -/
theorem Built.of_weight_eq_zero (h : Built steps b) (hw : s.weight = 0) {opened : List Call}
    (hlength : opened.length = b.opened.length)
    (hrows : openRows 0 opened = (openRows 0 b.opened).map (CallRow.record s))
    (hevents : openEvents opened = openEvents b.opened)
    (hrunning : ∀ c ∈ opened, c.returns = []) :
    Built (steps ++ [s]) { b with opened := opened } := by
  have hi := Step.not_isInvocation_of_weight hw
  refine ⟨?_, ?_, ?_, ?_, hrunning, ?_⟩
  · rw [invocations_append_singleton, if_neg hi, Nat.add_zero]
    exact h.nextId
  · rw [balance_append_singleton, hw, Int.add_zero, ← h.height]
    exact congrArg Nat.cast hlength
  · rw [callTable_append_singleton, if_neg hi, List.append_nil, ← h.rows]
    unfold Builder.rows
    rw [List.map_append, map_record_closedRows, hrows]
  · rw [filter_isCallEvent_append_of_weight_eq_zero hw, ← h.events]
    unfold Builder.events
    rw [hevents]
  · rw [topLevelCalls_append_singleton, ← h.topLevel, if_neg (by simp [hi]), Nat.add_zero]
    dsimp only
    rw [hlength]

theorem Built.record_of_isInvocation (h : Built steps b) (hs : s.isInvocation = true) :
    ∃ b', b.record index s = .ok b' ∧ Built (steps ++ [s]) b' := by
  refine ⟨{ b with opened := Call.opened b.nextId s :: b.opened, nextId := b.nextId + 1 }, ?_, ?_⟩
  · rw [record, if_pos hs]
  have hheight := h.height
  have hw : s.weight ≠ 0 := by
    rw [Step.weight_of_isInvocation hs]
    omega
  refine ⟨?_, ?_, ?_, ?_, ?_, ?_⟩
  · rw [invocations_append_singleton, if_pos hs, ← h.nextId]
  · rw [balance_append_singleton, Step.weight_of_isInvocation hs, List.length_cons]
    omega
  · rw [callTable_append_singleton, if_pos hs, ← h.rows, ← h.nextId, ← hheight]
    unfold Builder.rows
    rw [List.map_append, map_record_closedRows, map_record_openRows_of_isInvocation hs,
      List.append_assoc, openRows]
    rfl
  · rw [filter_isCallEvent_append_of_weight hw, ← h.events]
    unfold Builder.events
    rw [openEvents, List.append_assoc]
    rfl
  · intro c hc
    rcases List.mem_cons.mp hc with rfl | hc
    · rfl
    · exact h.running c hc
  · rw [topLevelCalls_append_singleton, ← h.topLevel, ← hheight, hs, Bool.true_and, List.length_cons]
    dsimp only
    by_cases hzero : (b.opened.length : Int) = 0
    · rw [if_pos (decide_eq_true hzero)]
      omega
    · rw [if_neg (by rwa [decide_eq_true_eq])]
      omega

theorem Built.record_of_isParameter (h : Built steps b) (hs : s.isParameter = true) :
    ∃ b', b.record index s = .ok b' ∧ Built (steps ++ [s]) b' := by
  have hw := Step.weight_of_isParameter hs
  have hi := Step.not_isInvocation_of_weight hw
  cases hopened : b.opened with
  | nil =>
    refine ⟨b, ?_, h.of_weight_eq_zero hw rfl ?_ rfl h.running⟩
    · rw [record, if_neg hi, if_pos hs, hopened]
    · rw [hopened]
      rfl
  | cons c rest =>
    have hrunning := h.running
    rw [hopened] at hrunning
    refine ⟨{ b with opened := { c with parameters := c.parameters ++ [s] } :: rest }, ?_,
      h.of_weight_eq_zero hw ?_ ?_ ?_ ?_⟩
    · rw [record, if_neg hi, if_pos hs, hopened]
    · rw [hopened]
      rfl
    · rw [hopened, map_record_openRows_of_isParameter hs]
    · rw [hopened, openEvents, openEvents, events_eq, events_eq c]
    · intro d hd
      rcases List.mem_cons.mp hd with rfl | hd
      · exact hrunning c List.mem_cons_self
      · exact hrunning d (List.mem_cons_of_mem _ hd)

theorem Built.record_of_isReturn (h : Built steps b) (hs : s.isReturn = true)
    (hopen : 0 < balance steps) :
    ∃ b', b.record index s = .ok b' ∧ Built (steps ++ [s]) b' := by
  have hw := Step.weight_of_isReturn hs
  have hi := Step.not_isInvocation_of_isReturn hs
  have hheight := h.height
  cases hopened : b.opened with
  | nil =>
    rw [hopened, List.length_nil] at hheight
    omega
  | cons c rest =>
    have hrunning := h.running
    rw [hopened] at hrunning
    have hrest : ∀ d ∈ rest, d.returns = [] := fun d hd => hrunning d (List.mem_cons_of_mem c hd)
    let closed : Call := { c with returns := c.returns ++ [s] }
    refine ⟨{ b with
      opened := (attach closed rest b.roots).1
      roots := (attach closed rest b.roots).2 }, ?_, ?_, ?_, ?_, ?_, ?_, ?_⟩
    · rw [record, if_neg hi, if_neg (Step.not_isParameter_of_isReturn hs), if_pos hs, hopened]
    · rw [invocations_append_singleton, if_neg hi, Nat.add_zero]
      exact h.nextId
    · rw [hopened, List.length_cons] at hheight
      rw [balance_append_singleton, hw, length_opened_attach]
      omega
    · rw [callTable_append_singleton, if_neg hi, List.append_nil, ← h.rows]
      unfold Builder.rows
      rw [rows_attach, hopened, List.map_append, map_record_closedRows,
        map_record_openRows_of_isReturn hs, List.append_assoc]
    · rw [filter_isCallEvent_append_of_weight (by omega), ← h.events]
      unfold Builder.events
      rw [events_attach closed b.roots hrest, hopened, openEvents, events_eq, events_eq c]
      simp only [closed, List.append_assoc, List.cons_append]
    · exact running_attach closed b.roots hrest
    · have htop := h.topLevel
      have hroots := length_roots_attach closed rest b.roots
      rw [hopened, List.length_cons] at htop
      rw [topLevelCalls_append_singleton, if_neg (by simp [hi]), length_opened_attach]
      dsimp only
      omega

theorem Built.record_of_not (h : Built steps b) (hw : s.weight = 0) (hp : ¬ s.isParameter = true) :
    ∃ b', b.record index s = .ok b' ∧ Built (steps ++ [s]) b' := by
  have hi := Step.not_isInvocation_of_weight hw
  have hr := Step.not_isReturn_of_weight hw
  refine ⟨b, ?_, h.of_weight_eq_zero hw rfl ?_ rfl h.running⟩
  · rw [record, if_neg hi, if_neg hp, if_neg hr]
  · exact (map_record_openRows (fun i => Step.nextLevel?_of_weight_eq_zero hw (0 + i))
      (fun _ => note_of_not hp hr) b.opened).symm

/-- **One step keeps the invariant up**, unless it returns from a call that is not there. -/
theorem Built.exists_record (h : Built steps b) (hs : 0 ≤ balance steps + s.weight) :
    ∃ b', b.record index s = .ok b' ∧ Built (steps ++ [s]) b' := by
  rcases s.weight_cases with ⟨hi, -⟩ | ⟨hr, hw⟩ | hw
  · exact h.record_of_isInvocation index hi
  · exact h.record_of_isReturn index hr (by omega)
  · by_cases hp : s.isParameter = true
    · exact h.record_of_isParameter index hp
    · exact h.record_of_not index hw hp

theorem Built.record_eq_error (h : Built steps b) (hs : balance steps + s.weight < 0) :
    b.record index s = .error (.unmatchedReturn index) := by
  have hheight := h.height
  have hw := s.neg_one_le_weight
  have hr := Step.isReturn_of_weight (show s.weight = -1 by omega)
  have hopened : b.opened = [] := List.eq_nil_of_length_eq_zero (by omega)
  rw [record, if_neg (Step.not_isInvocation_of_isReturn hr),
    if_neg (Step.not_isParameter_of_isReturn hr), if_pos hr, hopened]

/-! ## A run -/

theorem recordAll_append (b : Builder) (p q : List Step) :
    b.recordAll index (p ++ q) =
      (b.recordAll index p).bind fun b' => b'.recordAll (index + p.length) q := by
  induction p generalizing b index with
  | nil => rfl
  | cons s p ih =>
    rw [List.cons_append, recordAll, recordAll]
    cases b.record index s with
    | error e => rfl
    | ok b' =>
      change b'.recordAll (index + 1) (p ++ q) = (b'.recordAll (index + 1) p).bind _
      rw [ih, List.length_cons, Nat.add_right_comm, Nat.add_assoc]

/-- **A run without a return too many is recorded to its end.** -/
theorem exists_recordAll (h : ReturnsMatched steps) :
    ∃ b, empty.recordAll 0 steps = .ok b ∧ Built steps b := by
  induction steps using List.reverseRecOn with
  | nil => exact ⟨empty, rfl, built_empty⟩
  | append_singleton steps s ih =>
    obtain ⟨hsteps, hs⟩ := returnsMatched_append_singleton.mp h
    obtain ⟨b, hrun, hbuilt⟩ := ih hsteps
    obtain ⟨b', hrecord, hbuilt'⟩ := hbuilt.exists_record (0 + steps.length) hs
    refine ⟨b', ?_, hbuilt'⟩
    rw [recordAll_append, hrun]
    change b.recordAll (0 + steps.length) [s] = .ok b'
    rw [recordAll, hrecord]
    rfl

theorem recordAll_of_firstExcess {i : Nat} (h : FirstExcess steps i) :
    empty.recordAll 0 steps = .error (.unmatchedReturn i) := by
  obtain ⟨q, s, rest, rfl, rfl, hneg, hmatched⟩ := h
  obtain ⟨b, hrun, hbuilt⟩ := exists_recordAll hmatched
  rw [balance_append_singleton] at hneg
  rw [recordAll_append, hrun]
  change b.recordAll (0 + q.length) (s :: rest) = _
  rw [recordAll, hbuilt.record_eq_error _ hneg, Nat.zero_add]
  rfl

theorem built_of_recordAll {steps : List Step} {b : Builder}
    (h : Builder.empty.recordAll 0 steps = .ok b) : Built steps b := by
  rcases returnsMatched_or_firstExcess steps with hmatched | ⟨i, hi⟩
  · obtain ⟨b', hrun, hbuilt⟩ := exists_recordAll hmatched
    rw [hrun] at h
    cases h
    exact hbuilt
  · rw [recordAll_of_firstExcess hi] at h
    cases h

end Builder

/-! ## The tree -/

/-- The outcome for the top-level calls of a run. -/
def ofRoots : List Call → Except CallTreeError (Option Call)
  | [] => .ok none
  | [root] => .ok (some root)
  | roots => .error (.multipleRoots roots.length)

theorem ofRoots_eq_none_iff {roots : List Call} : ofRoots roots = .ok none ↔ roots.length = 0 := by
  match roots with
  | [] => exact ⟨fun _ => rfl, fun _ => rfl⟩
  | [_] => exact ⟨nofun, nofun⟩
  | _ :: _ :: _ => exact ⟨nofun, nofun⟩

theorem ofRoots_eq_some_iff {roots : List Call} {t : Call} :
    ofRoots roots = .ok (some t) ↔ roots = [t] := by
  match roots with
  | [] => exact ⟨nofun, nofun⟩
  | [root] =>
    unfold ofRoots
    rw [Except.ok.injEq, Option.some.injEq, List.singleton_inj]
  | _ :: _ :: _ => exact ⟨nofun, nofun⟩

theorem ofRoots_eq_multipleRoots_iff {roots : List Call} {n : Nat} :
    ofRoots roots = .error (.multipleRoots n) ↔ 2 ≤ roots.length ∧ n = roots.length := by
  match roots with
  | [] => exact ⟨nofun, fun h => absurd h.1 (Nat.not_succ_le_zero 1)⟩
  | [_] => exact ⟨nofun, fun h => absurd h.1 (Nat.not_succ_le_self 1)⟩
  | c :: d :: rest =>
    have htwo : 2 ≤ (c :: d :: rest).length := Nat.le_add_left 2 rest.length
    constructor
    · intro h
      cases h
      exact ⟨htwo, rfl⟩
    · rintro ⟨-, rfl⟩
      rfl

theorem ofRoots_ne_unmatchedReturn (roots : List Call) (i : Nat) :
    ofRoots roots ≠ .error (.unmatchedReturn i) := by
  match roots with
  | [] => exact nofun
  | [_] => exact nofun
  | _ :: _ :: _ => exact nofun

variable {steps : List Step}

theorem ofSteps_of_firstExcess {i : Nat} (h : FirstExcess steps i) :
    ofSteps steps = .error (.unmatchedReturn i) := by
  unfold ofSteps
  rw [Builder.recordAll_of_firstExcess h]
  rfl

/-- Without a return too many the outcome is that of some top-level calls, which show the events and
the table of the steps. -/
theorem ofSteps_of_returnsMatched (h : ReturnsMatched steps) :
    ∃ roots, ofSteps steps = ofRoots roots ∧ roots.length = topLevelCalls steps ∧
      eventsOf roots = steps.filter Step.isCallEvent ∧
      (closedRows 0 roots).map CallRow.entry = (callTable steps).map CallRow.entry := by
  obtain ⟨b, hrun, hbuilt⟩ := Builder.exists_recordAll h
  refine ⟨Builder.closeAll b.roots b.opened, ?_, ?_, ?_, ?_⟩
  · unfold ofSteps
    rw [hrun]
    rfl
  · rw [Builder.length_closeAll, hbuilt.topLevel]
  · rw [Builder.eventsOf_closeAll _ _ hbuilt.running, ← hbuilt.events]
    rfl
  · rw [Builder.map_entry_closeAll, ← hbuilt.rows]
    rfl

/-- **A return too many is reported, the first one with its position, and nothing else is.** -/
theorem ofSteps_eq_unmatchedReturn_iff {i : Nat} :
    ofSteps steps = .error (.unmatchedReturn i) ↔ FirstExcess steps i := by
  refine ⟨fun herror => ?_, ofSteps_of_firstExcess⟩
  rcases returnsMatched_or_firstExcess steps with hmatched | ⟨j, hj⟩
  · obtain ⟨roots, hroots, -⟩ := ofSteps_of_returnsMatched hmatched
    exact absurd (hroots.symm.trans herror) (ofRoots_ne_unmatchedReturn roots i)
  · rw [ofSteps_of_firstExcess hj] at herror
    cases herror
    exact hj

theorem returnsMatched_of_ofSteps {t : Option Call} (h : ofSteps steps = .ok t) :
    ReturnsMatched steps := by
  rcases returnsMatched_or_firstExcess steps with hmatched | ⟨i, hi⟩
  · exact hmatched
  · rw [ofSteps_of_firstExcess hi] at h
    cases h

theorem events_of_ofSteps {t : Call} (h : ofSteps steps = .ok (some t)) :
    t.events = steps.filter Step.isCallEvent := by
  obtain ⟨roots, hroots, -, hevents, -⟩ := ofSteps_of_returnsMatched (returnsMatched_of_ofSteps h)
  rw [ofRoots_eq_some_iff.mp (hroots.symm.trans h), eventsOf_singleton] at hevents
  exact hevents

/-- **The calls of a tree in preorder, each without those that it made, are the table of its steps.** -/
theorem flat_of_ofSteps {t : Call} (h : ofSteps steps = .ok (some t)) :
    t.preorder.map (fun e => (e.1, e.2.alone)) = (callTable steps).map CallRow.entry := by
  obtain ⟨roots, hroots, -, -, hrows⟩ := ofSteps_of_returnsMatched (returnsMatched_of_ofSteps h)
  rw [ofRoots_eq_some_iff.mp (hroots.symm.trans h)] at hrows
  rw [← hrows]
  unfold closedRows preorder
  rw [preordersAt, preordersAt, List.append_nil, List.map_map]
  rfl

/-- What the steps say of a call at a depth: `before` comes before its invocation and `after` after
it. -/
structure CallShown (steps before after : List Step) (depth : Nat) (c : Call) : Prop where
  place : steps = before ++ c.invocation :: after
  invocation : c.invocation.isInvocation = true
  id : c.id = invocations before
  depth : (depth : Int) = balance before
  parameters : c.parameters = directSteps Step.isParameter after
  atMostOneReturn : c.returns.length ≤ 1
  returns : ∀ r, r ∈ c.returns ↔
    ∃ body rest, after = body ++ r :: rest ∧ CompletedCall (c.invocation :: (body ++ [r]))

theorem callShown_of_mem_preorder {t : Call} (h : ofSteps steps = .ok (some t)) {depth : Nat}
    {c : Call} (hc : (depth, c) ∈ t.preorder) :
    ∃ before after, CallShown steps before after depth c := by
  have hmem : (depth, c.alone) ∈ (callTable steps).map CallRow.entry := by
    rw [← flat_of_ofSteps h]
    exact List.mem_map.mpr ⟨_, hc, rfl⟩
  obtain ⟨row, hrow, hentry⟩ := List.mem_map.mp hmem
  obtain ⟨before, s, after, hsteps, hs, rfl⟩ := mem_callTable.mp hrow
  obtain ⟨hdepth, halone⟩ := Prod.mk.inj hentry
  obtain ⟨id, invocation, parameters, returns, calls⟩ := c
  obtain ⟨rfl, rfl, rfl, rfl, -⟩ := Call.mk.inj halone
  have hbefore := returnsMatched_of_ofSteps h before ⟨_, hsteps.symm⟩
  refine ⟨before, after, hsteps, hs, rfl, ?_, rfl, length_directSteps_isReturn_le after,
    fun r => mem_directSteps_isReturn hs⟩
  rw [← hdepth]
  exact Int.toNat_of_nonneg hbefore

theorem ids_of_ofSteps {t : Call} (h : ofSteps steps = .ok (some t)) :
    t.preorder.map (fun e => e.2.id) = List.range (invocations steps) := by
  have hflat := congrArg (List.map fun e => e.2.id) (flat_of_ofSteps h)
  rw [List.map_map, List.map_map] at hflat
  rw [← map_id_callTable]
  exact hflat

theorem size_of_ofSteps {t : Call} (h : ofSteps steps = .ok (some t)) :
    t.size = invocations steps := by
  have hlength := congrArg List.length (ids_of_ofSteps h)
  rw [List.length_map, List.length_range] at hlength
  rw [size_eq_length_preorderAt 0 t]
  exact hlength

/-- **A call tree classifies its steps exactly and loses none of their calls.** A return too many is
reported with its position. Otherwise the number of top-level calls decides between nothing, a tree and
an error; and the tree's events are those of the steps, its calls in preorder are numbered from zero
up, and each shows what the steps say of it. -/
theorem ofSteps_spec (steps : List Step) :
    (∀ i, ofSteps steps = .error (.unmatchedReturn i) ↔ FirstExcess steps i) ∧
    ((∃ i, ofSteps steps = .error (.unmatchedReturn i)) ↔ ∃ q, q <+: steps ∧ balance q < 0) ∧
    (ReturnsMatched steps →
      (ofSteps steps = .ok none ↔ topLevelCalls steps = 0) ∧
      ((∃ t, ofSteps steps = .ok (some t)) ↔ topLevelCalls steps = 1) ∧
      ∀ n, ofSteps steps = .error (.multipleRoots n) ↔
        2 ≤ topLevelCalls steps ∧ n = topLevelCalls steps) ∧
    ∀ t, ofSteps steps = .ok (some t) →
      t.events = steps.filter Step.isCallEvent ∧
      t.preorder.map (fun e => e.2.id) = List.range t.size ∧
      t.size = invocations steps ∧
      ∀ depth c, (depth, c) ∈ t.preorder → ∃ before after, CallShown steps before after depth c := by
  refine ⟨fun i => ofSteps_eq_unmatchedReturn_iff, ?_, fun hmatched => ?_, fun t ht => ?_⟩
  · constructor
    · rintro ⟨i, hi⟩
      obtain ⟨q, s, rest, rfl, -, hneg, -⟩ := ofSteps_eq_unmatchedReturn_iff.mp hi
      exact ⟨q ++ [s], ⟨rest, by rw [List.append_assoc, List.singleton_append]⟩, hneg⟩
    · rintro ⟨q, hq, hneg⟩
      rcases returnsMatched_or_firstExcess steps with hmatched | ⟨i, hi⟩
      · have := hmatched q hq
        omega
      · exact ⟨i, ofSteps_of_firstExcess hi⟩
  · obtain ⟨roots, hroots, hlength, -, -⟩ := ofSteps_of_returnsMatched hmatched
    rw [hroots, ← hlength]
    refine ⟨ofRoots_eq_none_iff, ?_, fun n => ofRoots_eq_multipleRoots_iff⟩
    rw [List.length_eq_one_iff]
    exact exists_congr fun t => ofRoots_eq_some_iff
  · refine ⟨events_of_ofSteps ht, ?_, size_of_ofSteps ht, fun depth c hc => ?_⟩
    · rw [size_of_ofSteps ht]
      exact ids_of_ofSteps ht
    · exact callShown_of_mem_preorder ht hc

end CallTree

end Retrace
