import Retrace.Proofs.CallTable

/-!
# Calls under construction

A builder holds closed calls as trees and open ones as a chain, innermost first. Its rows are those of
the trees with no level, and those of the chain from the outermost call in, each followed by the calls
closed below it. So the order of invocations can be read off while calls are still open.

* `Call.closedRows`, `Call.openRows`: the rows of trees and of the chain.
* `Call.map_record_closedRows`, `Call.map_record_openRows`: what a step does to them.
* `CallTree.Builder.rows_attach`, `CallTree.Builder.events_attach`: a call that returns moves below its
  caller, and comes last among rows and events.
* `CallTree.Builder.map_entry_closeAll`, `CallTree.Builder.eventsOf_closeAll`: closing the chain keeps
  the rows and the events.
-/

namespace Retrace

namespace Call

/-- A call without the calls that it made. -/
def alone (c : Call) : Call := { c with calls := [] }

/-! ## Trees -/

mutual

theorem size_eq_length_preorderAt (depth : Nat) :
    (c : Call) → c.size = (preorderAt depth c).length
  | ⟨_, _, _, _, calls⟩ => by
    rw [size, preorderAt, List.length_cons, sizes_eq_length_preordersAt (depth + 1) calls,
      Nat.add_comm]

theorem sizes_eq_length_preordersAt (depth : Nat) :
    (cs : List Call) → sizes cs = (preordersAt depth cs).length
  | [] => rfl
  | c :: rest => by
    rw [sizes, preordersAt, List.length_append, size_eq_length_preorderAt depth c,
      sizes_eq_length_preordersAt depth rest]

end

theorem preordersAt_append (depth : Nat) (cs ds : List Call) :
    preordersAt depth (cs ++ ds) = preordersAt depth cs ++ preordersAt depth ds := by
  induction cs with
  | nil => rfl
  | cons c cs ih => rw [List.cons_append, preordersAt, preordersAt, ih, List.append_assoc]

theorem preordersAt_singleton (depth : Nat) (c : Call) :
    preordersAt depth [c] = (depth, c) :: preordersAt (depth + 1) c.calls := by
  rw [preordersAt, preordersAt, List.append_nil]
  cases c
  rw [preorderAt]

/-- The rows of closed calls and of the calls below them. -/
def closedRows (depth : Nat) (cs : List Call) : List CallRow :=
  (preordersAt depth cs).map fun e => ⟨e.1, none, e.2.alone⟩

theorem closedRows_append (depth : Nat) (cs ds : List Call) :
    closedRows depth (cs ++ ds) = closedRows depth cs ++ closedRows depth ds := by
  unfold closedRows
  rw [preordersAt_append, List.map_append]

theorem closedRows_singleton (depth : Nat) (c : Call) :
    closedRows depth [c] = ⟨depth, none, c.alone⟩ :: closedRows (depth + 1) c.calls := by
  unfold closedRows
  rw [preordersAt_singleton, List.map_cons]

/-- No further step changes a closed call. -/
theorem map_record_closedRows (s : Step) (depth : Nat) (cs : List Call) :
    (closedRows depth cs).map (CallRow.record s) = closedRows depth cs := by
  unfold closedRows
  rw [List.map_map]
  exact List.map_congr_left fun e _ => rfl

/-! ## Rows of the chain of open calls -/

/-- The rows of open calls, the innermost first in the list and at a level, and of the calls closed
below them. -/
def openRows (level : Nat) : List Call → List CallRow
  | [] => []
  | c :: rest =>
    openRows (level + 1) rest ++
      ⟨rest.length, some level, c.alone⟩ :: closedRows (rest.length + 1) c.calls

theorem note_of_not {s : Step} (hp : ¬ s.isParameter = true) (hr : ¬ s.isReturn = true) (c : Call) :
    c.note s = c := by
  obtain ⟨id, invocation, parameters, returns, calls⟩ := c
  unfold note
  rw [if_neg hp, if_neg hr, List.append_nil, List.append_nil]

/-- A step moves the levels of open calls together, and changes the innermost one at most. -/
theorem map_record_openRows {s : Step} {level level' : Nat}
    (hlevel : ∀ i, s.nextLevel? (level + i) = some (level' + i))
    (hnote : level = 0 → ∀ c : Call, c.note s = c) (opened : List Call) :
    (openRows level opened).map (CallRow.record s) = openRows level' opened := by
  induction opened generalizing level level' with
  | nil => rfl
  | cons c rest ih =>
    have hrest : (openRows (level + 1) rest).map (CallRow.record s) = openRows (level' + 1) rest := by
      refine ih (fun i => ?_) fun h => absurd h (Nat.succ_ne_zero level)
      rw [Nat.add_right_comm, Nat.add_right_comm level']
      exact hlevel (i + 1)
    have hhead : CallRow.record s ⟨rest.length, some level, c.alone⟩ =
        ⟨rest.length, some level', c.alone⟩ := by
      have hnext := hlevel 0
      rw [Nat.add_zero, Nat.add_zero] at hnext
      unfold CallRow.record
      rw [Option.bind_some, hnext]
      by_cases hzero : level = 0
      · rw [if_pos (by rw [hzero]), hnote hzero]
      · rw [if_neg fun h => hzero (Option.some.inj h)]
    rw [openRows, openRows, List.map_append, List.map_cons, hrest, hhead, map_record_closedRows]

theorem map_record_openRows_of_isInvocation {s : Step} (hs : s.isInvocation = true)
    (opened : List Call) : (openRows 0 opened).map (CallRow.record s) = openRows 1 opened := by
  refine map_record_openRows (fun i => ?_) (fun _ => ?_) opened
  · rw [Step.nextLevel?_of_isInvocation hs, Nat.zero_add, Nat.add_comm]
  · refine note_of_not (fun hp => ?_) fun hr => Step.not_isInvocation_of_isReturn hr hs
    exact Step.not_isInvocation_of_weight (Step.weight_of_isParameter hp) hs

/-- A parameter is noted in the innermost call. -/
theorem map_record_openRows_of_isParameter {s : Step} (hs : s.isParameter = true) (c : Call)
    (rest : List Call) :
    (openRows 0 (c :: rest)).map (CallRow.record s) =
      openRows 0 ({ c with parameters := c.parameters ++ [s] } :: rest) := by
  have hw := Step.weight_of_isParameter hs
  have hlevel : ∀ i, s.nextLevel? (1 + i) = some (1 + i) := fun i =>
    Step.nextLevel?_of_weight_eq_zero hw (1 + i)
  have hhead : CallRow.record s ⟨rest.length, some 0, c.alone⟩ =
      ⟨rest.length, some 0, alone { c with parameters := c.parameters ++ [s] }⟩ := by
    unfold CallRow.record note alone
    rw [Option.bind_some, Step.nextLevel?_of_weight_eq_zero hw, if_pos rfl, if_pos hs,
      if_neg (Step.not_isReturn_of_weight hw), List.append_nil]
  rw [openRows, openRows, List.map_append, List.map_cons, hhead, map_record_closedRows,
    map_record_openRows hlevel fun h => absurd h Nat.one_ne_zero]

/-- A return closes the innermost call, and the levels of all others fall by one. -/
theorem map_record_openRows_of_isReturn {s : Step} (hs : s.isReturn = true) (c : Call)
    (rest : List Call) :
    (openRows 0 (c :: rest)).map (CallRow.record s) =
      openRows 0 rest ++ closedRows rest.length [{ c with returns := c.returns ++ [s] }] := by
  have hlevel : ∀ i, s.nextLevel? (1 + i) = some (0 + i) := fun i => by
    rw [Step.nextLevel?_of_isReturn hs, if_neg (by omega)]
    congr 1
    omega
  have hhead : CallRow.record s ⟨rest.length, some 0, c.alone⟩ =
      ⟨rest.length, none, alone { c with returns := c.returns ++ [s] }⟩ := by
    unfold CallRow.record note alone
    rw [Option.bind_some, Step.nextLevel?_of_isReturn hs, if_pos rfl, if_pos rfl, if_pos hs,
      if_neg (Step.not_isParameter_of_isReturn hs), List.append_nil]
  rw [openRows, List.map_append, List.map_cons, hhead, map_record_closedRows, closedRows_singleton,
    map_record_openRows hlevel fun h => absurd h Nat.one_ne_zero]

/-! ## Events -/

theorem eventsOf_append (cs ds : List Call) : eventsOf (cs ++ ds) = eventsOf cs ++ eventsOf ds := by
  induction cs with
  | nil => rfl
  | cons c cs ih => rw [List.cons_append, eventsOf, eventsOf, ih, List.append_assoc]

theorem eventsOf_singleton (c : Call) : eventsOf [c] = events c := by
  rw [eventsOf, eventsOf, List.append_nil]

theorem events_eq (c : Call) : c.events = c.invocation :: (eventsOf c.calls ++ c.returns) := by
  cases c
  rw [events]

/-- The events of open calls, the innermost first in the list. -/
def openEvents : List Call → List Step
  | [] => []
  | c :: rest => openEvents rest ++ c.events

/-- A call attached to one that is still open comes last in it. -/
theorem events_attached {parent : Call} (h : parent.returns = []) (c : Call) :
    events { parent with calls := parent.calls ++ [c] } = parent.events ++ c.events := by
  rw [events_eq, events_eq parent, eventsOf_append, eventsOf_singleton, h, List.append_nil,
    List.append_nil, List.cons_append]

end Call

/-- What a row shows of a call, its level aside. -/
def CallRow.entry (row : CallRow) : Nat × Call := (row.depth, row.call)

theorem CallRow.map_entry_openRows (level level' : Nat) (opened : List Call) :
    (Call.openRows level opened).map entry = (Call.openRows level' opened).map entry := by
  induction opened generalizing level level' with
  | nil => rfl
  | cons c rest ih =>
    rw [Call.openRows, Call.openRows, List.map_append, List.map_append,
      ih (level + 1) (level' + 1)]
    rfl

namespace CallTree.Builder

open Call

/-! ## Attaching a call to its caller -/

theorem openRows_attached (level : Nat) (c parent : Call) (rest : List Call) :
    openRows level ({ parent with calls := parent.calls ++ [c] } :: rest) =
      openRows level (parent :: rest) ++ closedRows (rest.length + 1) [c] := by
  rw [openRows, openRows, closedRows_append, List.append_assoc, List.cons_append]
  rfl

/-- A call attached to its caller comes last among the rows. -/
theorem rows_attach (c : Call) (opened roots : List Call) :
    closedRows 0 (attach c opened roots).2 ++ openRows 0 (attach c opened roots).1 =
      closedRows 0 roots ++ openRows 0 opened ++ closedRows opened.length [c] := by
  cases opened with
  | nil =>
    dsimp only [attach]
    rw [closedRows_append, openRows, List.append_nil, List.append_nil]
    rfl
  | cons parent rest =>
    dsimp only [attach]
    rw [openRows_attached, List.append_assoc]
    rfl

theorem events_attach (c : Call) {opened : List Call} (roots : List Call)
    (h : ∀ d ∈ opened, d.returns = []) :
    eventsOf (attach c opened roots).2 ++ openEvents (attach c opened roots).1 =
      eventsOf roots ++ openEvents opened ++ c.events := by
  cases opened with
  | nil =>
    dsimp only [attach]
    rw [eventsOf_append, eventsOf_singleton, openEvents, List.append_nil, List.append_nil]
  | cons parent rest =>
    dsimp only [attach]
    rw [openEvents, openEvents, events_attached (h parent List.mem_cons_self)]
    simp only [List.append_assoc]

theorem length_opened_attach (c : Call) (opened roots : List Call) :
    (attach c opened roots).1.length = opened.length := by
  cases opened <;> rfl

theorem length_roots_attach (c : Call) (opened roots : List Call) :
    (attach c opened roots).2.length + min opened.length 1 = roots.length + 1 := by
  cases opened with
  | nil => exact List.length_append
  | cons parent rest =>
    dsimp only [attach]
    rw [List.length_cons]
    omega

theorem running_attach (c : Call) {opened : List Call} (roots : List Call)
    (h : ∀ d ∈ opened, d.returns = []) :
    ∀ d ∈ (attach c opened roots).1, d.returns = [] := by
  cases opened with
  | nil => exact h
  | cons parent rest =>
    intro d hd
    rcases List.mem_cons.mp hd with rfl | hd
    · exact h parent List.mem_cons_self
    · exact h d (List.mem_cons_of_mem _ hd)

/-! ## Closing the chain -/

theorem map_entry_closeAll (roots opened : List Call) :
    (closedRows 0 (closeAll roots opened)).map CallRow.entry =
      (closedRows 0 roots ++ openRows 0 opened).map CallRow.entry := by
  fun_induction closeAll roots opened with
  | case1 => rw [openRows, List.append_nil]
  | case2 c =>
    rw [closedRows_append, closedRows_singleton, openRows, openRows, List.nil_append,
      List.map_append, List.map_append]
    rfl
  | case3 c parent rest ih =>
    have hopened : openRows 0 (c :: parent :: rest) = openRows 1 (parent :: rest) ++
        ⟨rest.length + 1, some 0, c.alone⟩ :: closedRows (rest.length + 2) c.calls := rfl
    rw [ih, openRows_attached, closedRows_singleton, hopened]
    simp only [List.map_append, List.map_cons]
    rw [CallRow.map_entry_openRows 0 1]
    rfl

theorem eventsOf_closeAll (roots opened : List Call) (h : ∀ c ∈ opened, c.returns = []) :
    eventsOf (closeAll roots opened) = eventsOf roots ++ openEvents opened := by
  fun_induction closeAll roots opened with
  | case1 => rw [openEvents, List.append_nil]
  | case2 c => rw [eventsOf_append, eventsOf_singleton, openEvents, openEvents, List.nil_append]
  | case3 c parent rest ih =>
    have hrest : ∀ d ∈ parent :: rest, d.returns = [] := fun d hd => h d (List.mem_cons_of_mem c hd)
    rw [ih (running_attach c roots hrest), openEvents, openEvents, openEvents,
      events_attached (hrest parent List.mem_cons_self), List.append_assoc]

theorem length_closeAll (roots opened : List Call) :
    (closeAll roots opened).length = roots.length + min opened.length 1 := by
  fun_induction closeAll roots opened with
  | case1 => rfl
  | case2 c => exact List.length_append
  | case3 c parent rest ih =>
    rw [ih, List.length_cons, List.length_cons, List.length_cons]
    omega

end CallTree.Builder

end Retrace
