import Retrace.Proofs.CallTree

/-!
# Calls in progress

After some steps certain calls are open: those made that have not returned. A builder holds them as a
chain, and closing the chain at the end turns it into the path that leads from the root of the tree
through the calls still running. So the path can be read off the steps.

* `openCalls`: the calls open after some steps, read off the steps alone.
* `Call.PathRuns`: the running calls of a tree are its active path, each one deeper than the one before.
* `CallTree.Builder.exists_closeAll`: closing the chain of open calls makes it such a path.
* `CallTree.activePath_of_opened_cons`, `CallTree.activePath_of_opened_nil`: the path through a finished
  tree, with calls still open and without.
-/

namespace Retrace

/-! ## Open calls -/

/-- The calls open after some steps, the innermost first. Each goes by the number of invocations
before its own, and none of the steps after its own returns from it. -/
def openCalls (steps : List Step) : List Nat :=
  (((occurrences steps).filter fun o => o.step.isInvocation && decide (ReturnsMatched o.after)).map
    fun o => invocations o.before).reverse

theorem isSome_level? (after : List Step) :
    (level? after).isSome = decide (ReturnsMatched after) := by
  unfold level?
  by_cases h : ReturnsMatched after <;> simp [h]

/-- The open calls are the rows at a level. -/
theorem openCalls_eq_callTable (steps : List Step) :
    openCalls steps =
      (((callTable steps).filter fun row => row.level.isSome).map fun row => row.call.id).reverse := by
  unfold openCalls callTable
  rw [List.filter_map, List.filter_filter, List.map_map]
  congr 2
  refine List.filter_congr fun o _ => ?_
  change _ = ((level? o.after).isSome && o.step.isInvocation)
  rw [isSome_level?, Bool.and_comm]

/-- A call that is no longer open has a return. -/
theorem exists_return_of_not_returnsMatched {after : List Step} (h : ¬ ReturnsMatched after) :
    ∃ r, r ∈ directSteps Step.isReturn after := by
  rcases returnsMatched_or_firstExcess after with hmatched | ⟨_, q, r, rest, rfl, -, hneg, hq⟩
  · exact absurd hmatched h
  · have hbefore := hq q List.prefix_rfl
    have hw := r.neg_one_le_weight
    rw [balance_append_singleton] at hneg
    have hr := Step.isReturn_of_weight (s := r) (by omega)
    exact ⟨r, mem_directSteps.mpr ⟨q, rest, rfl, hr, hq, by omega⟩⟩

theorem isFinished_of_mem_callTable {steps : List Step} {row : CallRow} (h : row ∈ callTable steps)
    (hlevel : row.level = none) : row.call.isFinished = true := by
  obtain ⟨before, s, after, -, -, rfl⟩ := mem_callTable.mp h
  have hmatched : ¬ ReturnsMatched after := fun hmatched => by
    have hsome := isSome_level? after
    rw [decide_eq_true hmatched] at hsome
    change level? after = none at hlevel
    rw [hlevel] at hsome
    exact Bool.noConfusion hsome
  obtain ⟨r, hr⟩ := exists_return_of_not_returnsMatched hmatched
  cases hreturns : directSteps Step.isReturn after with
  | nil =>
    rw [hreturns] at hr
    exact absurd hr List.not_mem_nil
  | cons r' rest =>
    unfold Call.isFinished CallRow.ofOccurrence
    dsimp only
    rw [hreturns]
    rfl

/-! ## Running calls of a tree -/

namespace Call

/-- A call in its place in a tree is running: no return was recorded for it. -/
def isRunning (e : Nat × Call) : Bool := !e.2.isFinished

theorem isFinished_eq_false {c : Call} (h : c.returns = []) : c.isFinished = false := by
  unfold isFinished
  rw [h]
  rfl

theorem preorderAt_eq (depth : Nat) (c : Call) :
    preorderAt depth c = (depth, c) :: preordersAt (depth + 1) c.calls := by
  cases c
  rw [preorderAt]

theorem activePath_eq (c : Call) : c.activePath = c :: lastActivePath c.calls := by
  cases c
  rw [activePath]

theorem lastActivePath_append_singleton (cs : List Call) (c : Call) :
    lastActivePath (cs ++ [c]) = if c.isFinished then [] else c.activePath := by
  induction cs with
  | nil => rw [List.nil_append, lastActivePath]
  | cons d cs ih =>
    cases cs with
    | nil => rw [List.cons_append, List.nil_append, lastActivePath, ← ih, List.nil_append]
    | cons d' cs => rw [List.cons_append, List.cons_append, lastActivePath, ← ih, List.cons_append]

/-- All of the closed calls at a depth, and those below them, are finished. -/
def AllFinished (depth : Nat) (cs : List Call) : Prop :=
  ∀ e ∈ preordersAt depth cs, e.2.isFinished = true

theorem AllFinished.filter_isRunning {depth : Nat} {cs : List Call} (h : AllFinished depth cs) :
    (preordersAt depth cs).filter isRunning = [] :=
  List.filter_eq_nil_iff.mpr fun e he => by
    unfold isRunning
    rw [h e he]
    exact Bool.false_ne_true

theorem AllFinished.lastActivePath {depth : Nat} {cs : List Call} (h : AllFinished depth cs) :
    lastActivePath cs = [] := by
  rcases List.eq_nil_or_concat cs with rfl | ⟨init, c, rfl⟩
  · rw [Call.lastActivePath]
  · rw [List.concat_eq_append] at h ⊢
    have hc : c.isFinished = true := by
      refine h (depth, c) ?_
      rw [preordersAt_append, preordersAt_singleton]
      exact List.mem_append_right _ List.mem_cons_self
    rw [lastActivePath_append_singleton, if_pos hc]

/-- The running calls in and below a call at a depth are those of its active path, each one deeper
than the one before. -/
def PathRuns (depth : Nat) (c : Call) : Prop :=
  (preorderAt depth c).filter isRunning = (c.activePath.zipIdx depth).map Prod.swap

theorem pathRuns_of_allFinished {depth : Nat} {c : Call} (h : c.returns = [])
    (hcalls : AllFinished (depth + 1) c.calls) : PathRuns depth c := by
  unfold PathRuns
  rw [preorderAt_eq, activePath_eq, hcalls.lastActivePath, List.filter_cons_of_pos (by
    unfold isRunning
    rw [isFinished_eq_false h]
    rfl), hcalls.filter_isRunning]
  rfl

/-- A running call attached to a running call comes next on its path. -/
theorem PathRuns.attached {depth : Nat} {c parent : Call} (h : PathRuns (depth + 1) c)
    (hc : c.returns = []) (hparent : parent.returns = [])
    (hcalls : AllFinished (depth + 1) parent.calls) :
    PathRuns depth { parent with calls := parent.calls ++ [c] } := by
  unfold PathRuns at h ⊢
  rw [preorderAt_eq, activePath_eq, List.filter_cons_of_pos (by
    unfold isRunning
    rw [isFinished_eq_false (by exact hparent)]
    rfl)]
  dsimp only
  rw [lastActivePath_append_singleton, isFinished_eq_false hc, preordersAt_append,
    List.filter_append, hcalls.filter_isRunning, List.nil_append, preordersAt, preordersAt,
    List.append_nil, h]
  rfl

end Call

/-! ## The chain of open calls -/

namespace CallTree.Builder

open Call

/-- The calls made by the open calls are finished, each at its depth. -/
def ClosedBelow : List Call → Prop
  | [] => True
  | c :: rest => AllFinished (rest.length + 1) c.calls ∧ ClosedBelow rest

theorem allFinished_of_closedRows {depth : Nat} {cs : List Call}
    (h : ∀ row ∈ closedRows depth cs, row.level = none → row.call.isFinished = true) :
    AllFinished depth cs := fun e he =>
  h _ (List.mem_map.mpr ⟨e, he, rfl⟩) rfl

theorem closedBelow_of_openRows {level : Nat} {opened : List Call}
    (h : ∀ row ∈ openRows level opened, row.level = none → row.call.isFinished = true) :
    ClosedBelow opened := by
  induction opened generalizing level with
  | nil => exact trivial
  | cons c rest ih =>
    rw [openRows] at h
    refine ⟨allFinished_of_closedRows fun row hrow => h row ?_,
      ih fun row hrow => h row (List.mem_append_left _ hrow)⟩
    exact List.mem_append_right _ (List.mem_cons_of_mem _ hrow)

theorem filter_level_closedRows (depth : Nat) (cs : List Call) :
    (closedRows depth cs).filter (fun row => row.level.isSome) = [] := by
  refine List.filter_eq_nil_iff.mpr fun row hrow => ?_
  obtain ⟨e, -, rfl⟩ := List.mem_map.mp hrow
  exact Bool.false_ne_true

theorem filter_level_openRows (level : Nat) (opened : List Call) :
    ((openRows level opened).filter fun row => row.level.isSome).map (fun row => row.call.id) =
      (opened.map Call.id).reverse := by
  induction opened generalizing level with
  | nil => rfl
  | cons c rest ih =>
    rw [openRows, List.filter_append, List.map_append, ih, List.filter_cons_of_pos rfl,
      filter_level_closedRows, List.map_singleton, List.map_cons, List.reverse_cons]
    rfl

variable {steps : List Step} {b : Builder}

/-- The builder's open calls are those of the steps. -/
theorem Built.openCalls_eq (h : Built steps b) : openCalls steps = b.opened.map Call.id := by
  rw [openCalls_eq_callTable, ← h.rows]
  unfold Builder.rows
  rw [List.filter_append, filter_level_closedRows, List.nil_append, filter_level_openRows,
    List.reverse_reverse]

theorem Built.isFinished_of_mem_rows (h : Built steps b) {row : CallRow} (hrow : row ∈ b.rows)
    (hlevel : row.level = none) : row.call.isFinished = true := by
  rw [h.rows] at hrow
  exact isFinished_of_mem_callTable hrow hlevel

theorem Built.closedBelow (h : Built steps b) : ClosedBelow b.opened :=
  closedBelow_of_openRows fun _ hrow =>
    h.isFinished_of_mem_rows (List.mem_append_right _ hrow)

theorem Built.allFinished_roots (h : Built steps b) : AllFinished 0 b.roots :=
  allFinished_of_closedRows fun _ hrow => h.isFinished_of_mem_rows (List.mem_append_left _ hrow)

/-- **Closing the chain makes it the active path.** From the innermost open call out, each call that is
attached to its caller brings the path found so far with it. -/
theorem exists_closeAll (roots : List Call) {c : Call} {rest : List Call} (hc : c.returns = [])
    (hrest : ∀ d ∈ rest, d.returns = []) (hbelow : ClosedBelow rest)
    (hpath : PathRuns rest.length c) :
    ∃ t outer, closeAll roots (c :: rest) = roots ++ [t] ∧ t.returns = [] ∧ PathRuns 0 t ∧
      t.activePath = outer ++ c.activePath ∧ outer.map Call.id = (rest.map Call.id).reverse := by
  induction rest generalizing c with
  | nil =>
    refine ⟨c, [], ?_, hc, hpath, rfl, rfl⟩
    rw [closeAll]
  | cons parent rest ih =>
    have hparent := hrest parent List.mem_cons_self
    obtain ⟨hcalls, hbelow⟩ := hbelow
    obtain ⟨t, outer, hclose, ht, hruns, hactive, hids⟩ :=
      ih (c := { parent with calls := parent.calls ++ [c] }) hparent
        (fun d hd => hrest d (List.mem_cons_of_mem _ hd)) hbelow (hpath.attached hc hparent hcalls)
    refine ⟨t, outer ++ [{ parent with calls := parent.calls ++ [c] }], ?_, ht, hruns, ?_, ?_⟩
    · rw [closeAll, hclose]
    · rw [hactive, activePath_eq, lastActivePath_append_singleton, isFinished_eq_false hc,
        List.append_assoc]
      rfl
    · rw [List.map_append, hids, List.map_singleton, List.map_cons, List.reverse_cons]

end CallTree.Builder

/-! ## The path through a tree -/

namespace CallTree

open CallTree.Builder

variable {steps : List Step} {t : Call}

theorem exists_closeAll_of_ofSteps (h : ofSteps steps = .ok (some t)) :
    ∃ b, Builder.empty.recordAll 0 steps = .ok b ∧ closeAll b.roots b.opened = [t] := by
  obtain ⟨b, hrun, -⟩ := exists_recordAll (returnsMatched_of_ofSteps h)
  refine ⟨b, hrun, ofRoots_eq_some_iff.mp ?_⟩
  rw [← h]
  unfold ofSteps
  rw [hrun]
  rfl

/-- When no call is open the tree is finished, and so is every call in it. -/
theorem activePath_of_opened_nil {b : Builder} (hbuilt : Built steps b) (hopened : b.opened = [])
    (hclose : closeAll b.roots b.opened = [t]) : t.isFinished = true ∧ t.activePath = [t] := by
  rw [hopened, closeAll] at hclose
  have hroots := hbuilt.allFinished_roots
  rw [hclose] at hroots
  refine ⟨hroots (0, t) ?_, ?_⟩
  · rw [Call.preordersAt_singleton]
    exact List.mem_cons_self
  · have hcalls : Call.AllFinished 1 t.calls := fun e he => hroots e (by
      rw [Call.preordersAt_singleton]
      exact List.mem_cons_of_mem _ he)
    rw [Call.activePath_eq, hcalls.lastActivePath]

/-- When calls are open the tree is not finished, and its path ends with the innermost of them. -/
theorem activePath_of_opened_cons {b : Builder} {c : Call} {rest : List Call}
    (hbuilt : Built steps b) (hopened : b.opened = c :: rest)
    (hclose : closeAll b.roots b.opened = [t]) :
    t.isFinished = false ∧ Call.PathRuns 0 t ∧ t.activePath.getLast? = some c ∧
      t.activePath.map Call.id = (openCalls steps).reverse := by
  have hrunning := hbuilt.running
  have hbelow := hbuilt.closedBelow
  have hopen := hbuilt.openCalls_eq
  rw [hopened] at hclose hrunning hbelow hopen
  have hc := hrunning c List.mem_cons_self
  obtain ⟨t', outer, hclose', ht', hruns, hactive, hids⟩ :=
    exists_closeAll b.roots hc (fun d hd => hrunning d (List.mem_cons_of_mem c hd)) hbelow.2
      (Call.pathRuns_of_allFinished hc hbelow.1)
  have happend : b.roots ++ [t'] = [] ++ [t] := hclose'.symm.trans hclose
  obtain rfl : t' = t := (List.cons.inj (List.append_inj' happend rfl).2).1
  rw [Call.activePath_eq c, hbelow.1.lastActivePath] at hactive
  refine ⟨Call.isFinished_eq_false ht', hruns, ?_, ?_⟩
  · rw [hactive, List.getLast?_concat]
  · rw [hactive, hopen, List.map_append, hids, List.map_singleton, List.map_cons, List.reverse_cons]

end CallTree

end Retrace
