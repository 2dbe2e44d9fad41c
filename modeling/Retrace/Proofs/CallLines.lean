import Retrace.Proofs.OpenCalls
import Retrace.Viewer.Pane

/-!
# The lines of a call tree

The pane lists the calls of a tree from those still pending: it takes the first, and puts the calls that
this one made before the others. So the calls come in preorder, which is the order of their invocations,
each with as many calls above it as were open when it was made.

* `pendingLines_eq`, `callLines_eq`: the pending calls are listed tree by tree, each in preorder.
* `ShowsCall`: a line has the call's name, its arguments and the value that it returned.
* `eq_of_invocations_eq`: an invocation is told by the number of invocations before it.
* `length_openCalls`: how many calls are open after some steps.
* `callLines_spec`: the lines of the tree of a list of steps.
-/

namespace Retrace

open Call CallTree

/-! ## The lines and the tree -/

namespace Call

theorem preordersAt_eq_flatMap (depth : Nat) (cs : List Call) :
    preordersAt depth cs = cs.flatMap (preorderAt depth) := by
  induction cs with
  | nil => rfl
  | cons c cs ih => rw [preordersAt, ih, List.flatMap_cons]

end Call

namespace Viewer

/-- **Pending calls are listed one after another**, each with the calls below it in preorder. -/
theorem pendingLines_eq (pending : List (Nat × Call)) :
    pendingLines pending =
      (pending.flatMap fun e => preorderAt e.1 e.2).map fun e => callRuns e.1 e.2 := by
  fun_induction pendingLines pending with
  | case1 => rfl
  | case2 depth c pending ih =>
    have hmade : (c.madeAt (depth + 1)).flatMap (fun e => preorderAt e.1 e.2) =
        preordersAt (depth + 1) c.calls := by
      rw [madeAt, preordersAt_eq_flatMap, List.flatMap_map]
    rw [ih, List.flatMap_append, hmade, List.flatMap_cons, preorderAt_eq, List.cons_append,
      List.map_cons]

theorem callLines_eq (root : Call) :
    callLines root = root.preorder.map fun e => callRuns e.1 e.2 := by
  rw [callLines, pendingLines_eq, List.flatMap_singleton]
  rfl

theorem length_callLines (root : Call) : (callLines root).length = root.size := by
  rw [callLines_eq, List.length_map]
  exact (size_eq_length_preorderAt 0 root).symm

end Viewer

/-! ## The tree and the steps -/

/-- The invocation with a given number of invocations before it stands in one place only. -/
theorem eq_of_invocations_eq {before before' after after' : List Step} {s s' : Step}
    (h : before ++ s :: after = before' ++ s' :: after') (hs : s.isInvocation = true)
    (hs' : s'.isInvocation = true) (hcount : invocations before = invocations before') :
    before = before' ∧ s = s' ∧ after = after' := by
  have key {m rest rest' : List Step} {s : Step} (hs : s.isInvocation = true)
      (hm : s :: rest = m ++ rest') (hnone : invocations m = 0) : m = [] := by
    cases m with
    | nil => rfl
    | cons first m =>
      obtain ⟨rfl, -⟩ := List.cons.inj hm
      rw [invocations, List.countP_cons_of_pos hs] at hnone
      omega
  rcases List.append_eq_append_iff.mp h with ⟨m, rfl, hm⟩ | ⟨m, rfl, hm⟩
  · rw [invocations_append] at hcount
    obtain rfl := key hs hm (by omega)
    obtain ⟨rfl, rfl⟩ := List.cons.inj hm
    exact ⟨(List.append_nil before).symm, rfl, rfl⟩
  · rw [invocations_append] at hcount
    obtain rfl := key hs' hm (by omega)
    obtain ⟨rfl, rfl⟩ := List.cons.inj hm
    exact ⟨List.append_nil before', rfl, rfl⟩

theorem length_openCalls {steps : List Step} (h : ReturnsMatched steps) :
    ((openCalls steps).length : Int) = balance steps := by
  obtain ⟨b, -, hbuilt⟩ := Builder.exists_recordAll h
  rw [hbuilt.openCalls_eq, List.length_map, hbuilt.height]

/-- The call that stands in preorder behind as many others as there are invocations before its own. -/
theorem exists_getElem?_preorder {steps before after : List Step} {s : Step} {t : Call}
    (h : ofSteps steps = .ok (some t)) (hsteps : steps = before ++ s :: after)
    (hs : s.isInvocation = true) :
    ∃ c, t.preorder[invocations before]? = some ((openCalls before).length, c) ∧
      c.invocation = s ∧ CallShown steps before after (openCalls before).length c := by
  have hids := ids_of_ofSteps h
  have hlt : invocations before < invocations steps := by
    rw [hsteps, invocations_append, invocations, invocations, List.countP_cons_of_pos hs]
    omega
  have hlength : t.preorder.length = invocations steps := by
    simpa using congrArg List.length hids
  obtain ⟨⟨depth, c⟩, hc⟩ : ∃ e, t.preorder[invocations before]? = some e :=
    ⟨_, List.getElem?_eq_getElem (hlength ▸ hlt)⟩
  have hid : c.id = invocations before := by
    have := congrArg (·[invocations before]?) hids
    simpa [hc, List.getElem?_range hlt] using this
  obtain ⟨before', after', hshown⟩ := callShown_of_mem_preorder h (List.mem_of_getElem? hc)
  obtain ⟨rfl, rfl, rfl⟩ := eq_of_invocations_eq (hsteps.symm.trans hshown.place) hs
    hshown.invocation (hid.symm.trans hshown.id)
  have hmatched : ReturnsMatched before := fun q hq =>
    returnsMatched_of_ofSteps h q (hq.trans ⟨_, hsteps.symm⟩)
  have hdepth : (openCalls before).length = depth := by
    have := length_openCalls hmatched
    rw [← hshown.depth] at this
    exact_mod_cast this
  rw [hdepth]
  exact ⟨c, hc, rfl, hshown⟩

/-! ## What a line shows -/

namespace Viewer

/-- How an argument is written: by its name, its value or both. -/
inductive ArgumentWritten (s : Step) : String → Prop
  | both {name : String} {v : TypedValue} (hname : s.identifier = some name)
      (hvalue : s.value = some v) : ArgumentWritten s (name ++ "=" ++ v.value.format v.type)
  | value {v : TypedValue} (hname : s.identifier = none) (hvalue : s.value = some v) :
      ArgumentWritten s (v.value.format v.type)
  | name {name : String} (hname : s.identifier = some name) (hvalue : s.value = none) :
      ArgumentWritten s name
  | unknown (hname : s.identifier = none) (hvalue : s.value = none) : ArgumentWritten s "?"

/-- How arguments are written: in their order, with commas between them. -/
inductive ArgumentsWritten : List Step → String → Prop
  | none : ArgumentsWritten [] ""
  | last {s : Step} {text : String} (h : ArgumentWritten s text) : ArgumentsWritten [s] text
  | more {s next : Step} {steps : List Step} {text rest : String} (h : ArgumentWritten s text)
      (hrest : ArgumentsWritten (next :: steps) rest) :
      ArgumentsWritten (s :: next :: steps) (text ++ ", " ++ rest)

/-- How the value is written that a call returned, if it returned one. -/
inductive ResultWritten (returns : List Step) : String → Prop
  | value {s : Step} {v : TypedValue} (hreturn : returns.head? = some s)
      (hvalue : s.value = some v) : ResultWritten returns (" → " ++ v.value.format v.type)
  | none (h : ∀ s, returns.head? = some s → s.value = none) : ResultWritten returns ""

/-- A line shows a call below `depth` others. -/
structure ShowsCall (depth : Nat) (c : Call) (line : List Run) : Prop where
  /-- It begins with two blanks for each of the others. -/
  margin : line.head? = some ⟨List.replicate (2 * depth) ' ', Style.plain⟩
  /-- It has the name of the call with the arguments in brackets, and behind them the result. -/
  text : ∃ arguments result, ArgumentsWritten c.parameters arguments ∧
    ResultWritten c.returns result ∧
    line.flatMap Run.text = List.replicate (2 * depth) ' ' ++
      (c.invocation.identifier.getD "?" ++ "(" ++ arguments ++ ")" ++ result).toList
  /-- A call that has not returned stands out. -/
  bold : ∃ call, line.tail.head? = some call ∧ (call.style.bold = true ↔ c.returns = [])

theorem argumentWritten_argumentText (s : Step) : ArgumentWritten s (argumentText s) := by
  unfold argumentText stepValue?
  cases hname : s.identifier with
  | none =>
    cases hvalue : s.value with
    | none => exact .unknown hname hvalue
    | some v => exact .value hname hvalue
  | some name =>
    cases hvalue : s.value with
    | none => exact .name hname hvalue
    | some v => exact .both hname hvalue

theorem argumentsWritten_intercalate (steps : List Step) :
    ArgumentsWritten steps (String.intercalate ", " (steps.map argumentText)) := by
  induction steps with
  | nil =>
    rw [List.map_nil, String.intercalate_nil]
    exact .none
  | cons s steps ih =>
    cases steps with
    | nil =>
      rw [List.map_singleton, String.intercalate_singleton]
      exact .last (argumentWritten_argumentText s)
    | cons next steps =>
      rw [List.map_cons, List.map_cons, String.intercalate_cons_cons]
      exact .more (argumentWritten_argumentText s) ih

/-- **The line of a call shows it.** -/
theorem showsCall_callRuns (depth : Nat) (c : Call) : ShowsCall depth c (callRuns depth c) where
  margin := rfl
  text := by
    cases hresult : c.returns.head?.bind stepValue? with
    | none =>
      refine ⟨_, _, argumentsWritten_intercalate c.parameters, .none fun s hs => ?_, ?_⟩
      · rw [hs, Option.bind_some] at hresult
        exact Option.map_eq_none_iff.mp hresult
      · simp [callRuns, hresult, Run.ofString, callText, Call.name]
    | some value =>
      obtain ⟨s, hs, hvalue⟩ := Option.bind_eq_some_iff.mp hresult
      obtain ⟨v, hv, rfl⟩ := Option.map_eq_some_iff.mp hvalue
      refine ⟨_, _, argumentsWritten_intercalate c.parameters, .value hs hv, ?_⟩
      simp [callRuns, hresult, Run.ofString, callText, Call.name]
  bold := by
    refine ⟨_, rfl, ?_⟩
    cases hreturns : c.returns with
    | nil => simp [Run.ofString, isFinished, hreturns, Style.inBold]
    | cons s returns => simp [Run.ofString, isFinished, hreturns, Style.colored]

/-- **The lines of a call tree are those of the invocations of its steps, in their order.** There is a line
for each; it shows the call that the invocation opens, with two blanks before it for each call that was
open then. -/
theorem callLines_spec {steps : List Step} {t : Call} (h : ofSteps steps = .ok (some t)) :
    (callLines t).length = t.size ∧ t.size = invocations steps ∧
    ∀ before s after, steps = before ++ s :: after → s.isInvocation = true →
      ∃ c line, (callLines t)[invocations before]? = some line ∧
        t.preorder[invocations before]? = some ((openCalls before).length, c) ∧
        c.invocation = s ∧ CallShown steps before after (openCalls before).length c ∧
        ShowsCall (openCalls before).length c line := by
  refine ⟨length_callLines t, size_of_ofSteps h, fun before s after hsteps hs => ?_⟩
  obtain ⟨c, hc, hinvocation, hshown⟩ := exists_getElem?_preorder h hsteps hs
  refine ⟨c, _, ?_, hc, hinvocation, hshown, showsCall_callRuns _ c⟩
  rw [callLines_eq, List.getElem?_map, hc, Option.map_some]

/-- A call in which one call has returned a value, and another is still running. -/
def squareCall : List Step :=
  [{ action := .invocation, identifier := some "main" },
    { action := .invocation, identifier := some "square" },
    { action := .parameter, identifier := some "n", value := some ⟨"int", .int 3⟩ },
    { action := .ret, value := some ⟨"int", .int 9⟩ },
    { action := .invocation, identifier := some "print" }]

/-- The calls of these steps. -/
def squareTree : Call where
  id := 0
  invocation := { action := .invocation, identifier := some "main" }
  parameters := []
  returns := []
  calls :=
    [⟨1, { action := .invocation, identifier := some "square" },
        [{ action := .parameter, identifier := some "n", value := some ⟨"int", .int 3⟩ }],
        [{ action := .ret, value := some ⟨"int", .int 9⟩ }], []⟩,
      .opened 2 { action := .invocation, identifier := some "print" }]

/-- The second of the three lines shows the second invocation, with its argument and what it returned,
below one open call. -/
theorem squareCall_callLines :
    ofSteps squareCall = .ok (some squareTree) ∧ (callLines squareTree).length = 3 ∧
      ∃ line, (callLines squareTree)[1]? = some line ∧
        line.flatMap Run.text = "  square(n=3) → 9".toList := by
  have htree : ofSteps squareCall = .ok (some squareTree) := by cbv
  obtain ⟨hlength, hsize, hlines⟩ := callLines_spec htree
  obtain ⟨c, line, hline, hc, -, -, hshows⟩ :=
    hlines (squareCall.take 1) _ (squareCall.drop 2) rfl rfl
  obtain rfl := (Prod.mk.inj (Option.some.inj hc)).2
  obtain ⟨arguments, result, harguments, hresult, htext⟩ := hshows.text
  have hwritten : arguments = "n=3" := by
    cases harguments with
    | last h =>
      cases h with
      | both hname hvalue =>
        obtain rfl := Option.some.inj hname
        obtain rfl := Option.some.inj hvalue
        decide
      | value hname => cases hname
      | name _ hvalue => cases hvalue
      | unknown hname => cases hname
  have hreturned : result = " → 9" := by
    cases hresult with
    | value hreturn hvalue =>
      obtain rfl := Option.some.inj hreturn
      obtain rfl := Option.some.inj hvalue
      decide
    | none h => cases h _ rfl
  refine ⟨htree, by rw [hlength, hsize]; decide, line, hline, ?_⟩
  rw [htext, hwritten, hreturned]
  decide

end Viewer

end Retrace
