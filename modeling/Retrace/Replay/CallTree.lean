import Retrace.Error
import Retrace.Step

/-!
# Call trees

The calls of a run as a tree. Calls are numbered in the order in which they are made; a call still
open at the end is kept where it will stand. A return without an open call, or several calls at top
level, form no tree.

Models `CallNode`, `build_call_tree`, `attach` and `active_path`.

* `CallTree.Builder.record`: one more step.
* `CallTree.ofSteps`: the tree of a list of steps.
* `Call.preorder`, `Call.activePath`: all calls with their depths, and the chain of calls in
  progress.
-/

namespace Retrace

/-- A call: its invocation, the parameters and returns recorded directly in it and the calls it
made. -/
structure Call where
  id : Nat
  invocation : Step
  parameters : List Step
  returns : List Step
  calls : List Call

namespace Call

/-- A call that was just made. -/
def opened (id : Nat) (invocation : Step) : Call := ⟨id, invocation, [], [], []⟩

/-- A call is finished once its return was recorded. -/
def isFinished (c : Call) : Bool := !c.returns.isEmpty

/-- The name of the called function, when it was recorded. -/
def name (c : Call) : String := c.invocation.identifier.getD "?"

mutual

/-- The number of calls in the tree below and with a call. -/
def size : Call → Nat
  | ⟨_, _, _, _, calls⟩ => 1 + sizes calls

/-- The number of calls in a list of trees. -/
def sizes : List Call → Nat
  | [] => 0
  | c :: rest => size c + sizes rest

end

mutual

/-- A call and all calls below it, each before the calls it made, with their depths. -/
def preorderAt (depth : Nat) : Call → List (Nat × Call)
  | ⟨id, invocation, parameters, returns, calls⟩ =>
    (depth, ⟨id, invocation, parameters, returns, calls⟩) :: preordersAt (depth + 1) calls

/-- The calls of a list of trees in the same order. -/
def preordersAt (depth : Nat) : List Call → List (Nat × Call)
  | [] => []
  | c :: rest => preorderAt depth c ++ preordersAt depth rest

end

/-- A call and all calls below it with their depths, the call itself at depth zero. -/
def preorder (c : Call) : List (Nat × Call) := preorderAt 0 c

/-- The calls that a call made, with their depth. -/
def madeAt (depth : Nat) (c : Call) : List (Nat × Call) := c.calls.map (depth, ·)

theorem size_eq (c : Call) : c.size = 1 + sizes c.calls := by
  cases c
  rw [size]

theorem sizes_append (cs ds : List Call) : sizes (cs ++ ds) = sizes cs + sizes ds := by
  induction cs with
  | nil => rw [List.nil_append, sizes, Nat.zero_add]
  | cons c cs ih => rw [List.cons_append, sizes, sizes, ih, Nat.add_assoc]

theorem map_snd_madeAt (depth : Nat) (c : Call) : (c.madeAt depth).map Prod.snd = c.calls := by
  rw [madeAt, List.map_map]
  exact List.map_id c.calls

mutual

/-- A call followed by the chain of calls that are still running in it. -/
def activePath : Call → List Call
  | ⟨id, invocation, parameters, returns, calls⟩ =>
    ⟨id, invocation, parameters, returns, calls⟩ :: lastActivePath calls

/-- The path of the last call of a list, unless it is finished. -/
def lastActivePath : List Call → List Call
  | [] => []
  | [c] => if c.isFinished then [] else activePath c
  | _ :: c :: rest => lastActivePath (c :: rest)

end

mutual

/-- The invocations and returns of a tree in the order in which they were recorded. -/
def events : Call → List Step
  | ⟨_, invocation, _, returns, calls⟩ => invocation :: (eventsOf calls ++ returns)

/-- The invocations and returns of a list of trees. -/
def eventsOf : List Call → List Step
  | [] => []
  | c :: rest => events c ++ eventsOf rest

end

end Call

namespace CallTree

/-- A tree under construction: open calls, innermost first, closed top-level calls, and the next
number. -/
structure Builder where
  opened : List Call
  roots : List Call
  nextId : Nat

namespace Builder

/-- Nothing recorded yet. -/
def empty : Builder := ⟨[], [], 0⟩

/-- Puts a call below the innermost open one, or at top level. -/
def attach (c : Call) (opened roots : List Call) : List Call × List Call :=
  match opened with
  | [] => ([], roots ++ [c])
  | parent :: rest => ({ parent with calls := parent.calls ++ [c] } :: rest, roots)

/-- The builder after the step at a position. -/
def record (b : Builder) (index : Nat) (s : Step) : Except CallTreeError Builder :=
  if s.isInvocation then
    .ok { b with opened := Call.opened b.nextId s :: b.opened, nextId := b.nextId + 1 }
  else if s.isParameter then
    match b.opened with
    | [] => .ok b
    | c :: rest => .ok { b with opened := { c with parameters := c.parameters ++ [s] } :: rest }
  else if s.isReturn then
    match b.opened with
    | [] => .error (.unmatchedReturn index)
    | c :: rest =>
      let (opened, roots) := attach { c with returns := c.returns ++ [s] } rest b.roots
      .ok { b with opened := opened, roots := roots }
  else .ok b

/-- The builder after steps of which the first is at a position. -/
def recordAll (b : Builder) (index : Nat) : List Step → Except CallTreeError Builder
  | [] => .ok b
  | s :: rest => do
    let b ← b.record index s
    recordAll b (index + 1) rest

/-- The top-level calls once every open call is attached to its caller. -/
def closeAll (roots : List Call) : List Call → List Call
  | [] => roots
  | [c] => roots ++ [c]
  | c :: parent :: rest => closeAll roots ({ parent with calls := parent.calls ++ [c] } :: rest)
termination_by opened => opened.length

end Builder

/-- The call tree of a list of steps; nothing when no call was made. -/
def ofSteps (steps : List Step) : Except CallTreeError (Option Call) := do
  let b ← Builder.empty.recordAll 0 steps
  match Builder.closeAll b.roots b.opened with
  | [] => .ok none
  | [root] => .ok (some root)
  | roots => .error (.multipleRoots roots.length)

end CallTree

end Retrace
