import Retrace.Session

/-!
# Dumps

A dump writes every stop of a session, from the first to the last, and then everything that the
program wrote. A stop that cannot be shown ends the dump with its error; what was written before it
stands.

Models `dump`.

* `Session.block`: what is written at a stop.
* `Session.dumpFrom`: the blocks from the cursor on.
* `Session.dump`: the whole dump.
-/

namespace Retrace

/-- The text of a dump, the session where it ended, and the error that ended it. -/
structure Dump where
  text : String
  session : Session
  error : Option ViewError

namespace Session

/-- The line that names a stop. -/
def heading (s : Session) : String :=
  "== step " ++ toString (s.cursor + 1) ++ " [" ++ s.statementLabel?.getD "-" ++ "] ==\n"

/-- The line of the calls in progress; none before the first call. -/
def callsLine : Option Call → String
  | none => ""
  | some root => "  calls: " ++ String.intercalate " > " (root.activePath.map Call.name) ++ "\n"

/-- The line of a variable. -/
def variableLine (v : Variable) : String :=
  "  " ++ v.type ++ " " ++ v.identifier ++ " = " ++ v.shown?.getD "?" ++ "\n"

/-- What is written at the cursor, and the error that cuts it short. -/
def block (s : Session) : String × Option ViewError :=
  match s.evaluatedCode with
  | .error e => (s.heading, some (.source e))
  | .ok code =>
    match s.callTree with
    | .error e => (s.heading ++ code ++ "\n", some (.calls e))
    | .ok tree =>
      let lines := String.join (s.visibleVariables.map variableLine)
      (s.heading ++ code ++ "\n" ++ callsLine tree ++ lines, none)

/-- What is written behind the last stop. -/
def footer (s : Session) : String := "== output ==\n" ++ s.output

/-- The blocks from the cursor to the last stop, after the text written so far. -/
def dumpFrom (s : Session) (text : String) : Dump :=
  match s.block with
  | (block, some e) => ⟨text ++ block, s, some e⟩
  | (block, none) =>
    match h : s.forwardTarget? s.config.stepMode with
    | none => ⟨text ++ block ++ s.footer, s, none⟩
    | some target =>
      have := lt_of_forwardTarget? h
      dumpFrom { s with cursor := target } (text ++ block)
termination_by s.steps.length - s.cursor
decreasing_by omega

/-- The dump of a session that has run. -/
def dump (s : Session) : Dump :=
  if s.steps.isEmpty then ⟨"(empty trace)\n", s, none⟩ else dumpFrom s.rewind ""

end Session

end Retrace
