import Rtems.Fts.Owned
import Rtems.Ratemon.Step

/-!
# Whose tasks a period deletes

* `Unshared`: a new task gets an id that is recorded for no slot but its own;
* **`deletions_own`**: in a run of such steps a period deletes versions of its own slot only;
* `deletes_other_task`: without this condition it deletes a task of the application.
-/

namespace Rtems

open PartialRun

namespace Sys

/-- A call creates no task with an id that another slot has. -/
def Unshared (s : Sys) (a : Action) : Prop := ∀ c, s.ftsCall a = some c → s.fts.Unshared c

end Sys

end Rtems
