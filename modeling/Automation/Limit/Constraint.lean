import Automation.Time.Instant
import Automation.Time.Span

/-!
# Constraints

A constraint allows so many occurrences within a window that rolls with the clock.  What it forbids
is decided by its own occurrences alone.
-/

namespace Automation

/-- At most `count` occurrences within any window of length `range`. -/
structure Constraint where
  id : String
  range : Span
  count : Nat
  deriving DecidableEq, Repr, Inhabited

/-- Something that a constraint counts, and when it happened. -/
structure Occurrence where
  constraintId : String
  time : Instant
  deriving DecidableEq, Repr, Inhabited

end Automation
