import Automation.Wire.Limit
import Automation.Wire.Schedule

/-!
# Scenarios and decisions

A scenario is what a simulation replays: the constraints and schedules to begin with, and then
events with the time that passes before each.  What comes out is one decision per firing, in the
order of the firings.
-/

namespace Automation

/-- One event of a scenario and how far the clock is moved before it. -/
structure ScenarioStep where
  advanceMillis : Int
  event : Event
  deriving Repr

/-- What a simulation replays.  Without a start it begins at the present. -/
structure Scenario where
  startMillis : Option Int
  constraints : List Constraint
  schedules : List Schedule
  steps : List ScenarioStep
  deriving Repr

/-- What was decided about a firing.  A cancellation is always accepted; an execution only if its
constraints allow it. -/
structure Decision where
  date : Instant
  scheduleId : String
  triggerId : String
  kind : Execution
  accepted : Bool
  deriving DecidableEq, Repr

open Json

/-- Reads a step. -/
def ScenarioStep.decode? : Decoder ScenarioStep := fun d => do
  let fields ← Decode.record? ["advance_ms", "event"] d
  let advanceMillis ← Decode.defaulted fields "advance_ms" Decode.int64 0
  let event ← Decode.required fields "event" Event.decode?
  some ⟨advanceMillis, event⟩

/-- Reads a scenario. -/
def Scenario.decode? (form : LeafForm) : Decoder Scenario := fun d => do
  let fields ← Decode.record? ["start_ms", "constraints", "schedules", "steps"] d
  let startMillis ← Decode.optional fields "start_ms" Decode.int64
  let constraints ← Decode.defaulted fields "constraints" (Decode.list Constraint.decode?) []
  let schedules ← Decode.defaulted fields "schedules" (Decode.list (Schedule.decode? form)) []
  let steps ← Decode.defaulted fields "steps" (Decode.list ScenarioStep.decode?) []
  some ⟨startMillis, constraints, schedules, steps⟩

/-- A decision as a value. -/
def Decision.json (d : Decision) : Json :=
  .obj (field "date" d.date.json ++ field "schedule_id" (.str d.scheduleId) ++
    field "trigger_id" (.str d.triggerId) ++ field "execution_type" d.kind.json ++
    field "accepted" (.bool d.accepted))

end Automation
