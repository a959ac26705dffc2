import Automation.Schedule
import Automation.Wire.Event
import Automation.Wire.Matcher

/-!
# The written form of triggers, schedules and firings

Fields are written in the order in which they are declared here, and that is also their order when a
record is given as an array.  Optional fields are left out when there is no value.
-/

namespace Automation

open Json

/-! ## Triggers -/

namespace Trigger

/-- A trigger as a value. -/
def json (t : Trigger) : Json :=
  .obj (field "id" (.str t.id) ++ field "type" t.type.json ++ field "goal" (.float t.goal) ++
    fieldIfSome "predicate" (t.predicate.map Matcher.json))

/-- Reads a trigger. -/
def decode? (form : LeafForm) : Decoder Trigger := fun d => do
  let fields ← Decode.record? ["id", "type", "goal", "predicate"] d
  let id ← Decode.required fields "id" Decode.string
  let type ← Decode.required fields "type" EventType.decode?
  let goal ← Decode.required fields "goal" Decode.double
  let predicate ← Decode.optional fields "predicate" (Matcher.decode? form)
  some ⟨id, type, goal, predicate⟩

end Trigger

namespace Progress

/-- Progress as a value. -/
def json (p : Progress) : Json :=
  .obj (field "schedule_id" (.str p.scheduleId) ++ field "trigger_id" (.str p.triggerId) ++
    field "count" (.float p.count) ++ fieldIfSome "last_state" (p.lastState.map AppState.json))

/-- Reads progress. -/
def decode? : Decoder Progress := fun d => do
  let fields ← Decode.record? ["schedule_id", "trigger_id", "count", "last_state"] d
  let scheduleId ← Decode.required fields "schedule_id" Decode.string
  let triggerId ← Decode.required fields "trigger_id" Decode.string
  let count ← Decode.required fields "count" Decode.double
  let lastState ← Decode.optional fields "last_state" AppState.decode?
  some ⟨scheduleId, triggerId, count, lastState⟩

end Progress

/-! ## Schedules -/

/-- An execution type as its name. -/
def Execution.json (e : Execution) : Json := .str e.name

/-- Reads an execution type. -/
def Execution.decode? : Decoder Execution := fun d =>
  (Decode.plainName? Decode.isNothing d).bind Execution.ofName?

/-- A state of a schedule as its name. -/
def ScheduleState.json (s : ScheduleState) : Json := .str s.name

/-- Reads a state of a schedule. -/
def ScheduleState.decode? : Decoder ScheduleState := fun d =>
  (Decode.plainName? Decode.isNothing d).bind ScheduleState.ofName?

namespace Schedule

/-- The names of the fields, in order. -/
def fieldNames : List String :=
  ["id", "group", "priority", "start", "end", "triggers", "cancellation_triggers",
    "frequency_constraint_ids", "state"]

/-- A schedule as a value. -/
def json (s : Schedule) : Json :=
  .obj (field "id" (.str s.id) ++ fieldIfSome "group" (s.group.map .str) ++
    field "priority" (.int s.priority) ++
    fieldIfSome "start" (s.window.start.map Instant.json) ++
    fieldIfSome "end" (s.window.stop.map Instant.json) ++
    field "triggers" (list Trigger.json s.triggers) ++
    field "cancellation_triggers" (list Trigger.json s.cancellationTriggers) ++
    field "frequency_constraint_ids" (list .str s.constraintIds) ++ field "state" s.state.json)

/-- Reads a schedule. -/
def decode? (form : LeafForm) : Decoder Schedule := fun d => do
  let fields ← Decode.record? fieldNames d
  let id ← Decode.required fields "id" Decode.string
  let group ← Decode.optional fields "group" Decode.string
  let priority ← Decode.defaulted fields "priority" Decode.int32 0
  let start ← Decode.optional fields "start" Instant.decode?
  let stop ← Decode.optional fields "end" Instant.decode?
  let triggers ← Decode.required fields "triggers" (Decode.list (Trigger.decode? form))
  let cancellation ←
    Decode.defaulted fields "cancellation_triggers" (Decode.list (Trigger.decode? form)) []
  let constraintIds ←
    Decode.defaulted fields "frequency_constraint_ids" (Decode.list Decode.string) []
  let state ← Decode.defaulted fields "state" ScheduleState.decode? .idle
  some ⟨id, group, priority, ⟨start, stop⟩, triggers, cancellation, constraintIds, state⟩

end Schedule

/-! ## Firings -/

namespace FiringInfo

/-- What a trigger looked like when it fired, as a value. -/
def json (i : FiringInfo) : Json :=
  .obj (field "trigger_id" (.str i.triggerId) ++ field "event_type" i.eventType.json ++
    field "goal" (.float i.goal) ++ field "count" (.float i.count) ++
    fieldIfSome "event" i.payload ++ field "date" i.date.json)

/-- Reads what a trigger looked like when it fired. -/
def decode? : Decoder FiringInfo := fun d => do
  let fields ←
    Decode.record? ["trigger_id", "event_type", "goal", "count", "event", "date"] d
  let triggerId ← Decode.required fields "trigger_id" Decode.string
  let eventType ← Decode.required fields "event_type" EventType.decode?
  let goal ← Decode.required fields "goal" Decode.double
  let count ← Decode.required fields "count" Decode.double
  let payload ← Decode.optional fields "event" Decode.any
  let date ← Decode.required fields "date" Instant.decode?
  some ⟨triggerId, eventType, goal, count, payload, date⟩

end FiringInfo

namespace Firing

/-- A firing as a value. -/
def json (f : Firing) : Json :=
  .obj (field "schedule_id" (.str f.scheduleId) ++ field "execution_type" f.kind.json ++
    field "info" f.info.json)

/-- Reads a firing. -/
def decode? : Decoder Firing := fun d => do
  let fields ← Decode.record? ["schedule_id", "execution_type", "info"] d
  let scheduleId ← Decode.required fields "schedule_id" Decode.string
  let kind ← Decode.required fields "execution_type" Execution.decode?
  let info ← Decode.required fields "info" FiringInfo.decode?
  some ⟨scheduleId, kind, info⟩

end Firing
end Automation
