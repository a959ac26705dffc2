import Automation.Limit.Constraint
import Automation.Wire.Basic

/-!
# The written form of constraints and occurrences

The window of a constraint is written in whole milliseconds.
-/

namespace Automation

open Json

namespace Constraint

/-- A constraint as a value. -/
def json (c : Constraint) : Json :=
  .obj (field "id" (.str c.id) ++ field "range_ms" (.int c.range.toMillis) ++
    field "count" (.int c.count))

/-- Reads a constraint. -/
def decode? : Decoder Constraint := fun d => do
  let fields ← Decode.record? ["id", "range_ms", "count"] d
  let id ← Decode.required fields "id" Decode.string
  let millis ← Decode.required fields "range_ms" (Decode.word 64)
  let count ← Decode.required fields "count" (Decode.word 32)
  some ⟨id, Span.ofMillis millis, count⟩

end Constraint

namespace Occurrence

/-- An occurrence as a value. -/
def json (o : Occurrence) : Json :=
  .obj (field "constraint_id" (.str o.constraintId) ++ field "timestamp" o.time.json)

/-- Reads an occurrence. -/
def decode? : Decoder Occurrence := fun d => do
  let fields ← Decode.record? ["constraint_id", "timestamp"] d
  let constraintId ← Decode.required fields "constraint_id" Decode.string
  let time ← Decode.required fields "timestamp" Instant.decode?
  some ⟨constraintId, time⟩

end Occurrence
end Automation
