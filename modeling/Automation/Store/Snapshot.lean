import Automation.Json.Decode
import Automation.Store.Tables
import Automation.Wire.Schedule

/-!
# Tables as text

A store outlives a run as one text: a value with a list of rows for each table.  Rows are written
and not records, so a row that no record can be read from is kept as it is, and it is still there
to be complained about when it is read.

## Why counts are bits

A count may be infinite, and there is no numeral for infinity.  So a count is written as the natural
number of its 64 bits, which is exact for every count, and no rounding has to be trusted on the way
back.
-/

namespace Automation
namespace Tables

open Json

/-! ## Writing -/

/-- A row of progress as a value. -/
def progressJson (key : ProgressKey) (row : ProgressRow) : Json :=
  .obj (field "schedule_id" (.str key.scheduleId) ++ field "trigger_id" (.str key.triggerId) ++
    field "count_bits" (.int row.count.toBits) ++
    fieldIfSome "last_state" (row.lastState.map Json.str))

/-- A row of a constraint as a value. -/
def constraintJson (id : String) (row : ConstraintRow) : Json :=
  .obj (field "id" (.str id) ++ field "range_ms" (.int row.rangeMillis) ++
    field "count" (.int row.count))

/-- A row of an occurrence as a value. -/
def occurrenceJson (row : OccurrenceRow) : Json :=
  .obj (field "constraint_id" (.str row.constraintId) ++ field "time_ms" (.int row.millis))

/-- Tables as a value. -/
def json (t : Tables) : Json :=
  .obj (field "progress" (Json.list (fun e => progressJson e.1 e.2) t.progress.entries) ++
    field "constraints" (Json.list (fun e => constraintJson e.1 e.2) t.constraints.entries) ++
    field "occurrences" (Json.list occurrenceJson t.occurrences))

/-- The text of tables. -/
def text (t : Tables) : String := t.json.text

/-! ## Reading -/

/-- Reads a row of progress. -/
def decodeProgress? : Decoder (ProgressKey × ProgressRow) := fun d => do
  let fields ← Decode.record? ["schedule_id", "trigger_id", "count_bits", "last_state"] d
  let scheduleId ← Decode.required fields "schedule_id" Decode.string
  let triggerId ← Decode.required fields "trigger_id" Decode.string
  let bits ← Decode.required fields "count_bits" (Decode.word 64)
  let lastState ← Decode.optional fields "last_state" Decode.string
  some (⟨scheduleId, triggerId⟩, ⟨Binary64.ofBits bits, lastState⟩)

/-- Reads a row of a constraint. -/
def decodeConstraint? : Decoder (String × ConstraintRow) := fun d => do
  let fields ← Decode.record? ["id", "range_ms", "count"] d
  let id ← Decode.required fields "id" Decode.string
  let rangeMillis ← Decode.required fields "range_ms" Decode.int64
  let count ← Decode.required fields "count" Decode.int64
  some (id, ⟨rangeMillis, count⟩)

/-- Reads a row of an occurrence. -/
def decodeOccurrence? : Decoder OccurrenceRow := fun d => do
  let fields ← Decode.record? ["constraint_id", "time_ms"] d
  let constraintId ← Decode.required fields "constraint_id" Decode.string
  let millis ← Decode.required fields "time_ms" Decode.int64
  some ⟨constraintId, millis⟩

/-- Reads tables. -/
def decode? : Decoder Tables := fun d => do
  let fields ← Decode.record? ["progress", "constraints", "occurrences"] d
  let progress ← Decode.required fields "progress" (Decode.list decodeProgress?)
  let constraints ← Decode.required fields "constraints" (Decode.list decodeConstraint?)
  let occurrences ← Decode.required fields "occurrences" (Decode.list decodeOccurrence?)
  some ⟨.ofList progress, .ofList constraints, occurrences⟩

/-- The tables of a text.  An empty text is a store without a row. -/
def ofText? (text : String) : Option Tables :=
  if text.isEmpty then some .empty else (Json.readDraft? text).bind decode?

end Tables
end Automation
