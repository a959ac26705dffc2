import Automation.Trigger.Event
import Automation.Wire.Basic

/-!
# The written form of events

An event is a record with its kind as one of the fields, in any place of an object or first in an
array.  Which other fields there are depends on the kind, so all of them are read before any is
understood, and therefore every one of them, known or not, has to be readable.
-/

namespace Automation

open Json

/-- A type of event as its name. -/
def EventType.json (t : EventType) : Json := .str t.name

/-- Reads a type of event. -/
def EventType.decode? : Decoder EventType := fun d =>
  (Decode.plainName? Decode.isNothing d).bind EventType.ofName?

namespace Event

/-- Reads the type of an activity inside an event. -/
def decodeType? : Decoder EventType := fun d =>
  (Decode.plainName? Decode.isNothingBuffered d).bind EventType.ofName?

/-- An event as a value. -/
def json : Event → Json
  | .occurred type data value =>
    .obj (field "kind" (.str "event") ++ field "event_type" type.json ++
      fieldIfSome "data" data ++ field "value" (.float value))
  | .stateChanged state =>
    match state.json with
    | .obj members => .obj (field "kind" (.str "state_changed") ++ members)
    | other => other

/-- The kind of an event and the fields beside it. -/
def split? : Draft → Option (String × Draft)
  | .obj members =>
    match members.filter fun m => m.1 = "kind" with
    | [(_, .str kind)] => some (kind, .obj (members.filter fun m => m.1 ≠ "kind"))
    | _ => none
  | .arr (.str kind :: rest) => some (kind, .arr rest)
  | _ => none

/-- Reads the fields of an activity. -/
def decodeActivity? : Decoder Event := fun d => do
  let fields ← Decode.record? ["event_type", "data", "value"] d
  let type ← Decode.required fields "event_type" decodeType?
  let data ← Decode.optional fields "data" Decode.any
  let value ← Decode.defaulted fields "value" Decode.double 1
  some (.occurred type data value)

/-- Reads an event. -/
def decode? : Decoder Event := fun d =>
  if d.isReadable then
    match split? d with
    | some ("event", rest) => decodeActivity? rest
    | some ("state_changed", rest) => (AppState.decode? rest).map .stateChanged
    | _ => none
  else none

end Event
end Automation
