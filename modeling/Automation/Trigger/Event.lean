import Automation.Json.Decode

/-!
# Events

Two things happen to an automation engine.  An activity occurs in the application: a screen is
viewed, a region entered, a custom event sent, perhaps with a payload and a value.  Or the state of
the application changes: a new session begins, a new version is detected.

A trigger counts events of one type.  Activities of a type are events; the two state types are
different, since a state is not an occurrence.  They are counted from state changes, and an activity
that names one of them counts for nothing.
-/

namespace Automation

/-- What a trigger can count. -/
inductive EventType where
  | foreground
  | background
  | appInit
  | screen
  | regionEnter
  | regionExit
  | customEvent
  | customEventValue
  | featureFlagInteraction
  | activeSession
  | version
  deriving DecidableEq, Repr, Inhabited

namespace EventType

/-- Whether a type is counted from state changes. -/
def isState : EventType → Bool
  | .activeSession | .version => true
  | _ => false

/-- The name a type is known by. -/
def name : EventType → String
  | .foreground => "foreground"
  | .background => "background"
  | .appInit => "app_init"
  | .screen => "screen"
  | .regionEnter => "region_enter"
  | .regionExit => "region_exit"
  | .customEvent => "custom_event"
  | .customEventValue => "custom_event_value"
  | .featureFlagInteraction => "feature_flag_interaction"
  | .activeSession => "active_session"
  | .version => "version"

/-- The type of a name.  Custom events have a second one. -/
def ofName? : String → Option EventType
  | "foreground" => some .foreground
  | "background" => some .background
  | "app_init" => some .appInit
  | "screen" => some .screen
  | "region_enter" => some .regionEnter
  | "region_exit" => some .regionExit
  | "custom_event" => some .customEvent
  | "custom_event_count" => some .customEvent
  | "custom_event_value" => some .customEventValue
  | "feature_flag_interaction" => some .featureFlagInteraction
  | "active_session" => some .activeSession
  | "version" => some .version
  | _ => none

theorem ofName?_name (t : EventType) : ofName? t.name = some t := by
  cases t <;> rfl

end EventType

/-- What is known of the application's state.  A session that is not known and a version that was
not updated are absent. -/
structure AppState where
  session : Option String
  version : Option String
  deriving DecidableEq, Repr, Inhabited

namespace AppState

/-- The names of the fields, in order. -/
def fieldNames : List String := ["app_session_id", "version_updated"]

/-- A state as a value; what is absent is left out. -/
def json (s : AppState) : Json :=
  .obj (Json.fieldIfSome "app_session_id" (s.session.map .str) ++
    Json.fieldIfSome "version_updated" (s.version.map .str))

/-- Reads a state. -/
def decode? : Json.Decoder AppState := fun d => do
  let fields ← Json.Decode.record? fieldNames d
  let session ← Json.Decode.optional fields "app_session_id" Json.Decode.string
  let version ← Json.Decode.optional fields "version_updated" Json.Decode.string
  some ⟨session, version⟩

end AppState

/-- What the engine is fed. -/
inductive Event where
  /-- An activity, with an optional payload and the progress it contributes to triggers that count
  by value. -/
  | occurred (type : EventType) (data : Option Json) (value : Binary64)
  /-- A change of the application's state. -/
  | stateChanged (state : AppState)
  deriving Repr, Inhabited

/-- What an event shows to whoever looks at what fired: its payload, or the state. -/
def Event.payload? : Event → Option Json
  | .occurred _ data _ => data
  | .stateChanged state => some state.json

end Automation
