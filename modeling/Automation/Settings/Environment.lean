import Automation.Settings.Basic
import Automation.Settings.Tree

/-!
# Settings from environment variables

A variable whose name begins with the program's own letters sets one thing.  The rest of the name,
in letters of either case, is the place of it: the section and the field with two underscores
between them, or the section with the position of the field in brackets.  Other variables are passed
over, and so are names that are no places or belong to no field.

A text where a section belongs, a section where a text belongs, and a text that cannot be made into
what its field wants spoil all settings.
-/

namespace Automation
namespace Environment

/-! ## Names -/

/-- The text with every two underscores in a row replaced by a point. -/
def pointed : List Char → List Char
  | '_' :: '_' :: rest => '.' :: pointed rest
  | c :: rest => c :: pointed rest
  | [] => []

/-- The small form of a character, as far as names need it.  The sign of the kelvin is the one
character outside ASCII whose small form is a letter of a name. -/
def small (c : Char) : Char := if c = '\u212a' then 'k' else c.toLower

/-- Where in the settings a variable belongs, if its name begins as the program's do. -/
def place? (mark : String) (name : String) : Option (List PlaceKey) :=
  let lower := name.toList.map small
  let mark := mark.toList.map small
  if mark.isPrefixOf lower then PlaceKey.ofPlace? (pointed (lower.drop mark.length)) else none

/-- The fields of each section, in order. -/
def sections : List (String × List String) :=
  [("storage", ["path"]), ("retry", RetrySettings.fieldNames), ("triggers", ["paused"])]

/-- The usual spelling of the names of the variables that set something. -/
def variableNames (mark : String) : List String :=
  sections.flatMap fun (top, fields) =>
    fields.map fun field => (mark ++ top ++ "__" ++ field).toUpper

/-! ## Settings -/

open SettingsTree

/-- Where the store is. -/
def storePath? (t : SettingsTree) : Option (Option String) := do
  let field ← t.section? ["path"]
  orElse text? none (field "path")

/-- How operations are retried. -/
def retry? (t : SettingsTree) : Option RetrySettings := do
  let field ← t.section? RetrySettings.fieldNames
  let standard := RetrySettings.standard
  let maxConcurrent ← orElse word? standard.maxConcurrent (field "max_concurrent_operations")
  let maxPending ← orElse word? standard.maxPending (field "max_pending_results")
  let initialSeconds ← orElse word? standard.initialSeconds (field "initial_backoff_secs")
  let maxSeconds ← orElse word? standard.maxSeconds (field "max_backoff_secs")
  some ⟨maxConcurrent, maxPending, initialSeconds, maxSeconds⟩

/-- Whether processing starts paused. -/
def paused? (t : SettingsTree) : Option Bool := do
  let field ← t.section? ["paused"]
  orElse truth? false (field "paused")

/-- The settings that a tree makes of the standard ones. -/
def ofTree? (t : SettingsTree) : Option Settings := do
  let part := fun (name : String) => t.fields.lookup name
  let standard := Settings.standard
  let storePath ← orElse storePath? standard.storePath (part "storage")
  let retry ← orElse retry? standard.retry (part "retry")
  let paused ← orElse paused? standard.paused (part "triggers")
  some ⟨storePath, retry, paused⟩

/-- The settings that variables make of the standard ones, if all of them can be used.  `mark` is
how the names of the program's own variables begin. -/
def settings? (mark : String) (vars : List (String × String)) : Option Settings :=
  ofTree? <| SettingsTree.ofReadings <| vars.filterMap fun v =>
    (place? mark v.1).map fun place => (place, Reading.ofText v.2)

/-- What is said of variables that cannot be used. -/
def refusal : String := "Failed to deserialize configuration"

end Environment
end Automation
