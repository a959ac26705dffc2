import Automation.Dispatch.Queue
import Automation.Limit.Limiter
import Automation.Settings.Basic

/-!
# Errors of the engine

Every part of the engine has errors of its own, and each says what went wrong in the words of that
part.  Whoever uses the engine as a whole sees one kind of error, whose text names the part first.
So the text of a part is never repeated elsewhere, and a text that is read by someone tells where
to look.
-/

namespace Automation

/-- What can go wrong in the engine. -/
inductive Error where
  | storage (e : StorageError)
  | limit (e : LimitError)
  | queue (e : QueueError)
  | settings (e : SettingsError)
  deriving DecidableEq, Repr

/-- What an error says: the part it comes from, and what that part says. -/
def Error.message : Error → String
  | .storage e => s!"storage error: {e.message}"
  | .limit e => s!"frequency limit error: {e.message}"
  | .queue e => s!"retry queue error: {e.message}"
  | .settings e => s!"invalid configuration: {e.message}"

end Automation
