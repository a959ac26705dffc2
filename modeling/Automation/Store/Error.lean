/-!
# What can go wrong in storage

An error is a cause.  Its wording is one function, and the wording of errors that never reach a
reader in full is kept as short as the cause.
-/

namespace Automation

/-- Why a storage operation failed. -/
inductive StorageError where
  /-- An occurrence of a constraint that is not defined. -/
  | undefinedConstraint
  /-- A count that is not a number. -/
  | notANumber
  /-- A remembered state that cannot be read. -/
  | unreadableState
  | negativeRange (id : String)
  | invalidCount (id : String)
  | invalidTime (millis : Int)
  /-- A change to what may only be read. -/
  | readOnly
  /-- A failure from outside, with what was said about it. -/
  | refused (text : String)
  deriving DecidableEq, Repr

namespace StorageError

/-- The classes of storage errors. -/
inductive Category where
  | database
  | serialization
  | invalidData
  deriving DecidableEq, Repr

/-- The class of an error. -/
def category : StorageError → Category
  | .undefinedConstraint | .notANumber | .readOnly => .database
  | .unreadableState => .serialization
  | .negativeRange _ | .invalidCount _ | .invalidTime _ | .refused _ => .invalidData

/-- What an error says. -/
def message : StorageError → String
  | .undefinedConstraint => "database error: constraint not defined"
  | .notANumber => "database error: count missing"
  | .readOnly => "database error: store may only be read"
  | .unreadableState => "serialization error: unreadable state"
  | .negativeRange id => s!"invalid data: negative range for {id}"
  | .invalidCount id => s!"invalid data: invalid count for {id}"
  | .invalidTime millis => s!"invalid data: invalid timestamp {millis}"
  | .refused text => s!"invalid data: {text}"

end StorageError
end Automation
