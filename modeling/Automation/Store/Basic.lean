import Automation.Store.Tables

/-!
# A store that may fail

The engine reaches the tables through twelve operations, and any of them may fail for reasons that
have nothing to do with the tables: the disk is full, the file is locked.  A store is the tables
together with a plan that says which calls fail.

## Why a plan

Whether an answer survives a failure is a question about two runs that differ in their failures
and nothing else.  So failures are data.  The plan is a function of the number of the call and of
the operation called, which can fail any set of calls, and a store that never fails is the one
whose plan is always `none`.  A call that fails by plan does nothing to the tables; like every
other call it is counted.

## Stores that may only be read

A store may also be open for reading only.  Then every operation that would change something fails,
and one that was given nothing to change does not.
-/

namespace Automation

/-- The operations of a store. -/
inductive StoreOperation where
  | readProgress
  | writeProgress
  | deleteTriggers
  | deleteSchedules
  | keepSchedules
  | readConstraint
  | readConstraints
  | writeConstraint
  | deleteConstraints
  | addOccurrences
  | readOccurrences
  | deleteOccurrences
  deriving DecidableEq, Repr

/-- Which calls fail, and with what. -/
abbrev FaultPlan := Nat → StoreOperation → Option StorageError

/-- The plan under which nothing fails. -/
def FaultPlan.reliable : FaultPlan := fun _ _ => none

/-- Tables behind operations that may fail. -/
structure Store where
  tables : Tables
  /-- How many operations have been called. -/
  calls : Nat
  plan : FaultPlan
  readOnly : Bool

namespace Store

/-- A store of these tables that never fails. -/
def ofTables (t : Tables) : Store := ⟨t, 0, .reliable, false⟩

/-- A store of these tables that may only be read. -/
def readOnlyOf (t : Tables) : Store := { ofTables t with readOnly := true }

instance : Inhabited Store := ⟨ofTables .empty⟩

/-- The answer of an operation, and the store after it. -/
abbrev Result (α : Type) := Except StorageError α × Store

/-- Calls an operation that reads. -/
def query {α : Type} (s : Store) (op : StoreOperation) (read : Tables → Except StorageError α) :
    Result α :=
  let after := { s with calls := s.calls + 1 }
  match s.plan s.calls op with
  | some e => (.error e, after)
  | none => (read s.tables, after)

/-- Calls an operation that writes, with whether it was given anything to change.  If it fails, by
plan or of itself, the tables stay. -/
def command (s : Store) (op : StoreOperation) (changes : Bool)
    (write : Tables → Except StorageError Tables) : Result Unit :=
  let after := { s with calls := s.calls + 1 }
  match s.plan s.calls op with
  | some e => (.error e, after)
  | none =>
    if s.readOnly && changes then (.error .readOnly, after)
    else
      match write s.tables with
      | .error e => (.error e, after)
      | .ok tables => (.ok (), { after with tables := tables })

/-! ## Progress -/

/-- Reads the progress of one trigger. -/
def readProgress (s : Store) (scheduleId triggerId : String) : Result (Option Progress) :=
  s.query .readProgress fun t => t.progress? scheduleId triggerId

/-- Writes records of progress, all or none. -/
def writeProgress (s : Store) (ps : List Progress) : Result Unit :=
  s.command .writeProgress (!ps.isEmpty) fun t => t.writeProgress ps

/-- Deletes the progress of some triggers of a schedule. -/
def deleteTriggers (s : Store) (scheduleId : String) (triggerIds : List String) : Result Unit :=
  s.command .deleteTriggers (!triggerIds.isEmpty) fun t =>
    .ok (t.deleteTriggers scheduleId triggerIds)

/-- Deletes the progress of some schedules. -/
def deleteSchedules (s : Store) (scheduleIds : List String) : Result Unit :=
  s.command .deleteSchedules (!scheduleIds.isEmpty) fun t => .ok (t.deleteSchedules scheduleIds)

/-- Deletes the progress of all schedules but some. -/
def keepSchedules (s : Store) (scheduleIds : List String) : Result Unit :=
  s.command .keepSchedules true fun t => .ok (t.keepSchedules scheduleIds)

/-! ## Constraints and occurrences -/

/-- Reads one constraint. -/
def readConstraint (s : Store) (id : String) : Result (Option Constraint) :=
  s.query .readConstraint fun t => t.constraint? id

/-- Reads all constraints in the order of their ids. -/
def readConstraints (s : Store) : Result (List Constraint) :=
  s.query .readConstraints Tables.allConstraints

/-- Defines or redefines a constraint. -/
def writeConstraint (s : Store) (c : Constraint) : Result Unit :=
  s.command .writeConstraint true fun t => .ok (t.putConstraint c)

/-- Deletes constraints with their occurrences. -/
def deleteConstraints (s : Store) (ids : List String) : Result Unit :=
  s.command .deleteConstraints (!ids.isEmpty) fun t => .ok (t.deleteConstraints ids)

/-- Adds occurrences, all or none. -/
def addOccurrences (s : Store) (os : List Occurrence) : Result Unit :=
  s.command .addOccurrences (!os.isEmpty) fun t => t.addOccurrences os

/-- Reads the occurrences of one constraint, oldest first. -/
def readOccurrences (s : Store) (id : String) : Result (List Occurrence) :=
  s.query .readOccurrences fun t => t.occurrencesOf id

/-- Deletes the occurrences of some constraints. -/
def deleteOccurrences (s : Store) (ids : List String) : Result Unit :=
  s.command .deleteOccurrences (!ids.isEmpty) fun t => .ok (t.deleteOccurrences ids)

end Store
end Automation
