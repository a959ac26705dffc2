import Automation.Json.Writer
import Automation.Limit.Constraint
import Automation.Order
import Automation.Store.Error
import Automation.Table
import Automation.Trigger.Basic

/-!
# The stored tables

Three tables hold what outlives a run: the progress of triggers, the definitions of constraints, and
the history of occurrences.

## Rows and records

A row is what is stored and a record is what the engine works with.  The two differ: a remembered
state is stored as its text, a range as a signed count of milliseconds with a largest value, an
instant as whole milliseconds.  So a row may hold what no record can, and then reading fails.
Where a list is read, its first bad row fails all of it.

## Integrity

An occurrence refers to a constraint.  Adding occurrences of an undefined constraint fails and adds
nothing, and deleting a constraint deletes its occurrences.  Redefining one keeps them.
-/

namespace Automation

/-- The key of a row of progress. -/
structure ProgressKey where
  scheduleId : String
  triggerId : String
  deriving DecidableEq, Repr

namespace ProgressKey

/-- Keys are ordered by schedule and then by trigger. -/
instance : LT ProgressKey where
  lt a b := a.scheduleId < b.scheduleId ∨ (a.scheduleId = b.scheduleId ∧ a.triggerId < b.triggerId)

instance : DecidableLT ProgressKey := fun a b =>
  inferInstanceAs (Decidable (a.scheduleId < b.scheduleId ∨
    (a.scheduleId = b.scheduleId ∧ a.triggerId < b.triggerId)))

instance : KeyOrder ProgressKey where
  trans {a b c} hab hbc := by
    rcases hab with hab | ⟨hab, hab'⟩ <;> rcases hbc with hbc | ⟨hbc, hbc'⟩
    · exact Or.inl (String.lt_trans hab hbc)
    · exact Or.inl (hbc ▸ hab)
    · exact Or.inl (hab ▸ hbc)
    · exact Or.inr ⟨hab.trans hbc, String.lt_trans hab' hbc'⟩
  irrefl a h := by
    rcases h with h | ⟨-, h⟩
    · exact String.lt_irrefl _ h
    · exact String.lt_irrefl _ h
  connected {a b} h hne := by
    have hfirst : ¬ a.scheduleId < b.scheduleId := fun hlt => h (Or.inl hlt)
    by_cases heq : a.scheduleId = b.scheduleId
    · refine Or.inr ⟨heq.symm, KeyOrder.connected (fun hlt => h (Or.inr ⟨heq, hlt⟩)) fun e => ?_⟩
      exact hne (by cases a; cases b; cases heq; cases e; rfl)
    · exact Or.inl (KeyOrder.connected hfirst heq)

end ProgressKey

/-- A stored row of progress.  The remembered state is text. -/
structure ProgressRow where
  count : Binary64
  lastState : Option String
  deriving DecidableEq, Repr

/-- A stored definition of a constraint. -/
structure ConstraintRow where
  rangeMillis : Int
  count : Int
  deriving DecidableEq, Repr

/-- A stored occurrence. -/
structure OccurrenceRow where
  constraintId : String
  millis : Int
  deriving DecidableEq, Repr

/-- The stored tables.  Occurrences stand in the order in which they were added. -/
structure Tables where
  progress : Table ProgressKey ProgressRow
  constraints : Table String ConstraintRow
  occurrences : List OccurrenceRow
  deriving DecidableEq

namespace Tables

/-- Tables without a row. -/
def empty : Tables := ⟨.empty, .empty, []⟩

instance : Inhabited Tables := ⟨empty⟩

/-! ## From rows to records and back -/

/-- The row of a record of progress. -/
def rowOfProgress (p : Progress) : ProgressRow :=
  ⟨p.count.dropZeroSign, p.lastState.map fun s => s.json.text⟩

/-- The record of a row of progress. -/
def progressOfRow (key : ProgressKey) (row : ProgressRow) : Except StorageError Progress :=
  match row.lastState with
  | none => .ok ⟨key.scheduleId, key.triggerId, row.count, none⟩
  | some text =>
    match (Json.readDraft? text).bind AppState.decode? with
    | some state => .ok ⟨key.scheduleId, key.triggerId, row.count, some state⟩
    | none => .error .unreadableState

/-- The largest range that is stored, in milliseconds. -/
def longestRange : Nat := 0x7fffffffffffffff

/-- The row of a constraint. -/
def rowOfConstraint (c : Constraint) : ConstraintRow :=
  ⟨if c.range.toMillis ≤ longestRange then c.range.toMillis else longestRange, c.count⟩

/-- The constraint of a row.  The range is looked at before the count. -/
def constraintOfRow (id : String) (row : ConstraintRow) : Except StorageError Constraint :=
  if row.rangeMillis < 0 then .error (.negativeRange id)
  else if row.count < 0 ∨ 0xffffffff < row.count then .error (.invalidCount id)
  else .ok ⟨id, Span.ofMillis row.rangeMillis.toNat, row.count.toNat⟩

/-- The row of an occurrence. -/
def rowOfOccurrence (o : Occurrence) : OccurrenceRow := ⟨o.constraintId, o.time.toMillis⟩

/-- The occurrence of a row. -/
def occurrenceOfRow (row : OccurrenceRow) : Except StorageError Occurrence :=
  match Instant.ofMillis? row.millis with
  | some time => .ok ⟨row.constraintId, time⟩
  | none => .error (.invalidTime row.millis)

/-! ## Progress -/

/-- The progress of one trigger, if any is stored. -/
def progress? (t : Tables) (scheduleId triggerId : String) :
    Except StorageError (Option Progress) :=
  let key := ⟨scheduleId, triggerId⟩
  match t.progress.get? key with
  | none => .ok none
  | some row => (progressOfRow key row).map some

/-- Writes one record of progress. -/
def putProgress (t : Tables) (p : Progress) : Tables :=
  { t with progress := t.progress.insert ⟨p.scheduleId, p.triggerId⟩ (rowOfProgress p) }

/-- Writes records of progress, all of them or none.  Of two records for one trigger the later
wins. -/
def writeProgress (t : Tables) (ps : List Progress) : Except StorageError Tables :=
  if ps.any fun p => p.count = .nan then .error .notANumber else .ok (ps.foldl putProgress t)

/-- Deletes the progress of some triggers of a schedule. -/
def deleteTriggers (t : Tables) (scheduleId : String) (triggerIds : List String) : Tables :=
  { t with progress :=
      t.progress.filter fun k _ => !(k.scheduleId = scheduleId && triggerIds.contains k.triggerId) }

/-- Deletes the progress of some schedules. -/
def deleteSchedules (t : Tables) (scheduleIds : List String) : Tables :=
  { t with progress := t.progress.filter fun k _ => !scheduleIds.contains k.scheduleId }

/-- Deletes the progress of all schedules but some. -/
def keepSchedules (t : Tables) (scheduleIds : List String) : Tables :=
  { t with progress := t.progress.filter fun k _ => scheduleIds.contains k.scheduleId }

/-! ## Constraints -/

/-- One constraint, if it is defined. -/
def constraint? (t : Tables) (id : String) : Except StorageError (Option Constraint) :=
  match t.constraints.get? id with
  | none => .ok none
  | some row => (constraintOfRow id row).map some

/-- All constraints in the order of their ids. -/
def allConstraints (t : Tables) : Except StorageError (List Constraint) :=
  t.constraints.entries.mapM fun e => constraintOfRow e.1 e.2

/-- Defines or redefines a constraint and keeps its occurrences. -/
def putConstraint (t : Tables) (c : Constraint) : Tables :=
  { t with constraints := t.constraints.insert c.id (rowOfConstraint c) }

/-- Deletes constraints and with them their occurrences. -/
def deleteConstraints (t : Tables) (ids : List String) : Tables :=
  { t with
    constraints := t.constraints.filter fun id _ => !ids.contains id
    occurrences := t.occurrences.filter fun row => !ids.contains row.constraintId }

/-! ## Occurrences -/

/-- Adds occurrences, all of them or none. -/
def addOccurrences (t : Tables) (os : List Occurrence) : Except StorageError Tables :=
  if os.all fun o => t.constraints.contains o.constraintId then
    .ok { t with occurrences := t.occurrences ++ os.map rowOfOccurrence }
  else .error .undefinedConstraint

/-- The stored rows of one constraint, oldest first, those of one millisecond in the order in which
they were added. -/
def history (t : Tables) (id : String) : List OccurrenceRow :=
  sortBy OccurrenceRow.millis (t.occurrences.filter fun row => row.constraintId = id)

/-- The occurrences of one constraint, oldest first. -/
def occurrencesOf (t : Tables) (id : String) : Except StorageError (List Occurrence) :=
  (t.history id).mapM occurrenceOfRow

/-- Deletes the occurrences of some constraints. -/
def deleteOccurrences (t : Tables) (ids : List String) : Tables :=
  { t with occurrences := t.occurrences.filter fun row => !ids.contains row.constraintId }

/-! ## Rows from outside

Whoever fills the tables directly, as when they are read back from a file, may bring rows that no
record has.  Integrity holds all the same. -/

/-- Puts a row of progress in place of any other for the same trigger. -/
def placeProgress (t : Tables) (key : ProgressKey) (row : ProgressRow) : Tables :=
  { t with progress := t.progress.insert key { row with count := row.count.dropZeroSign } }

/-- Puts a definition in place of any other with the same id, whose occurrences go with it. -/
def placeConstraint (t : Tables) (id : String) (row : ConstraintRow) : Tables :=
  let cleared := t.deleteConstraints [id]
  { cleared with constraints := cleared.constraints.insert id row }

/-- Adds an occurrence, if its constraint is defined. -/
def placeOccurrence (t : Tables) (row : OccurrenceRow) : Tables :=
  if t.constraints.contains row.constraintId then
    { t with occurrences := t.occurrences ++ [row] }
  else t

end Tables
end Automation
