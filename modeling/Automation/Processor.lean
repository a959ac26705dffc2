import Automation.Store.Basic
import Automation.Trigger.Prepared

/-!
# The trigger processor

The processor holds the prepared triggers of all schedules and turns events into firings.

## Order

An event reaches the schedules in the order of their ids and the triggers of a schedule in the
order of its definition.  What fires is then sorted by priority, and since sorting is stable the
rest of that order stays.  Schedules that are updated together are taken in the order of their
priority.

## What is kept

Progress lives in memory and in the store.  Every operation that changes progress writes it, in
the order in which it changed, and every trigger that is prepared for the first time reads it.
Writing is best effort: an operation goes on when the store fails, and a trigger whose progress
cannot be read begins anew.

## States

The last state change is remembered, also while the processor is paused.  When a schedule's
triggers begin to listen and the processor is not paused, that state is fed to all triggers of the
schedule, so a state trigger does not have to wait for a change that has already happened.
-/

namespace Automation

/-- What the processor knows.  `groups` has the ids of the schedules under each group that has
any. -/
structure Processor where
  prepared : Table String (List Prepared)
  groups : Table String (List String)
  lastState : Option AppState
  paused : Bool

/-- What an operation of the processor leaves behind, and what it fired. -/
structure Turn where
  processor : Processor
  store : Store
  fired : List Firing

namespace Processor

/-- A processor that knows nothing. -/
def empty : Processor := ⟨.empty, .empty, none, false⟩

instance : Inhabited Processor := ⟨empty⟩

/-- The prepared triggers of a schedule. -/
def triggersOf (p : Processor) (scheduleId : String) : List Prepared :=
  (p.prepared.get? scheduleId).getD []

/-- Pauses or resumes. -/
def setPaused (p : Processor) (paused : Bool) : Processor := { p with paused := paused }

/-! ## Feeding events -/

/-- The triggers after an event. -/
def feed (event : Event) (now : Instant) (ts : List Prepared) : List Prepared :=
  ts.map fun t => (t.process event now).1

/-- What an event does to triggers, with their priorities. -/
def outcomes (event : Event) (now : Instant) (ts : List Prepared) : List (Int × Outcome) :=
  ts.filterMap fun t => (t.process event now).2.map (t.priority, ·)

/-- The firings among outcomes, lowest priority number first. -/
def firings (os : List (Int × Outcome)) : List Firing :=
  (sortBy (·.1) (os.filterMap fun o => o.2.firing.map (o.1, ·))).map (·.2)

/-- Writes progress if there is any to write, and goes on if that fails. -/
def persist (s : Store) (ps : List Progress) : Store :=
  if ps.isEmpty then s else (s.writeProgress ps).2

/-- Writes what outcomes have changed. -/
def settle (p : Processor) (s : Store) (os : List (Int × Outcome)) : Turn :=
  ⟨p, persist s (os.map (·.2.progress)), firings os⟩

/-- Remembers the state that an event brings. -/
def remember (p : Processor) : Event → Processor
  | .stateChanged state => { p with lastState := some state }
  | .occurred _ _ _ => p

/-- Feeds an event to all triggers.  While paused it is dropped, but a state is remembered. -/
def processEvent (p : Processor) (s : Store) (event : Event) (now : Instant) : Turn :=
  let p := p.remember event
  if p.paused then ⟨p, s, []⟩
  else
    let os := p.prepared.values.flatMap (outcomes event now)
    settle { p with prepared := p.prepared.map fun _ => feed event now } s os

/-! ## Groups -/

/-- Takes a schedule out of every group, and drops the groups left empty. -/
def leaveGroups (groups : Table String (List String)) (scheduleId : String) :
    Table String (List String) :=
  (groups.map fun _ ids => ids.filter (· ≠ scheduleId)).filter fun _ ids => !ids.isEmpty

/-- Puts a schedule into a group. -/
def joinGroup (groups : Table String (List String)) (group scheduleId : String) :
    Table String (List String) :=
  let ids := (groups.get? group).getD []
  groups.insert group (if ids.contains scheduleId then ids else ids ++ [scheduleId])

/-- The groups after a schedule has been defined. -/
def regroup (groups : Table String (List String)) (schedule : Schedule) :
    Table String (List String) :=
  let left := leaveGroups groups schedule.id
  match schedule.group with
  | some group => joinGroup left group schedule.id
  | none => left

/-! ## Defining schedules -/

/-- The work on one schedule: what was prepared before and is not yet taken over, the store, what is
prepared now, and whose progress was dropped. -/
structure Sync where
  existing : Table String Prepared
  store : Store
  prepared : List Prepared
  reset : List Progress

/-- Reads the progress of a trigger; if that fails there is none. -/
def loadProgress (s : Store) (scheduleId triggerId : String) : Option Progress × Store :=
  match s.readProgress scheduleId triggerId with
  | (.ok progress, s) => (progress, s)
  | (.error _, s) => (none, s)

/-- The prepared trigger of a definition.  One that was prepared before with the same id and kind is
taken over; otherwise stored progress is read. -/
def prepareOne (schedule : Schedule) (existing : Option Prepared) (s : Store) (trigger : Trigger)
    (kind : Execution) : Prepared × Store :=
  match existing.filter fun p => p.kind = kind with
  | some current => (current.update trigger schedule.window schedule.priority, s)
  | none =>
    let (progress, s) := loadProgress s schedule.id trigger.id
    (.bind schedule.id kind trigger progress schedule.window schedule.priority, s)

/-- Prepares one definition. -/
def Sync.add (schedule : Schedule) (w : Sync) (definition : Trigger × Execution) : Sync :=
  let (trigger, kind) := definition
  let (found, store) :=
    prepareOne schedule (w.existing.get? trigger.id) w.store trigger kind
  let settled := found.resetIfReached
  { existing := w.existing.erase trigger.id
    store := store
    prepared := w.prepared ++ [settled]
    reset := if found.exceedsGoal then w.reset ++ [settled.progress] else w.reset }

/-- Makes the prepared triggers of a schedule those of its definition.  Progress of triggers that
are gone is deleted. -/
def syncSchedule (p : Processor) (s : Store) (schedule : Schedule) : Processor × Store :=
  let before := (p.triggersOf schedule.id).map fun t => (t.trigger.id, t)
  let work := schedule.definitions.foldl (Sync.add schedule) ⟨.ofList before, s, [], []⟩
  let s := persist work.store work.reset
  let stale := work.existing.keys.filter fun id => !(work.prepared.map (·.trigger.id)).contains id
  let s := if stale.isEmpty then s else (s.deleteTriggers schedule.id stale).2
  ({ p with
    prepared := p.prepared.insert schedule.id work.prepared
    groups := regroup p.groups schedule }, s)

/-! ## Applying states -/

/-- A trigger after its schedule has entered a state. -/
def enter (state : ScheduleState) (t : Prepared) : Prepared :=
  if state.enables t.kind then t.activate else t.disable

/-- Whether a trigger begins to listen when its schedule enters a state. -/
def awakens (state : ScheduleState) (t : Prepared) : Bool := state.enables t.kind && !t.active

/-- Applies a state to the triggers of a schedule.  If any of them begins to listen, the remembered
state is fed to all of them. -/
def applyState (p : Processor) (s : Store) (now : Instant) (scheduleId : String)
    (state : ScheduleState) : Turn :=
  match p.prepared.get? scheduleId with
  | none => ⟨p, s, []⟩
  | some ts =>
    let entered := ts.map (enter state)
    let still := { p with prepared := p.prepared.insert scheduleId entered }
    if ts.any (awakens state) && !p.paused then
      match p.lastState with
      | none => ⟨still, s, []⟩
      | some last =>
        let event := Event.stateChanged last
        settle { p with prepared := p.prepared.insert scheduleId (feed event now entered) } s
          (outcomes event now entered)
    else ⟨still, s, []⟩

/-- Defines one schedule and applies its state. -/
def registerOne (now : Instant) (turn : Turn) (schedule : Schedule) : Turn :=
  let (p, s) := turn.processor.syncSchedule turn.store schedule
  let next := p.applyState s now schedule.id schedule.state
  { next with fired := turn.fired ++ next.fired }

/-- Defines schedules, those with a lower priority number first. -/
def updateSchedules (p : Processor) (s : Store) (now : Instant) (schedules : List Schedule) :
    Turn :=
  (sortBy Schedule.priority schedules).foldl (registerOne now) ⟨p, s, []⟩

/-- Defines schedules at the start and deletes the stored progress of all others. -/
def restoreSchedules (p : Processor) (s : Store) (now : Instant) (schedules : List Schedule) :
    Turn :=
  let turn := p.updateSchedules s now schedules
  { turn with store := (turn.store.keepSchedules (schedules.map (·.id))).2 }

/-! ## Cancelling -/

/-- Forgets a schedule. -/
def forget (p : Processor) (scheduleId : String) : Processor :=
  { p with
    prepared := p.prepared.erase scheduleId
    groups := leaveGroups p.groups scheduleId }

/-- Removes schedules and their stored progress. -/
def cancel (p : Processor) (s : Store) (scheduleIds : List String) : Turn :=
  ⟨scheduleIds.foldl forget p, (s.deleteSchedules scheduleIds).2, []⟩

/-- Removes every schedule of a group.  For a group without schedules there is nothing to do. -/
def cancelGroup (p : Processor) (s : Store) (group : String) : Turn :=
  match p.groups.get? group with
  | none => ⟨p, s, []⟩
  | some ids => { p with groups := p.groups.erase group }.cancel s ids

end Processor
end Automation
