import Automation.Trigger.Event
import Automation.Trigger.Matcher

/-!
# Triggers and their progress

A trigger collects progress from the events that match it until its goal is reached.  The trigger is
the rule and the progress is the record; one trigger has one progress per schedule it belongs to.

## What counts

An activity counts if it has the trigger's type and its payload passes the predicate; a missing
payload is looked at as `null`.  It counts for one, except that a custom event counted by value
counts for what the event says, which may be nothing or negative.

A state change counts if it brings something new: a session, or a version, other than the one in
the last state that counted.  The predicate of a version trigger looks at the version alone, and
that of a session trigger is not asked.  The state is remembered only when it counts, so a version
that the predicate turned down is new again the next time.
-/

namespace Automation

/-- A rule that collects progress toward a goal. -/
structure Trigger where
  id : String
  type : EventType
  goal : Binary64
  predicate : Option Matcher
  deriving Repr, Inhabited

/-- What a trigger has collected, and the last state that counted for it. -/
structure Progress where
  scheduleId : String
  triggerId : String
  count : Binary64
  lastState : Option AppState
  deriving DecidableEq, Repr, Inhabited

/-- The progress of a trigger that has collected nothing. -/
def Progress.fresh (scheduleId triggerId : String) : Progress := ⟨scheduleId, triggerId, 0, none⟩

namespace Trigger

/-- Whether a payload passes the predicate; without one everything does. -/
def admits (t : Trigger) (payload : Json) : Bool := t.predicate.all fun m => m.accepts payload

/-- What an activity counts for. -/
def increment (t : Trigger) (value : Binary64) : Binary64 :=
  if t.type = .customEventValue then value else 1

/-- Whether an activity counts. -/
def countsActivity (t : Trigger) (type : EventType) (data : Option Json) : Bool :=
  type = t.type && !t.type.isState && t.admits (data.getD .null)

/-- Whether a state counts, given the last one that did. -/
def countsState (t : Trigger) (state : AppState) (last : Option AppState) : Bool :=
  match t.type with
  | .version =>
    match state.version with
    | some v => last.bind (·.version) ≠ some v && t.admits (.obj [("version", .str v)])
    | none => false
  | .activeSession =>
    match state.session with
    | some s => last.bind (·.session) ≠ some s
    | none => false
  | _ => false

/-- The progress after an event, if the event counts. -/
def advance? (t : Trigger) (event : Event) (p : Progress) : Option Progress :=
  match event with
  | .occurred type data value =>
    if t.countsActivity type data then some { p with count := p.count + t.increment value }
    else none
  | .stateChanged state =>
    if t.countsState state p.lastState then
      some { p with count := p.count + 1, lastState := some state }
    else none

/-- Whether progress has reached the goal. -/
def isReached (t : Trigger) (p : Progress) : Bool := t.goal.le p.count

end Trigger
end Automation
