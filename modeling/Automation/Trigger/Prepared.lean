import Automation.Schedule

/-!
# Prepared triggers

A prepared trigger is a trigger bound to its schedule: it knows the schedule's window and priority,
carries its progress, and is either listening or not.  It begins not listening.

Reaching the goal fires and takes the progress back to zero in the same step, so between events the
progress is below the goal.  Two things could break that and are mended where they happen: a new
definition with a lower goal, or stored progress from before, may find more progress than the goal
asks for.  `resetIfReached` then drops it, without a firing.
-/

namespace Automation

/-- A trigger at work for a schedule. -/
structure Prepared where
  scheduleId : String
  kind : Execution
  trigger : Trigger
  progress : Progress
  window : Window
  priority : Int
  active : Bool
  deriving Repr, Inhabited

/-- What an event did to a trigger it counted for. -/
structure Outcome where
  progress : Progress
  firing : Option Firing
  deriving Repr

namespace Prepared

/-- Binds a trigger, with the progress it has made before if there is any. -/
def bind (scheduleId : String) (kind : Execution) (trigger : Trigger) (progress : Option Progress)
    (window : Window) (priority : Int) : Prepared :=
  ⟨scheduleId, kind, trigger, progress.getD (.fresh scheduleId trigger.id), window, priority, false⟩

/-- Starts listening.  A cancellation trigger begins anew each time. -/
def activate (p : Prepared) : Prepared :=
  if p.active then p
  else
    match p.kind with
    | .execution => { p with active := true }
    | .delayCancellation => { p with active := true, progress := { p.progress with count := 0 } }

/-- Stops listening and keeps the progress. -/
def disable (p : Prepared) : Prepared := { p with active := false }

/-- Takes a new definition and keeps the progress. -/
def update (p : Prepared) (trigger : Trigger) (window : Window) (priority : Int) : Prepared :=
  { p with trigger := trigger, window := window, priority := priority }

/-- Whether there is progress and it is not below the goal. -/
def exceedsGoal (p : Prepared) : Bool :=
  !p.progress.count.isZero && !p.progress.count.lt p.trigger.goal

/-- Drops progress that the goal no longer leaves room for. -/
def resetIfReached (p : Prepared) : Prepared :=
  if p.exceedsGoal then { p with progress := { p.progress with count := 0 } } else p

/-- Whether an event is looked at. -/
def listens (p : Prepared) (now : Instant) : Bool := p.active && p.window.contains now

/-- The firing of a trigger with the progress that reached its goal. -/
def firing (p : Prepared) (event : Event) (reached : Progress) (now : Instant) : Firing where
  scheduleId := p.scheduleId
  kind := p.kind
  info := {
    triggerId := p.trigger.id
    eventType := p.trigger.type
    goal := p.trigger.goal
    count := reached.count
    payload := event.payload?
    date := now }

/-- Feeds an event: the trigger afterwards, and what the event did if it counted. -/
def process (p : Prepared) (event : Event) (now : Instant) : Prepared × Option Outcome :=
  if p.listens now then
    match p.trigger.advance? event p.progress with
    | none => (p, none)
    | some progress =>
      if p.trigger.isReached progress then
        let rest := { progress with count := 0 }
        ({ p with progress := rest }, some ⟨rest, some (p.firing event progress now)⟩)
      else ({ p with progress := progress }, some ⟨progress, none⟩)
  else (p, none)

end Prepared
end Automation
