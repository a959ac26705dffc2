import Automation.Trigger.Basic
import Automation.Time.Instant

/-!
# Schedules

A schedule owns triggers of two kinds.  Its execution triggers decide when its action is due, and
its cancellation triggers decide when a due action that still waits for its delay is called off.
Which of the two kinds listens depends on the state the schedule is in, and never both.
-/

namespace Automation

/-- What the firing of a trigger means for its schedule. -/
inductive Execution where
  /-- The action is due. -/
  | execution
  /-- The waiting action is called off. -/
  | delayCancellation
  deriving DecidableEq, Repr, Inhabited

/-- The name an execution type is known by. -/
def Execution.name : Execution → String
  | .execution => "execution"
  | .delayCancellation => "delay_cancellation"

/-- The execution type of a name. -/
def Execution.ofName? : String → Option Execution
  | "execution" => some .execution
  | "delay_cancellation" => some .delayCancellation
  | _ => none

/-- Where a schedule is in its life. -/
inductive ScheduleState where
  /-- Waiting for its execution triggers. -/
  | idle
  /-- Fired, waiting for the delay. -/
  | triggered
  /-- Ready to execute. -/
  | prepared
  | paused
  | finished
  deriving DecidableEq, Repr, Inhabited

namespace ScheduleState

/-- The name a state is known by. -/
def name : ScheduleState → String
  | .idle => "idle"
  | .triggered => "triggered"
  | .prepared => "prepared"
  | .paused => "paused"
  | .finished => "finished"

/-- The state of a name. -/
def ofName? : String → Option ScheduleState
  | "idle" => some .idle
  | "triggered" => some .triggered
  | "prepared" => some .prepared
  | "paused" => some .paused
  | "finished" => some .finished
  | _ => none

/-- Whether triggers of a kind listen while a schedule is in a state. -/
def enables : ScheduleState → Execution → Bool
  | .idle, .execution => true
  | .triggered, .delayCancellation => true
  | .prepared, .delayCancellation => true
  | _, _ => false

end ScheduleState

/-- When events may count, both ends included. -/
structure Window where
  start : Option Instant
  stop : Option Instant
  deriving DecidableEq, Repr, Inhabited

/-- Whether a window is open. -/
def Window.contains (w : Window) (now : Instant) : Bool :=
  w.start.all (fun s => decide (s ≤ now)) && w.stop.all (fun e => decide (now ≤ e))

/-- The owner of triggers.  Of several schedules, one with a lower priority number goes first. -/
structure Schedule where
  id : String
  group : Option String
  priority : Int
  window : Window
  triggers : List Trigger
  cancellationTriggers : List Trigger
  constraintIds : List String
  state : ScheduleState
  deriving Repr, Inhabited

/-- The triggers of a schedule with their kinds, execution triggers first. -/
def Schedule.definitions (s : Schedule) : List (Trigger × Execution) :=
  s.triggers.map (·, .execution) ++ s.cancellationTriggers.map (·, .delayCancellation)

/-- What a trigger looked like when it fired. -/
structure FiringInfo where
  triggerId : String
  eventType : EventType
  goal : Binary64
  /-- The progress that reached the goal. -/
  count : Binary64
  /-- What the event that reached it showed. -/
  payload : Option Json
  date : Instant
  deriving Repr

/-- The decision that a schedule should react. -/
structure Firing where
  scheduleId : String
  kind : Execution
  info : FiringInfo
  deriving Repr

end Automation
