import Automation.Error
import Automation.Processor
import Automation.Simulation.Scenario
import Automation.Time.Clock

/-!
# Simulation

A simulation replays a scenario through the whole engine: the constraints are reconciled, the
schedules are restored, and then each step moves the clock and feeds its event.  Every firing is
checked against the constraints of its schedule, and what is allowed goes through the queue.

## Closed when in doubt

An execution whose constraints cannot be loaded, because one is not defined or cannot be read, is
not allowed.  A cancellation takes nothing from anyone, so it is never checked.

## Order

All firings of a step are checked before the first of them is dispatched, in the order in which they
fired, so each check sees what the ones before it used up.  A dispatched operation succeeds at once,
and therefore each passes through the queue before the next is submitted.

## What waits at the end

Occurrences wait in the limiter until somebody has time to write them.  A simulation that comes to
its end writes them.  One that ends early leaves them in the limiter, which it gives back: whoever
goes on with the store may still write them, and whoever does not has lost them.
-/

namespace Automation

/-- Why a simulation ended early. -/
inductive SimulationError where
  | limits (e : LimitError)
  | settings (e : SettingsError)
  /-- The clock was moved beyond what it can show. -/
  | clockOutOfRange
  deriving DecidableEq, Repr

/-- What an error says. -/
def SimulationError.message : SimulationError → String
  | .limits _ => "Failed to sync frequency constraints"
  | .settings e => (Error.settings e).message
  | .clockOutOfRange => "clock out of range"

/-- The engine in the middle of a simulation. -/
structure Simulation where
  clock : Clock
  processor : Processor
  limiter : Limiter
  store : Store
  queue : Queue
  /-- The constraint ids of each schedule. -/
  constraintIds : Table String (List String)
  decisions : List Decision

namespace Simulation

/-- What is decided about a firing. -/
def decisionOn (f : Firing) (accepted : Bool) : Decision :=
  ⟨f.info.date, f.scheduleId, f.info.triggerId, f.kind, accepted⟩

/-- Whether the constraints of a schedule allow an execution now, which uses them if they do. -/
def allow (s : Simulation) (scheduleId : String) : Bool × Simulation :=
  let ids := (s.constraintIds.get? scheduleId).getD []
  match s.limiter.prepare s.store ids with
  | (.error _, limiter, store) => (false, { s with limiter := limiter, store := store })
  | (.ok (), limiter, store) =>
    let (allowed, limiter) := limiter.checkAndIncrement ids s.clock.now
    (allowed, { s with limiter := limiter, store := store })

/-- Checks one firing. -/
def check (s : Simulation) (f : Firing) : Decision × Simulation :=
  match f.kind with
  | .delayCancellation => (decisionOn f true, s)
  | .execution =>
    let (allowed, s) := s.allow f.scheduleId
    (decisionOn f allowed, s)

/-- Checks firings in order. -/
def checkAll : List Firing → Simulation → List Decision × Simulation
  | [], s => ([], s)
  | f :: rest, s =>
    let (d, s) := s.check f
    let (ds, s) := checkAll rest s
    (d :: ds, s)

/-- The queue after an operation that succeeds at once has passed through it. -/
def pass? (q : Queue) : Option Queue := do
  let (seq, q) := q.submit
  let q ← q.start? seq
  let (_, q) ← q.endAttempt? seq .success
  q.return? seq

/-- Dispatches one decision.  What was not accepted needs no dispatch, and what does not come
through the queue is not reported.

The decisions of a step are dispatched one after another.  Submitting all of them and waiting for
all together comes to the same.  An operation does nothing but succeed at once, so none has an
effect that another could see, and the gates open for each in turn, since no limit is below one.
The decisions are reported in their own order, whichever operation comes back first.  And when all
are back no call is left, and as many numbers have been given out. -/
def dispatch (s : Simulation) (d : Decision) : Simulation :=
  if d.accepted then
    match pass? s.queue with
    | some queue => { s with queue := queue, decisions := s.decisions ++ [d] }
    | none => s
  else { s with decisions := s.decisions ++ [d] }

/-- Replays one step, unless the clock cannot be moved so far. -/
def step? (s : Simulation) (step : ScenarioStep) : Option Simulation :=
  match s.clock.advanceMillis? step.advanceMillis with
  | none => none
  | some clock =>
    let turn := s.processor.processEvent s.store step.event clock.now
    let moved := { s with clock := clock, processor := turn.processor, store := turn.store }
    let (ds, checked) := checkAll turn.fired moved
    some (ds.foldl dispatch checked)

/-- Replays steps, and writes what waits once all of them are done. -/
def replay : List ScenarioStep → Simulation →
    Except SimulationError (List Decision) × Limiter × Store
  | [], s => (.ok s.decisions, s.limiter.flush s.store)
  | step :: rest, s =>
    match s.step? step with
    | none => (.error .clockOutOfRange, s.limiter, s.store)
    | some next => replay rest next

/-- The engine at the start of a scenario, once its constraints are in place. -/
def begin (config : QueueConfig) (paused : Bool) (scenario : Scenario) (clock : Clock)
    (limiter : Limiter) (store : Store) : Simulation :=
  let turn :=
    (Processor.empty.setPaused paused).restoreSchedules store clock.now scenario.schedules
  { clock := clock
    processor := turn.processor
    limiter := limiter
    store := turn.store
    queue := .empty config
    constraintIds := .ofList (scenario.schedules.map fun s => (s.id, s.constraintIds))
    decisions := [] }

/-- Replays a scenario on a store.  `present` is when it starts if it does not say so itself.  The
constraints are in place before the settings are looked at. -/
def run (settings : Settings) (scenario : Scenario) (store : Store) (present : Instant) :
    Except SimulationError (List Decision) × Limiter × Store :=
  let clock := match scenario.startMillis with
    | some millis => Clock.ofMillis millis
    | none => ⟨present⟩
  match Limiter.empty.setConstraints store scenario.constraints with
  | (.error e, limiter, store) => (.error (.limits e), limiter, store)
  | (.ok (), limiter, store) =>
    match settings.retry.queueConfig with
    | .error e => (.error (.settings e), limiter, store)
    | .ok config =>
      replay scenario.steps (begin config settings.paused scenario clock limiter store)

end Simulation
end Automation
