import Automation.Processor

/-!
# A processor at work

A processor and its store are asked to do one thing after another, each with the time the clock
showed when it was asked.  A run is a list of requests, and what it leaves behind is a `Turn`: the
processor, the store, and everything that has fired so far.

A restart is a request too.  It leaves what is stored and what has fired, and nothing else, so a
history that goes over several processors is one run.
-/

namespace Automation
namespace Processor

/-- What is asked of a processor. -/
inductive Request where
  | event (event : Event) (now : Instant)
  | pause (paused : Bool)
  | update (schedules : List Schedule) (now : Instant)
  | restore (schedules : List Schedule) (now : Instant)
  | enter (scheduleId : String) (state : ScheduleState) (now : Instant)
  | cancel (scheduleIds : List String)
  | cancelGroup (group : String)
  /-- A new processor over what is stored. -/
  | restart

/-- What one request leaves behind, and what it fired. -/
def respond (p : Processor) (s : Store) : Request → Turn
  | .event event now => p.processEvent s event now
  | .pause paused => ⟨p.setPaused paused, s, []⟩
  | .update schedules now => p.updateSchedules s now schedules
  | .restore schedules now => p.restoreSchedules s now schedules
  | .enter scheduleId state now => p.applyState s now scheduleId state
  | .cancel scheduleIds => p.cancel s scheduleIds
  | .cancelGroup group => p.cancelGroup s group
  | .restart => ⟨.empty, s, []⟩

end Processor

namespace Turn

/-- Before the first request. -/
def start (s : Store) : Turn := ⟨.empty, s, []⟩

/-- One more request. -/
def serve (t : Turn) (r : Processor.Request) : Turn :=
  let next := t.processor.respond t.store r
  { next with fired := t.fired ++ next.fired }

/-- What a run leaves behind. -/
def run (t : Turn) (rs : List Processor.Request) : Turn := rs.foldl serve t

theorem run_cons (t : Turn) (r : Processor.Request) (rs : List Processor.Request) :
    t.run (r :: rs) = (t.serve r).run rs := rfl

end Turn
end Automation
