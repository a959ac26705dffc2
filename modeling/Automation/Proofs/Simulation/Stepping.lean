import Automation.Proofs.Limit.Renewal
import Automation.Proofs.Processor.Restoring
import Automation.Simulation.Run

/-!
# What a simulation goes by

A simulation has much in memory: prepared triggers with their counts, cached constraints with pruned
histories, writes that wait, a queue.  None of it matters by itself.  The triggers are those that
the tables would give back, the limiter answers as the settled tables would, and the queue is idle
between steps.  `Simulation.IsRecoverable` is that invariant.

Where it holds, a step is a function of the clock, of whether the processor is paused, and of the
settled tables (`Simulation.step?_spec`).  So two simulations that agree on these three go on in the
same way, whatever each of them has been through.
-/

namespace Automation

/-! ## The queue between steps -/

/-- A queue with room in which no call is alive. -/
structure Queue.IsIdle (q : Queue) : Prop where
  calls : q.calls = []
  waiting : q.ledger.waiting = []
  started : q.ledger.started = []
  executing : q.ledger.executing = 0
  held : q.ledger.pendingResults = 0
  maxConcurrent : 0 < q.config.maxConcurrent
  maxPending : 0 < q.config.maxPending

theorem Queue.isIdle_empty {r : RetrySettings} {config : QueueConfig}
    (h : r.queueConfig = .ok config) : (Queue.empty config).IsIdle := by
  obtain ⟨hconcurrent, hpending⟩ := RetrySettings.limits_pos h
  exact ⟨rfl, rfl, rfl, rfl, rfl, hconcurrent, hpending⟩

namespace Simulation

/-- An operation passes through an idle queue and leaves it idle. -/
theorem pass?_of_isIdle {q : Queue} (h : q.IsIdle) : ∃ q', pass? q = some q' ∧ q'.IsIdle := by
  obtain ⟨config, ⟨n, waiting, started, executing, held⟩, calls, cancelled⟩ := q
  obtain ⟨hcalls, hwaiting, hstarted, hexecuting, hheld, hconcurrent, hpending⟩ := h
  dsimp only at hcalls hwaiting hstarted hexecuting hheld hconcurrent hpending
  subst hcalls hwaiting hstarted hexecuting hheld
  refine ⟨⟨config, ⟨n + 1, [], [], 0, 0⟩, [], cancelled⟩, ?_, rfl, rfl, rfl, rfl, rfl, hconcurrent,
    hpending⟩
  simp [pass?, Queue.submit, Queue.start?, Queue.endAttempt?, Queue.return?, Queue.callIn?,
    Queue.call?, Queue.withCall, Queue.withoutCall, Queue.discard, Ledger.submit, Ledger.start,
    Ledger.canStart, Ledger.endAttempt, Ledger.holdResult, Ledger.canReturn, Ledger.release,
    Ledger.add, insertBy, Option.filter, hconcurrent, hpending]

theorem dispatch_of_isIdle {x : Simulation} (h : x.queue.IsIdle) (d : Decision) :
    ∃ q : Queue, q.IsIdle ∧ x.dispatch d =
      { x with queue := q, decisions := x.decisions ++ [d] } := by
  obtain ⟨q, hpass, hidle⟩ := pass?_of_isIdle h
  unfold dispatch
  split
  · exact ⟨q, hidle, by rw [hpass]⟩
  · exact ⟨x.queue, h, rfl⟩

/-- Every decision is reported. -/
theorem foldl_dispatch {x : Simulation} (h : x.queue.IsIdle) (ds : List Decision) :
    ∃ q : Queue, q.IsIdle ∧
      ds.foldl dispatch x = { x with queue := q, decisions := x.decisions ++ ds } := by
  induction ds generalizing x with
  | nil => exact ⟨x.queue, h, by simp⟩
  | cons d rest ih =>
    obtain ⟨q, hq, hfirst⟩ := dispatch_of_isIdle h d
    obtain ⟨q', hq', hrest⟩ := ih (x := { x with queue := q, decisions := x.decisions ++ [d] }) hq
    refine ⟨q', hq', ?_⟩
    rw [List.foldl_cons, hfirst, hrest]
    simp

end Simulation

/-! ## What tables decide -/

namespace Tables

/-- What tables answer to a firing, and what they are then. -/
def answer (ids : String → List String) (now : Instant) (t : Tables) (f : Firing) : Bool × Tables :=
  match f.kind with
  | .delayCancellation => (true, t)
  | .execution =>
    if t.permits (ids f.scheduleId) now then (true, t.use (ids f.scheduleId) now) else (false, t)

/-- What tables decide about firings, each after what the ones before it used up. -/
def judge (ids : String → List String) (now : Instant) :
    Tables → List Firing → List Decision × Tables
  | t, [] => ([], t)
  | t, f :: rest =>
    let (accepted, used) := t.answer ids now f
    let (ds, after) := judge ids now used rest
    (Simulation.decisionOn f accepted :: ds, after)

end Tables

/-! ## Recovering what is in memory -/

/-- Which constraints a schedule names. -/
def idsOf (schedules : List Schedule) (scheduleId : String) : List String :=
  ((Table.ofList (schedules.map fun s => (s.id, s.constraintIds))).get? scheduleId).getD []

namespace Simulation

/-- The tables once everything that waits is written. -/
def tables (x : Simulation) : Tables := x.limiter.settled x.store

/-- All that a simulation of some constraints and schedules has in memory could be recovered from
the clock and the settled tables, and nothing stands in its way. -/
structure IsRecoverable (cs : List Constraint) (schedules : List Schedule) (x : Simulation) :
    Prop where
  reliable : x.store.IsReliable
  whole : x.clock.now.IsWhole
  resumed : Processor.Resumed schedules x.processor x.store
  mirrors : x.limiter.Mirrors x.store x.clock.now
  definitions : x.store.tables.HasDefinitions cs
  constraintIds : x.constraintIds = .ofList (schedules.map fun s => (s.id, s.constraintIds))
  idle : x.queue.IsIdle

variable {cs : List Constraint} {schedules : List Schedule} {x y : Simulation}

/-! ### Checking what has fired -/

theorem allow_eq (x : Simulation) (scheduleId : String) :
    x.allow scheduleId =
      ((x.limiter.attempt x.store ((x.constraintIds.get? scheduleId).getD []) x.clock.now).1,
        { x with
          limiter := (x.limiter.attempt x.store
            ((x.constraintIds.get? scheduleId).getD []) x.clock.now).2.1
          store := (x.limiter.attempt x.store
            ((x.constraintIds.get? scheduleId).getD []) x.clock.now).2.2 }) := by
  unfold allow Limiter.attempt
  rcases hprepare : x.limiter.prepare x.store ((x.constraintIds.get? scheduleId).getD []) with
    ⟨_ | _, l, s⟩
  · simp only [hprepare]
  · simp only [hprepare]

/-- A check is answered by the settled tables, and touches the limiter and the store alone. -/
theorem check_answer (hs : x.store.IsReliable) (hnow : x.clock.now.IsWhole)
    (hmirrors : x.limiter.Mirrors x.store x.clock.now)
    (hids : x.constraintIds = .ofList (schedules.map fun s => (s.id, s.constraintIds)))
    (f : Firing) :
    ∃ l s, x.check f = (decisionOn f (x.tables.answer (idsOf schedules) x.clock.now f).1,
        { x with limiter := l, store := s }) ∧
      l.settled s = (x.tables.answer (idsOf schedules) x.clock.now f).2 ∧
      l.Mirrors s x.clock.now ∧ s.IsReadOf x.store := by
  unfold check Tables.answer
  cases f.kind with
  | delayCancellation => exact ⟨x.limiter, x.store, rfl, rfl, hmirrors, .refl _⟩
  | execution =>
    obtain ⟨hanswer, hsettled, hmirrors', hread⟩ := hmirrors.attempt hnow (hs _) (hs _)
      (idsOf schedules f.scheduleId)
    have hnamed : (x.constraintIds.get? f.scheduleId).getD [] = idsOf schedules f.scheduleId := by
      rw [hids, idsOf]
    simp only [allow_eq, hnamed]
    refine ⟨_, _, ?_, hsettled.trans ?_, hmirrors', hread⟩
    · rw [hanswer, tables]
      split
      · next hpermits => rw [hpermits]
      · next hdenied => rw [Bool.eq_false_iff.mpr hdenied]
    · rw [tables]
      split <;> rfl

/-- All that has fired is judged by the settled tables. -/
theorem checkAll_answer (hs : x.store.IsReliable) (hnow : x.clock.now.IsWhole)
    (hmirrors : x.limiter.Mirrors x.store x.clock.now)
    (hids : x.constraintIds = .ofList (schedules.map fun s => (s.id, s.constraintIds)))
    (fs : List Firing) :
    ∃ l s, checkAll fs x = ((x.tables.judge (idsOf schedules) x.clock.now fs).1,
        { x with limiter := l, store := s }) ∧
      l.settled s = (x.tables.judge (idsOf schedules) x.clock.now fs).2 ∧
      l.Mirrors s x.clock.now ∧ s.IsReadOf x.store := by
  induction fs generalizing x with
  | nil => exact ⟨x.limiter, x.store, rfl, rfl, hmirrors, .refl _⟩
  | cons f rest ih =>
    obtain ⟨l, s, hcheck, hsettled, hnext, hread⟩ := check_answer hs hnow hmirrors hids f
    obtain ⟨l', s', hrest, hsettled', hlast, hread'⟩ := ih (x := { x with limiter := l, store := s })
      (fun op => (hread.allows op).mpr (hs op)) hnow hnext hids
    refine ⟨l', s', ?_, ?_, hlast, hread.trans hread'⟩
    · rw [checkAll, hcheck]
      simp only [hrest, tables, hsettled, Tables.judge]
    · rw [hsettled', tables, hsettled]
      rfl

/-- Checking leaves all that is in memory recoverable. -/
theorem checkAll_spec (h : x.IsRecoverable cs schedules) (fs : List Firing) :
    ∃ l s, checkAll fs x = ((x.tables.judge (idsOf schedules) x.clock.now fs).1,
        { x with limiter := l, store := s }) ∧
      l.settled s = (x.tables.judge (idsOf schedules) x.clock.now fs).2 ∧
      IsRecoverable cs schedules { x with limiter := l, store := s } := by
  obtain ⟨l, s, hcheck, hsettled, hmirrors, hread⟩ :=
    checkAll_answer h.reliable h.whole h.mirrors h.constraintIds fs
  have hdefinitions : s.tables.HasDefinitions cs := by
    rw [hread.tables]
    exact h.definitions
  exact ⟨l, s, hcheck, hsettled, fun op => (hread.allows op).mpr (h.reliable op), h.whole,
    h.resumed.of_tables hread.tables, hmirrors, hdefinitions, h.constraintIds, h.idle⟩

/-! ### One step -/

/-- Progress and what waits are kept apart. -/
theorem settled_of_putProgress {l : Limiter} {s s' : Store} {ps : List Progress}
    (h : s'.tables = ps.foldl Tables.putProgress s.tables) :
    l.settled s' = ps.foldl Tables.putProgress (l.settled s) := by
  have hbeside : ∀ (t : Tables) (os : List OccurrenceRow),
      ps.foldl Tables.putProgress { t with occurrences := os } =
        { ps.foldl Tables.putProgress t with occurrences := os } := by
    intro t os
    clear h
    induction ps generalizing t with
    | nil => rfl
    | cons p rest ih => exact ih (t.putProgress p)
  rw [Limiter.settled, Limiter.settled, hbeside, h, Tables.foldl_putProgress_eq]

/-- What a processor would fire at an event, and the progress it would write. -/
def heard (p : Processor) (event : Event) (now : Instant) : List Firing × List Progress :=
  if p.paused then ([], [])
  else
    let os := p.prepared.values.flatMap (Processor.outcomes event now)
    (Processor.firings os, os.map (·.2.progress))

theorem processEvent_heard {p : Processor} {s : Store} {event : Event}
    (h : Processor.Resumed schedules p s) (hs : s.IsReliable)
    (hresumable : ∀ schedule ∈ schedules, schedule.IsResumable) (hevent : event.IsFinite)
    (now : Instant) :
    (p.processEvent s event now).fired = (heard p event now).1 ∧
      (p.processEvent s event now).processor.paused = p.paused ∧
      (p.processEvent s event now).store.IsReliable ∧
      (p.processEvent s event now).store.tables =
        (heard p event now).2.foldl Tables.putProgress s.tables := by
  unfold heard
  split
  · next hpaused =>
    rw [Processor.processEvent_of_paused hpaused]
    refine ⟨rfl, ?_, hs, rfl⟩
    cases event <;> rfl
  · next hpaused =>
    rw [Processor.processEvent_of_not_paused hpaused]
    refine ⟨rfl, ?_, Processor.isReliable_settle hs _ _, Processor.tables_persist (hs _) ?_⟩
    · cases event <;> rfl
    · intro q hq
      obtain ⟨o, ho, rfl⟩ := List.mem_map.mp hq
      exact h.numbers hresumable hevent now o ho

/-- What a step decides, and the settled tables it leaves. -/
def outcome (schedules : List Schedule) (x : Simulation) (event : Event) (now : Instant) :
    List Decision × Tables :=
  ((heard x.processor event now).2.foldl Tables.putProgress x.tables).judge (idsOf schedules) now
    (heard x.processor event now).1

/-- **One step.**  It ends where the clock can be moved, and leaves all that is in memory
recoverable. -/
theorem step?_spec (h : x.IsRecoverable cs schedules)
    (hresumable : ∀ schedule ∈ schedules, schedule.IsResumable) {step : ScenarioStep}
    (hevent : step.event.IsFinite) (hforward : 0 ≤ step.advanceMillis) {clock : Clock}
    (hclock : x.clock.advanceMillis? step.advanceMillis = some clock) :
    ∃ x', x.step? step = some x' ∧ x'.IsRecoverable cs schedules ∧ x'.clock = clock ∧
      x'.processor.paused = x.processor.paused ∧
      x'.decisions = x.decisions ++ (x.outcome schedules step.event clock.now).1 ∧
      x'.tables = (x.outcome schedules step.event clock.now).2 := by
  have hwhole := Clock.isWhole_of_advanceMillis? h.whole hclock
  have hlater := h.mirrors.later h.whole.isPlain hwhole.isPlain
    (Clock.le_of_advanceMillis? h.whole hforward hclock)
  obtain ⟨hfired, hpaused, hreliable, htables⟩ :=
    processEvent_heard h.resumed h.reliable hresumable hevent clock.now
  have hresumed := h.resumed.processEvent (h.reliable _) hresumable hevent clock.now
  unfold step?
  simp only [hclock]
  generalize x.processor.processEvent x.store step.event clock.now = turn at *
  have hrest :=
    Tables.foldl_putProgress_eq (heard x.processor step.event clock.now).2 x.store.tables
  rw [← htables] at hrest
  have hmoved : IsRecoverable cs schedules
      { x with clock := clock, processor := turn.processor, store := turn.store } := by
    refine ⟨hreliable, hwhole, hresumed, hlater.of_tables ?_ ?_, h.definitions.congr ?_,
      h.constraintIds, h.idle⟩ <;> rw [hrest]
  have hsettled : x.limiter.settled turn.store =
      (heard x.processor step.event clock.now).2.foldl Tables.putProgress x.tables :=
    settled_of_putProgress htables
  obtain ⟨l, s, hcheck, hjudged, hchecked⟩ := checkAll_spec hmoved turn.fired
  obtain ⟨q, hidle, hdispatch⟩ := foldl_dispatch (x := { x with
    clock := clock, processor := turn.processor, limiter := l, store := s }) h.idle
      ((Tables.judge (idsOf schedules) clock.now (x.limiter.settled turn.store) turn.fired).1)
  simp only [tables] at hcheck hjudged
  simp only [hcheck, hdispatch]
  refine ⟨_, rfl, ⟨hchecked.reliable, hwhole, hchecked.resumed, hchecked.mirrors,
    hchecked.definitions, h.constraintIds, hidle⟩, rfl, hpaused, ?_, ?_⟩
  · rw [hsettled, hfired]
    rfl
  · rw [tables, hjudged, hsettled, hfired]
    rfl

end Simulation
end Automation
