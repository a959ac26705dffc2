import Automation.Proofs.Processor.Catalogue

/-!
# Progress stays below the goal

Between requests no trigger has as much progress as its goal asks for: the count is zero or strictly
below the goal of the trigger's current definition (`Turn.run_below`).  So what a trigger waits for
is always still to come, and no trigger fires late, on an event that did not count for it.

## Three ways to meet the goal

Progress grows by an event, and a trigger that reaches its goal there fires and begins again.  It
grows in the other two ways without an event: a schedule is defined again with a lower goal, or with
stored progress of an earlier definition.  Both pass through `Sync.add`, which settles whatever it
prepares, and that is why nothing has to be assumed of the store: what it gives back, what it
refuses and what it has lost does not matter.  Entering a state can only take progress away, or feed
the remembered state like an event.

What is needed is that counts and goals can be compared.  A goal that is no number is below nothing
and above nothing, so a trigger with such a goal would keep every count.  Values of events have to be
finite, since adding two infinite ones may give what is no number either.
-/

namespace Automation

/-- The count can be compared with the goal, and is zero or below it. -/
structure Prepared.IsBelow (t : Prepared) : Prop where
  goal : t.trigger.goal ≠ .nan
  settled : t.exceedsGoal = false

namespace Prepared

variable {t : Prepared}

theorem exceedsGoal_eq_false_iff : t.exceedsGoal = false ↔
    t.progress.count.isZero = true ∨ t.progress.count.lt t.trigger.goal = true := by
  rw [exceedsGoal, Bool.and_eq_false_iff, Bool.not_eq_false', Bool.not_eq_false']

/-- A finite event leaves a trigger below its goal: it fires where it would not be. -/
theorem IsBelow.process (h : t.IsBelow) {event : Event} (hevent : event.IsFinite) (now : Instant) :
    (t.process event now).1.IsBelow :=
  ⟨by rw [process_trigger]; exact h.goal,
    below_process h.goal h.settled (number_process hevent (count_ne_nan h.settled) now)⟩

theorem IsBelow.activate (h : t.IsBelow) : t.activate.IsBelow := by
  refine ⟨by rw [activate_trigger]; exact h.goal, ?_⟩
  rw [Prepared.activate]
  split
  · exact h.settled
  · split
    · exact h.settled
    · rfl

theorem IsBelow.disable (h : t.IsBelow) : t.disable.IsBelow := ⟨h.goal, h.settled⟩

theorem IsBelow.enter (h : t.IsBelow) (state : ScheduleState) :
    (Processor.enter state t).IsBelow := by
  rw [Processor.enter]
  split
  · exact h.activate
  · exact h.disable

/-- Settling leaves nothing to be assumed of the count. -/
theorem isBelow_resetIfReached (hgoal : t.trigger.goal ≠ .nan) : t.resetIfReached.IsBelow :=
  ⟨by rw [resetIfReached_trigger]; exact hgoal, Processor.exceedsGoal_resetIfReached t⟩

end Prepared

namespace Processor

/-- Every trigger is below its goal. -/
def IsBelow (p : Processor) : Prop :=
  ∀ id ts, p.prepared.get? id = some ts → ∀ t ∈ ts, t.IsBelow

/-- The numbers that a request brings can be compared: events are finite and goals are numbers. -/
def Request.HasNumbers : Request → Prop
  | .event e _ => e.IsFinite
  | .update schedules _ | .restore schedules _ =>
    ∀ schedule ∈ schedules, ∀ d ∈ schedule.definitions, d.1.goal ≠ .nan
  | .pause _ | .enter _ _ _ | .cancel _ | .cancelGroup _ | .restart => True

variable {p : Processor} {t : Turn}

theorem isBelow_empty : Processor.empty.IsBelow := fun _ _ hts => by cases hts

/-! ## One operation -/

section Feeding

variable {ts : List Prepared} {event : Event}

theorem isBelow_feed (h : ∀ t ∈ ts, t.IsBelow) (hevent : event.IsFinite) (now : Instant) :
    ∀ t ∈ feed event now ts, t.IsBelow := by
  intro u hu
  obtain ⟨t, ht, rfl⟩ := List.mem_map.mp hu
  exact (h t ht).process hevent now

theorem isBelow_enter (h : ∀ t ∈ ts, t.IsBelow) (state : ScheduleState) :
    ∀ t ∈ ts.map (enter state), t.IsBelow := by
  intro u hu
  obtain ⟨t, ht, rfl⟩ := List.mem_map.mp hu
  exact (h t ht).enter state

end Feeding

theorem IsBelow.processEvent (h : p.IsBelow) (s : Store) {event : Event} (hevent : event.IsFinite)
    (now : Instant) : (p.processEvent s event now).processor.IsBelow := by
  by_cases hpaused : p.paused = true
  · rw [processEvent_of_paused hpaused]
    cases event <;> exact h
  · rw [processEvent_of_not_paused hpaused]
    intro id us hus
    rw [settle, Table.get?_map] at hus
    obtain ⟨ts, hts, rfl⟩ := Option.map_eq_some_iff.mp hus
    exact isBelow_feed (h id ts hts) hevent now

theorem IsBelow.entering (h : p.IsBelow) (scheduleId : String) (state : ScheduleState) :
    (p.entering scheduleId state).IsBelow := by
  intro id us hus
  rw [get?_entering] at hus
  split at hus
  · obtain ⟨ts, hts, rfl⟩ := Option.map_eq_some_iff.mp hus
    exact isBelow_enter (h id ts hts) state
  · exact h id us hus

/-- A state that is fed counts for one, which is finite. -/
theorem IsBelow.applyState (h : p.IsBelow) (s : Store) (now : Instant) (scheduleId : String)
    (state : ScheduleState) : (p.applyState s now scheduleId state).processor.IsBelow := by
  cases hrefed : p.refed? scheduleId state with
  | none =>
    rw [applyState_of_refed?_eq_none hrefed]
    exact h.entering scheduleId state
  | some fed =>
    obtain ⟨last, ts⟩ := fed
    obtain ⟨hts, happly⟩ := applyState_of_refed?_eq_some hrefed s now
    rw [happly]
    intro id us hus
    rw [settle, Table.get?_insert] at hus
    split at hus
    · cases hus
      have hfinite : (Event.stateChanged last).IsFinite := trivial
      exact isBelow_feed (h.entering scheduleId state scheduleId ts hts) hfinite now
    · exact h id us hus

/-! ## Defining schedules -/

/-- Each definition is settled when it is prepared, whether its count comes from memory or from the
store. -/
theorem isBelow_foldl_add (schedule : Schedule) {ds : List (Trigger × Execution)}
    (hgoals : ∀ d ∈ ds, d.1.goal ≠ .nan) {w : Sync} (hw : ∀ t ∈ w.prepared, t.IsBelow) :
    ∀ t ∈ (ds.foldl (Sync.add schedule) w).prepared, t.IsBelow := by
  induction ds generalizing w with
  | nil => exact hw
  | cons d rest ih =>
    rw [List.forall_mem_cons] at hgoals
    refine ih hgoals.2 fun t ht => ?_
    rw [prepared_add, List.mem_append, List.mem_singleton] at ht
    rcases ht with ht | rfl
    · exact hw t ht
    · refine Prepared.isBelow_resetIfReached ?_
      rw [(prepareOne_role schedule (w.existing.get? d.1.id) w.store d.1 d.2).1]
      exact hgoals.1

theorem IsBelow.syncSchedule (h : p.IsBelow) (s : Store) {schedule : Schedule}
    (hgoals : ∀ d ∈ schedule.definitions, d.1.goal ≠ .nan) :
    (p.syncSchedule s schedule).1.IsBelow := by
  intro id ts hts
  rw [get?_syncSchedule] at hts
  split at hts
  · cases hts
    exact isBelow_foldl_add schedule hgoals (List.forall_mem_nil _)
  · exact h id ts hts

theorem IsBelow.foldl_registerOne (h : t.processor.IsBelow) (now : Instant)
    {schedules : List Schedule}
    (hgoals : ∀ schedule ∈ schedules, ∀ d ∈ schedule.definitions, d.1.goal ≠ .nan) :
    (schedules.foldl (registerOne now) t).processor.IsBelow := by
  induction schedules generalizing t with
  | nil => exact h
  | cons schedule rest ih =>
    rw [List.forall_mem_cons] at hgoals
    exact ih ((h.syncSchedule t.store hgoals.1).applyState _ now schedule.id schedule.state)
      hgoals.2

/-- Forgetting schedules leaves the triggers of the others. -/
theorem IsBelow.foldl_forget (h : p.IsBelow) (scheduleIds : List String) :
    (scheduleIds.foldl forget p).IsBelow := by
  intro id ts hts
  rw [get?_foldl_forget] at hts
  split at hts
  · cases hts
  · exact h id ts hts

/-! ## Requests -/

/-- Every request keeps triggers below their goals, whatever the store gives back or refuses. -/
theorem IsBelow.respond (h : p.IsBelow) (s : Store) {r : Request} (hr : r.HasNumbers) :
    (p.respond s r).processor.IsBelow := by
  have hupdated : ∀ schedules now,
      (∀ schedule ∈ schedules, ∀ d ∈ schedule.definitions, d.1.goal ≠ .nan) →
        (p.updateSchedules s now schedules).processor.IsBelow := fun schedules now hgoals =>
    IsBelow.foldl_registerOne (t := ⟨p, s, []⟩) h now fun schedule hschedule =>
      hgoals schedule ((perm_sortBy Schedule.priority _).mem_iff.mp hschedule)
  cases r with
  | event event now => exact h.processEvent s hr now
  | pause paused => exact h
  | update schedules now => exact hupdated schedules now hr
  | restore schedules now => exact hupdated schedules now hr
  | enter scheduleId state now => exact h.applyState s now scheduleId state
  | cancel scheduleIds => exact h.foldl_forget scheduleIds
  | cancelGroup group =>
    show (p.cancelGroup s group).processor.IsBelow
    rw [Processor.cancelGroup]
    split
    · exact h
    · exact IsBelow.foldl_forget (p := { p with groups := p.groups.erase group }) h _
  | restart => exact isBelow_empty

end Processor

namespace Turn

open Processor

theorem isBelow_run (s : Store) {rs : List Request} (hrs : ∀ r ∈ rs, r.HasNumbers) :
    ((start s).run rs).processor.IsBelow := by
  suffices h : ∀ t : Turn, t.processor.IsBelow → (t.run rs).processor.IsBelow from
    h _ isBelow_empty
  induction rs with
  | nil => exact fun t ht => ht
  | cons r rest ih =>
    rw [List.forall_mem_cons] at hrs
    exact fun t ht => ih hrs.2 (t.serve r) (ht.respond t.store hrs.1)

/-- **Progress stays below its goal.**  After any run over any store, whatever the store holds and
whenever it fails, the prepared triggers of a schedule are those of its current definition, and the
count of each is zero or strictly below its goal. -/
theorem run_below (s : Store) (rs : List Request) (hrs : ∀ r ∈ rs, r.HasNumbers) (id : String)
    (ts : List Prepared) (hts : ((start s).run rs).processor.prepared.get? id = some ts) :
    (∃ schedule, (defined rs).get? id = some schedule ∧
      ts.map (fun t => (t.trigger, t.kind)) = schedule.definitions) ∧
      ∀ t ∈ ts, t.progress.count.isZero = true ∨ t.progress.count.lt t.trigger.goal = true := by
  constructor
  · have hknows := (knows_run s rs).prepared id
    rw [hts] at hknows
    obtain ⟨schedule, hschedule, hroles⟩ := Option.map_eq_some_iff.mp hknows.symm
    exact ⟨schedule, hschedule, hroles.symm⟩
  · exact fun t ht =>
      Prepared.exceedsGoal_eq_false_iff.mp (isBelow_run s hrs id ts hts t ht).settled

/-- A schedule with one trigger that counts custom events by value. -/
def valueSchedule (goal : Int) : Schedule :=
  ⟨"s", none, 0, ⟨none, none⟩, [⟨"a", .customEventValue, .ofInt goal, none⟩], [], [], .idle⟩

/-- Progress from before, and a store that takes no more of it. -/
def fullStore : Store :=
  ⟨{ Tables.empty with progress := .ofList [(⟨"s", "a"⟩, ⟨.ofInt 7, none⟩)] }, 0,
    fun _ op => if op = .writeProgress then some .readOnly else none, false⟩

/-- The stored progress is past the goal; then the goal is lowered below what was counted since; then
an event counts for less than nothing. -/
def loweringRequests : List Request :=
  [.restore [valueSchedule 5] .epoch, .event (.occurred .customEventValue none (.ofInt 4)) .epoch,
    .update [valueSchedule 3] .epoch, .event (.occurred .customEventValue none (.ofInt (-6))) .epoch]

/-- Both are dropped, and the last event leaves a count below zero. -/
theorem run_below_lowering :
    (((start fullStore).run loweringRequests).processor.triggersOf "s").map (·.progress.count) =
        [.ofInt (-6)] ∧
      ∀ t ∈ ((start fullStore).run loweringRequests).processor.triggersOf "s",
        t.progress.count.isZero = true ∨ t.progress.count.lt t.trigger.goal = true := by
  refine ⟨by decide +kernel, ?_⟩
  have hnumbers : ∀ r ∈ loweringRequests, r.HasNumbers := by
    simp only [loweringRequests, List.forall_mem_cons, List.not_mem_nil, false_implies,
      implies_true, and_true, Request.HasNumbers, Event.IsFinite]
    decide +kernel
  have hsome : (((start fullStore).run loweringRequests).processor.prepared.get? "s").isSome =
    true := by decide +kernel
  obtain ⟨ts, hts⟩ := Option.isSome_iff_exists.mp hsome
  have hbelow := (run_below fullStore loweringRequests hnumbers "s" ts hts).2
  rw [triggersOf, hts]
  exact hbelow

end Turn
end Automation
