import Automation.Proofs.Limit.Reference
import Automation.Proofs.Processor.Lifecycle
import Automation.Proofs.Simulation.Seam
import Automation.Proofs.Simulation.Verdicts

/-!
# A simulation reports everything

What a simulation decides about is what a processor fires, and to say what that is one needs no
simulation: it is the run of a processor that is asked to restore the schedules and is then fed the
events, each at its time (`requests`).  A simulation does more between two events, and all of it is
on the side of the limiter and the queue.  The processor does not see it, because what an event does
to a processor does not depend on the store.

`Reports` says how far a simulation has come after some requests: its processor is that of the run,
it has decided about everything the run has fired, as is due, and its tables have recorded what was
decided.  A step keeps this (`Reports.step?`).  Nothing is lost in the queue, because it is idle
before a step and every operation of a step passes through it before the next.

Rows of progress may be anything here.  What cannot be read begins anew and what cannot be written is
lost, and neither is seen by a limiter.
-/

namespace Automation

/-! ## What is defined at the beginning -/

/-- Tables define the constraints of a list: every id of the list is defined, and a definition is
that of a constraint of the list, as it stands there or as its row gives it back. -/
structure Tables.DefinesList (t : Tables) (cs : List Constraint) : Prop where
  defined : ∀ c ∈ cs, ∃ c', t.constraint? c.id = .ok (some c')
  listed : ∀ id c', t.constraint? id = .ok (some c') → ∃ c ∈ cs, c.id = id ∧
    (c' = c ∨ Tables.constraintOfRow id (Tables.rowOfConstraint c) = .ok c')

/-- A difference leaves the definitions of the list, whatever ids are repeated in it. -/
theorem Limiter.Difference.definesList {t : Tables} {stored cs : List Constraint}
    (hstored : t.allConstraints = .ok stored) (hcounts : ∀ c ∈ cs, c.count ≤ 0xffffffff) :
    ((between stored cs).applyToTables t).DefinesList cs := by
  -- what the list names and does not redefine is defined already
  have hsame : ∀ c ∈ cs,
      ((cs.filter (redefines stored)).filter fun other => other.id = c.id).getLast? = none →
        t.constraint? c.id = .ok (some c) := fun c hc hnone => by
    rw [List.getLast?_eq_none_iff, List.filter_eq_nil_iff] at hnone
    have hredefines : redefines stored c = false := Bool.eq_false_iff.mpr fun hredefines =>
      hnone c (List.mem_filter.mpr ⟨hc, hredefines⟩) (decide_eq_true rfl)
    obtain ⟨row, hrow, hread⟩ := Tables.exists_row_of_mem hstored
      (List.mem_of_find?_eq_some (find?_of_redefines_eq_false hredefines))
    simp only [Tables.constraint?, hrow, hread]
    rfl
  constructor
  · intro c hc
    have hkept := hsame c hc
    rw [Tables.constraint?] at hkept ⊢
    rw [get?_applyToTables, if_neg (not_mem_delete stored hc)]
    cases hlast : ((cs.filter (redefines stored)).filter fun other => other.id = c.id).getLast? with
    | some last =>
      have hmem := (List.mem_filter.mp (List.mem_filter.mp (List.mem_of_getLast? hlast)).1).1
      obtain ⟨c', hread⟩ := Tables.exists_constraintOfRow (hcounts last hmem) c.id
      simp only [Option.map_some, Option.some_or, hread]
      exact ⟨c', rfl⟩
    | none =>
      simp only [Option.map_none, Option.none_or]
      exact ⟨c, hkept hlast⟩
  · intro id c' hc'
    obtain ⟨row, hrow, hread⟩ := exists_row_of_constraint? hc'
    rw [get?_applyToTables, Option.or_eq_some_iff, Option.map_eq_none_iff] at hrow
    rcases hrow with hrow | ⟨hnone, hrow⟩
    · obtain ⟨c, hlast, rfl⟩ := Option.map_eq_some_iff.mp hrow
      obtain ⟨hmem, hid⟩ := List.mem_filter.mp (List.mem_of_getLast? hlast)
      exact ⟨c, (List.mem_filter.mp hmem).1, of_decide_eq_true hid, Or.inr hread⟩
    · split at hrow
      · cases hrow
      · next hkeep =>
        obtain ⟨c, hc, rfl⟩ := List.mem_map.mp (mem_of_row hstored hrow hkeep)
        obtain ⟨row', hrow', hread'⟩ := exists_row_of_constraint? (hsame c hc hnone)
        rw [hrow] at hrow'
        cases hrow'
        exact ⟨c, hc, rfl, Or.inl (Except.ok.inj (hread.symm.trans hread'))⟩

namespace Processor

/-! ## What a processor does without its store -/

/-- What an event does to a processor does not depend on the store. -/
theorem processEvent_congr (p : Processor) (s s' : Store) (event : Event) (now : Instant) :
    (p.processEvent s event now).processor = (p.processEvent s' event now).processor ∧
      (p.processEvent s event now).fired = (p.processEvent s' event now).fired := by
  by_cases hpaused : p.paused = true
  · rw [processEvent_of_paused hpaused, processEvent_of_paused hpaused]
    exact ⟨rfl, rfl⟩
  · rw [processEvent_of_not_paused hpaused, processEvent_of_not_paused hpaused]
    exact ⟨rfl, rfl⟩

/-- An event leaves all rows but those of progress. -/
theorem exists_tables_processEvent (p : Processor) (s : Store) (event : Event) (now : Instant) :
    (∃ progress, (p.processEvent s event now).store.tables =
        { s.tables with progress := progress }) ∧
      ∀ op, (p.processEvent s event now).store.Allows op ↔ s.Allows op := by
  by_cases hpaused : p.paused = true
  · rw [processEvent_of_paused hpaused]
    exact ⟨⟨s.tables.progress, rfl⟩, fun _ => Iff.rfl⟩
  · rw [processEvent_of_not_paused hpaused]
    exact ⟨exists_tables_persist s _, fun _ => allows_persist⟩

/-- As long as no state is remembered, schedules are defined in silence. -/
theorem foldl_registerOne_of_lastState {t : Turn} (h : t.processor.lastState = none) (now : Instant)
    (schedules : List Schedule) :
    (schedules.foldl (registerOne now) t).fired = t.fired := by
  induction schedules generalizing t with
  | nil => rfl
  | cons schedule rest ih =>
    rw [List.foldl_cons, registerOne_of_lastState h]
    exact ih h

/-- Whoever owns its triggers still does after schedules have been defined. -/
theorem isOwned_foldl_registerOne {t : Turn} (h : t.IsOwned) (now : Instant)
    (schedules : List Schedule) : (schedules.foldl (registerOne now) t).IsOwned := by
  induction schedules generalizing t with
  | nil => exact h
  | cons schedule rest ih => exact ih (isOwned_registerOne h now schedule)

/-- A new processor restores schedules in silence, and leaves all rows but those of progress. -/
theorem restoreSchedules_empty {s : Store} (hs : s.IsReliable) (paused : Bool) (now : Instant)
    (schedules : List Schedule) :
    let t := (empty.setPaused paused).restoreSchedules s now schedules
    t.fired = [] ∧ t.store.IsReliable ∧
      ∃ progress, t.store.tables = { s.tables with progress := progress } := by
  intro t
  have howned : Turn.IsOwned ⟨empty.setPaused paused, s, []⟩ :=
    ⟨hs, fun _ _ ht => absurd ht List.not_mem_nil⟩
  have hreliable :=
    (isOwned_foldl_registerOne howned now (sortBy Schedule.priority schedules)).reliable
  obtain ⟨progress, htables⟩ :=
    exists_tables_foldl_registerOne howned now (sortBy Schedule.priority schedules)
  refine ⟨foldl_registerOne_of_lastState rfl now _,
    fun op => Store.allows_command.mpr (hreliable op),
    progress.filter fun k _ => (schedules.map (·.id)).contains k.scheduleId, ?_⟩
  refine (Store.tables_keepSchedules (hreliable _) _).trans ?_
  rw [Tables.keepSchedules, htables]

end Processor

/-! ## Which schedule a decision is about -/

/-- A schedule names what it lists, if no other one has its id. -/
theorem idsOf_of_mem {schedules : List Schedule} (hids : (schedules.map (·.id)).Nodup)
    {schedule : Schedule} (h : schedule ∈ schedules) :
    idsOf schedules schedule.id = schedule.constraintIds := by
  have hone : ((schedules.map fun other => (other.id, other.constraintIds)).filter
      fun pair => pair.1 = schedule.id) = [(schedule.id, schedule.constraintIds)] := by
    rw [List.filter_map]
    exact congrArg (List.map fun other : Schedule => (other.id, other.constraintIds))
      (filter_eq_singleton hids h)
  rw [idsOf, Table.ofList, Table.get?_foldl_insert, hone]
  rfl

namespace Simulation

open Processor

/-- The events of steps, each at the time to which the clock has been moved for it. -/
def feeds (clock : Clock) : List ScenarioStep → List Request
  | [] => []
  | step :: rest =>
    match clock.advanceMillis? step.advanceMillis with
    | none => []
    | some later => .event step.event later.now :: feeds later rest

/-- What a scenario asks of a processor that does nothing else. -/
def requests (settings : Settings) (scenario : Scenario) (clock : Clock) : List Request :=
  .pause settings.paused :: .restore scenario.schedules clock.now :: feeds clock scenario.steps

/-! ## One step -/

variable {schedules : List Schedule} {t₀ : Tables} {t : Turn} {x : Simulation}
  {defs : Table String Schedule}

/-- A simulation has decided about all that a run has fired. -/
structure Reports (schedules : List Schedule) (t₀ : Tables) (t : Turn) (x : Simulation) :
    Prop where
  processor : x.processor = t.processor
  answered : List.Forall₂ (fun f d => d = decisionOn f d.accepted) t.fired x.decisions
  known : ∀ f ∈ t.fired, ∃ schedule ∈ schedules, schedule.id = f.scheduleId
  judged : AreJudged schedules t₀ x.decisions
  stands : t₀.Stands (recordedBy schedules x.decisions) x.tables
  reliable : x.store.IsReliable
  whole : x.clock.now.IsWhole
  mirrors : x.limiter.Mirrors x.store x.clock.now
  constraintIds : x.constraintIds = .ofList (schedules.map fun s => (s.id, s.constraintIds))
  idle : x.queue.IsIdle

/-- A processor at work for schedules: what it has prepared is defined, and the definitions are among
them. -/
structure Serves (schedules : List Schedule) (defs : Table String Schedule) (p : Processor) :
    Prop where
  knows : Knows defs p
  bound : Bound defs p
  listed : ∀ id schedule, defs.get? id = some schedule → schedule ∈ schedules ∧ schedule.id = id

theorem Serves.event (h : Serves schedules defs t.processor) (event : Event) (now : Instant) :
    Serves schedules defs (t.serve (.event event now)).processor :=
  ⟨h.knows.serve (.event event now), h.bound.serve (.event event now), h.listed⟩

/-- What an event fires is of one of the schedules, and has the date of the event. -/
theorem Serves.of_mem_processEvent {p : Processor} {s : Store} {event : Event} {now : Instant}
    (h : Serves schedules defs p) {f : Firing} (hf : f ∈ (p.processEvent s event now).fired) :
    f.info.date = now ∧ ∃ schedule ∈ schedules, schedule.id = f.scheduleId := by
  obtain ⟨ts, hget, u, -, -, reached, rfl⟩ :=
    exists_active_of_mem_processEvent h.bound.owns hf
  have hknown := h.knows.prepared (u.firing event reached now).scheduleId
  rw [hget, Option.map_some] at hknown
  obtain ⟨schedule, hdefined, -⟩ := Option.map_eq_some_iff.mp hknown.symm
  obtain ⟨hmem, hid⟩ := h.listed _ schedule hdefined
  exact ⟨rfl, schedule, hmem, hid⟩

/-- **One step.**  Wherever the clock can be moved to, a step decides about all that its event
fires. -/
theorem Reports.step? (h : Reports schedules t₀ t x) (hserves : Serves schedules defs t.processor)
    {step : ScenarioStep} (hforward : 0 ≤ step.advanceMillis) {clock : Clock}
    (hclock : x.clock.advanceMillis? step.advanceMillis = some clock) :
    ∃ x', x.step? step = some x' ∧ x'.clock = clock ∧
      Reports schedules t₀ (t.serve (.event step.event clock.now)) x' := by
  have hwhole := Clock.isWhole_of_advanceMillis? h.whole hclock
  have hlater := h.mirrors.later h.whole.isPlain hwhole.isPlain
    (Clock.le_of_advanceMillis? h.whole hforward hclock)
  obtain ⟨⟨progress, htables⟩, hallows⟩ :=
    exists_tables_processEvent x.processor x.store step.event clock.now
  obtain ⟨hprocessor, hfired⟩ :=
    processEvent_congr t.processor x.store t.store step.event clock.now
  have hfirings : ∀ f ∈ (x.processor.processEvent x.store step.event clock.now).fired,
      f.info.date = clock.now ∧ ∃ schedule ∈ schedules, schedule.id = f.scheduleId := fun f hf => by
    rw [h.processor] at hf
    exact hserves.of_mem_processEvent hf
  rw [← h.processor] at hprocessor hfired
  unfold Simulation.step?
  simp only [hclock]
  generalize x.processor.processEvent x.store step.event clock.now = turn at *
  have hmirrors : x.limiter.Mirrors turn.store clock.now :=
    hlater.of_tables (congrArg Tables.constraints htables :) (congrArg Tables.occurrences htables :)
  have hstands : t₀.Stands (recordedBy schedules x.decisions) (x.limiter.settled turn.store) := by
    refine h.stands.congr (congrArg Tables.constraints htables :) ?_
    rw [tables, Limiter.settled, Limiter.settled, htables]
  obtain ⟨l, s, hcheck, hsettled, hmirrors', hread⟩ := checkAll_answer
    (x := { x with clock := clock, processor := turn.processor, store := turn.store })
    (fun op => (hallows op).mpr (h.reliable op)) hwhole hmirrors h.constraintIds turn.fired
  obtain ⟨hanswers, hjudged, hlast⟩ :=
    hstands.judge hwhole (fun f hf => (hfirings f hf).1) h.judged
  obtain ⟨q, hidle, hdispatch⟩ := foldl_dispatch (x := { x with
    clock := clock, processor := turn.processor, limiter := l, store := s }) h.idle
      ((x.limiter.settled turn.store).judge (idsOf schedules) clock.now turn.fired).1
  simp only [tables] at hcheck hsettled
  simp only [hcheck, hdispatch]
  have hall : (t.serve (.event step.event clock.now)).fired = t.fired ++ turn.fired := by
    rw [hfired, h.processor]
    rfl
  refine ⟨_, rfl, rfl, ⟨?_, ?_, ?_, hjudged, ?_, ?_, hwhole, hmirrors', h.constraintIds, hidle⟩⟩
  · rw [hprocessor, h.processor]
    rfl
  · rw [hall]
    exact List.rel_append h.answered hanswers
  · rw [hall]
    intro f hf
    rcases List.mem_append.mp hf with hf | hf
    · exact h.known f hf
    · exact (hfirings f hf).2
  · rw [tables, hsettled]
    exact hlast
  · exact fun op => (hread.allows op).mpr ((hallows op).mpr (h.reliable op))

/-! ## All steps -/

/-- Steps decide about all that their events fire. -/
theorem Reports.foldlM_step? (h : Reports schedules t₀ t x)
    (hserves : Serves schedules defs t.processor) {steps : List ScenarioStep}
    (hforward : ∀ step ∈ steps, 0 ≤ step.advanceMillis) {clock : Clock}
    (hclock : clockAfter? x.clock steps = some clock) :
    ∃ x', steps.foldlM Simulation.step? x = some x' ∧
      Reports schedules t₀ (t.run (feeds x.clock steps)) x' := by
  induction steps generalizing x t with
  | nil => exact ⟨x, rfl, h⟩
  | cons step rest ih =>
    rw [List.forall_mem_cons] at hforward
    rw [clockAfter?, List.foldlM_cons] at hclock
    obtain ⟨next, hnext, hrest⟩ := Option.bind_eq_some_iff.mp hclock
    obtain ⟨x₁, hstep, rfl, hreports⟩ := h.step? hserves hforward.1 hnext
    obtain ⟨x', hx', hlast⟩ := ih hreports (hserves.event step.event _) hforward.2 hrest
    refine ⟨x', ?_, ?_⟩
    · rw [List.foldlM_cons, hstep]
      exact hx'
    · rw [feeds, hnext]
      exact hlast

/-! ## The beginning -/

variable {settings : Settings} {config : QueueConfig} {scenario : Scenario} {s : Store}

/-- **Beginning.**  A simulation comes to its steps with nothing to decide about yet, over the tables
that the list of constraints leaves. -/
theorem exists_beginning (hconfig : settings.retry.queueConfig = .ok config) (hs : s.IsReliable)
    (hreadable : s.tables.IsReadable) (hcounts : ∀ c ∈ scenario.constraints, c.count ≤ 0xffffffff)
    {start : Int} (hstart : scenario.startMillis = some start) :
    ∃ l s₁ x, Limiter.empty.setConstraints s scenario.constraints = (.ok (), l, s₁) ∧
      s₁.tables.DefinesList scenario.constraints ∧
      (∀ present, run settings scenario s present = replay scenario.steps x) ∧
      x.clock = .ofMillis start ∧
      Reports scenario.schedules s₁.tables ((Turn.start s₁).run
        [.pause settings.paused, .restore scenario.schedules (Clock.ofMillis start).now]) x := by
  obtain ⟨stored, l, s₁, hstored, hset, hs₁, htables, hsettled, hmirrors⟩ :=
    Limiter.exists_setConstraints hs hreadable.constraints scenario.constraints
  obtain ⟨hsilent, hreliable, progress, hrestored⟩ := restoreSchedules_empty hs₁ settings.paused
    (Clock.ofMillis start).now scenario.schedules
  refine ⟨l, s₁, begin config settings.paused scenario (.ofMillis start) l s₁, hset, ?_, ?_, rfl, ?_⟩
  · rw [htables]
    exact Limiter.Difference.definesList hstored hcounts
  · intro present
    unfold run
    simp only [hset, hconfig, hstart]
  · have hfired : ((Turn.start s₁).run [.pause settings.paused,
        .restore scenario.schedules (Clock.ofMillis start).now]).fired = [] := hsilent
    have hreadable₁ : ∀ id, s₁.tables.IsReadableFor id := fun id row hrow => by
      rw [htables] at hrow
      exact hreadable.occurrences id row
        (Limiter.Difference.mem_occurrences_applyToTables.mp hrow).1
    refine ⟨rfl, ?_, ?_, areJudged_nil, ?_, hreliable, Instant.isWhole_ofMillis start, ?_, rfl,
      Queue.isIdle_empty hconfig⟩
    · rw [hfired]
      exact .nil
    · rw [hfired]
      exact List.forall_mem_nil _
    · refine (Tables.stands_self hreadable₁).congr (congrArg Tables.constraints hrestored :) ?_
      rw [← hsettled]
      show (l.settled _).occurrences = (l.settled s₁).occurrences
      rw [Limiter.settled, Limiter.settled]
      exact congrArg (· ++ _) (congrArg Tables.occurrences hrestored :)
    · exact (hmirrors _).of_tables (congrArg Tables.constraints hrestored :)
        (congrArg Tables.occurrences hrestored :)

/-- A processor that has restored schedules serves them. -/
theorem serves_restored (s : Store) (paused : Bool) (schedules : List Schedule) (now : Instant) :
    Serves schedules (defined [.pause paused, .restore schedules now])
      ((Turn.start s).run [.pause paused, .restore schedules now]).processor := by
  refine ⟨knows_run s _, bound_run s _, fun id schedule hdefined => ?_⟩
  rcases get?_foldl_note hdefined with hbefore | ⟨hid, hmem⟩
  · cases hbefore
  · exact ⟨(perm_sortBy _ _).mem_iff.mp hmem, hid⟩

/-- **Nothing is lost, and what is in doubt is turned down.**  A simulation with a start, schedules
with distinct ids and steps that the clock can be moved through, over any store that refuses nothing
and whose constraints and occurrences can be read, decides about every result that its processor
fires, once and in the order of the run.  A cancellation is accepted.  An execution is accepted just
if every constraint id of its schedule is defined and has room, counting what is still stored once
the constraints of the scenario are in place and what the executions accepted before it have
recorded.  In the end just this is recorded: one occurrence for each constraint id of every accepted
execution, and none for anything else. -/
theorem run_reports (hconfig : settings.retry.queueConfig = .ok config) (hs : s.IsReliable)
    (hreadable : s.tables.IsReadable) (hcounts : ∀ c ∈ scenario.constraints, c.count ≤ 0xffffffff)
    (hids : (scenario.schedules.map (·.id)).Nodup) {start : Int}
    (hstart : scenario.startMillis = some start)
    (hforward : ∀ step ∈ scenario.steps, 0 ≤ step.advanceMillis)
    (hclock : (clockAfter? (.ofMillis start) scenario.steps).isSome = true) (present : Instant) :
    ∃ l s₁ ds l' s', Limiter.empty.setConstraints s scenario.constraints = (.ok (), l, s₁) ∧
      s₁.tables.DefinesList scenario.constraints ∧
      run settings scenario s present = (.ok ds, l', s') ∧
      List.Forall₂ (fun f d => d = decisionOn f d.accepted)
        ((Turn.start s₁).run (requests settings scenario (.ofMillis start))).fired ds ∧
      (∀ before d after, ds = before ++ d :: after →
        ∃ schedule ∈ scenario.schedules, schedule.id = d.scheduleId ∧
          idsOf scenario.schedules d.scheduleId = schedule.constraintIds ∧
          (d.accepted = true ↔ d.kind = .delayCancellation ∨ ∀ id ∈ schedule.constraintIds,
            s₁.tables.HasRoom (recordedBy scenario.schedules before) d.date id)) ∧
      s'.tables.constraints = s₁.tables.constraints ∧
      s'.tables.occurrences = s₁.tables.occurrences ++
        (recordedBy scenario.schedules ds).map Tables.rowOfOccurrence := by
  obtain ⟨l, s₁, x, hset, hlist, hrun, hx, hbegun⟩ :=
    exists_beginning hconfig hs hreadable hcounts hstart
  obtain ⟨clock, hend⟩ := Option.isSome_iff_exists.mp hclock
  obtain ⟨x', hsteps, hreports⟩ := hbegun.foldlM_step?
    (serves_restored s₁ settings.paused scenario.schedules (Clock.ofMillis start).now) hforward
    (hx ▸ hend)
  have htables := (hreports.mirrors.flush (hreports.reliable _)).1
  have hstands := hreports.stands
  rw [tables, ← htables] at hstands
  have hanswered := hreports.answered
  rw [hx] at hanswered
  refine ⟨l, s₁, x'.decisions, (x'.limiter.flush x'.store).1, (x'.limiter.flush x'.store).2, hset,
    hlist, ?_, hanswered, fun before d after hsplit => ?_, hstands.constraints, hstands.occurrences⟩
  · rw [hrun, replay_of_foldlM hsteps]
  · have hmem : d ∈ x'.decisions := hsplit ▸ List.mem_append_right _ List.mem_cons_self
    obtain ⟨⟨i, hi⟩, hdecided⟩ := List.mem_iff_get.mp hmem
    have hplace := hreports.answered.length_eq.symm ▸ hi
    have hanswer := hreports.answered.get hplace hi
    obtain ⟨schedule, hschedule, hid⟩ := hreports.known _ (List.get_mem _ ⟨i, hplace⟩)
    have hsame : schedule.id = d.scheduleId := by
      rw [← hdecided, hanswer]
      exact hid
    have hnamed : idsOf scenario.schedules d.scheduleId = schedule.constraintIds := by
      rw [← hsame]
      exact idsOf_of_mem hids hschedule
    refine ⟨schedule, hschedule, hsame, hnamed, ?_⟩
    rw [hreports.judged before d after hsplit, Decision.IsDue, hnamed]

/-- Two executions and a cancellation are due on every custom event.  One of the executions names a
constraint twice, and the other one a constraint that is not defined. -/
def contended : Scenario :=
  let trigger : Trigger := ⟨"t", .customEvent, .ofInt 1, none⟩
  { startMillis := some 0
    constraints := [⟨"c", .ofMillis 1000, 4⟩]
    schedules := [⟨"a", none, 0, ⟨none, none⟩, [trigger], [], ["c", "c"], .idle⟩,
      ⟨"b", none, 0, ⟨none, none⟩, [trigger], [], ["c", "missing"], .idle⟩,
      ⟨"d", none, 0, ⟨none, none⟩, [], [trigger], ["c"], .triggered⟩]
    steps := [0, 10, 995].map fun millis => ⟨millis, .occurred .customEvent none 0⟩ }

/-- The constraint has been used shortly before, and a constraint that is not defined any more. -/
def usedBefore : Tables where
  progress := .empty
  constraints := .ofList [("c", ⟨1000, 4⟩), ("gone", ⟨1000, 1⟩)]
  occurrences := [⟨"c", -500⟩, ⟨"gone", -500⟩, ⟨"c", -10⟩]

theorem isReadable_usedBefore : usedBefore.IsReadable := by
  constructor
  · intro id row hrow
    rw [usedBefore, Table.ofList, Table.get?_foldl_insert] at hrow
    by_cases hc : "c" = id
    · subst hc
      cases hrow
      exact ⟨_, rfl⟩
    · by_cases hgone : "gone" = id
      · subst hgone
        cases hrow
        exact ⟨_, rfl⟩
      · simp [hc, hgone] at hrow
  · have hall : ∀ row ∈ usedBefore.occurrences, (Instant.ofMillis? row.millis).isSome = true := by
      decide +kernel
    exact fun id row hrow _ => hall row hrow

/-- The first execution has room at once, is turned down ten milliseconds later, and has room again
when the old occurrences are out of range.  The other one never has. -/
theorem run_reports_contended :
    ∃ ds l s, run .standard contended (.ofTables usedBefore) .epoch = (.ok ds, l, s) ∧
      ds.map (·.accepted) = [true, false, true, false, false, true, true, false, true] ∧
      s.tables.occurrences =
        [⟨"c", -500⟩, ⟨"c", -10⟩, ⟨"c", 0⟩, ⟨"c", 0⟩, ⟨"c", 1005⟩, ⟨"c", 1005⟩] := by
  have hconfig : Settings.standard.retry.queueConfig = .ok .standard := rfl
  have hreadable : (Store.ofTables usedBefore).tables.IsReadable := by
    rw [Store.tables_ofTables]
    exact isReadable_usedBefore
  have hcounts : ∀ c ∈ contended.constraints, c.count ≤ 0xffffffff := by decide
  have hids : (contended.schedules.map (·.id)).Nodup := by decide
  have hforward : ∀ step ∈ contended.steps, 0 ≤ step.advanceMillis := by decide
  obtain ⟨l, s₁, ds, l', s', hset, -, hrun, -, -, -, hrecorded⟩ :=
    run_reports hconfig (Store.isReliable_ofTables usedBefore) hreadable hcounts hids
      (rfl : contended.startMillis = some 0) hforward (by decide +kernel) .epoch
  refine ⟨ds, l', s', hrun, ?_, ?_⟩
  · have haccepted : (run .standard contended (.ofTables usedBefore) .epoch).1.map
        (fun ds => ds.map (·.accepted)) =
          .ok [true, false, true, false, false, true, true, false, true] := by decide +kernel
    rw [hrun] at haccepted
    exact Except.ok.inj haccepted
  · have hkept : (Limiter.empty.setConstraints (.ofTables usedBefore)
        contended.constraints).2.2.tables.occurrences = [⟨"c", -500⟩, ⟨"c", -10⟩] := by
      decide +kernel
    have hrun' : (run .standard contended (.ofTables usedBefore) .epoch).1.map
        (fun ds => (recordedBy contended.schedules ds).map Tables.rowOfOccurrence) =
          .ok [⟨"c", 0⟩, ⟨"c", 0⟩, ⟨"c", 1005⟩, ⟨"c", 1005⟩] := by decide +kernel
    rw [hset] at hkept
    rw [hrun] at hrun'
    have hnew : (recordedBy contended.schedules ds).map Tables.rowOfOccurrence =
        [⟨"c", 0⟩, ⟨"c", 0⟩, ⟨"c", 1005⟩, ⟨"c", 1005⟩] := Except.ok.inj hrun'
    rw [hrecorded, hkept, hnew]
    rfl

end Simulation
end Automation
