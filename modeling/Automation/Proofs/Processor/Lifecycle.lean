import Automation.Proofs.Processor.Emission

/-!
# Which triggers of a schedule listen

Whether a trigger listens is kept with the trigger.  It is changed in one place, when its schedule
enters a state, and survives events, pauses and the definition of other schedules.  A definition
makes new triggers that do not listen and takes over others that may; but the state of the definition
is applied right after it, and `Obeys` holds of all triggers of a schedule that has entered a state,
whatever they did before.  So which triggers listen is told by the state that was applied last.

`enacted` reads that state off the requests.  It is the table of definitions, with one difference:
when a schedule enters a state, that state is put into its definition.  `Enacts` says that the
processor has the triggers of the table and that they obey the states in it.

## Bursts

What is emitted on one event, or when one state is fed again, is a burst.  All of it comes from
triggers that listen at the same time, so within a burst a schedule emits one kind of result.  A
request that defines several schedules may make several bursts, also for one schedule.
-/

namespace Automation

/-- The triggers that the state of a schedule selects, with their kind. -/
def Schedule.selected (schedule : Schedule) : List (Trigger × Execution) :=
  match schedule.state with
  | .idle => schedule.triggers.map (·, .execution)
  | .triggered | .prepared => schedule.cancellationTriggers.map (·, .delayCancellation)
  | .paused | .finished => []

/-- What a state selects are the triggers of the kinds that it enables. -/
theorem Schedule.filter_definitions (schedule : Schedule) :
    (schedule.definitions.filter fun d => schedule.state.enables d.2) = schedule.selected := by
  rw [definitions, selected, List.filter_append, List.filter_map, List.filter_map]
  cases schedule.state <;> simp [ScheduleState.enables, Function.comp_def]

/-- No state enables two kinds of triggers. -/
theorem ScheduleState.eq_of_enables {state : ScheduleState} {kind kind' : Execution}
    (h : state.enables kind = true) (h' : state.enables kind' = true) : kind = kind' := by
  cases state <;> cases kind <;> cases kind' <;> simp_all [enables]

namespace Processor

/-! ## The states in force -/

/-- What is in force after a request: what is defined then, each schedule with the state that was
applied to it last. -/
def Request.enact (live : Table String Schedule) : Request → Table String Schedule
  | .enter scheduleId state _ =>
    live.modify scheduleId fun schedule => { schedule with state := state }
  | r => r.define live

/-- What is in force after a run from the start. -/
def enacted (rs : List Request) : Table String Schedule := rs.foldl Request.enact .empty

theorem enacted_append_singleton (rs : List Request) (r : Request) :
    enacted (rs ++ [r]) = r.enact (enacted rs) := by
  rw [enacted, List.foldl_append]
  rfl

/-! ## Triggers that obey a state -/

/-- Of these triggers listen those whose kind a state enables. -/
def Obeys (state : ScheduleState) (ts : List Prepared) : Prop :=
  ∀ t ∈ ts, t.active = state.enables t.kind

section Obeying

variable {state : ScheduleState} {ts : List Prepared}

theorem active_enter (state : ScheduleState) (t : Prepared) :
    (enter state t).active = state.enables t.kind := by
  rw [enter]
  split
  · next henabled =>
    rw [henabled, Prepared.activate]
    split
    · assumption
    · split <;> rfl
  · next hdisabled => exact (Bool.eq_false_iff.mpr hdisabled).symm

/-- Triggers obey the state that their schedule enters, whatever they did before. -/
theorem obeys_map_enter (state : ScheduleState) (ts : List Prepared) :
    Obeys state (ts.map (enter state)) := by
  intro t ht
  obtain ⟨before, -, rfl⟩ := List.mem_map.mp ht
  rw [active_enter, enter_kind]

theorem Obeys.feed (h : Obeys state ts) (event : Event) (now : Instant) :
    Obeys state (feed event now ts) := by
  intro t ht
  obtain ⟨before, hbefore, rfl⟩ := List.mem_map.mp ht
  obtain ⟨progress, hprocess, -⟩ := before.process_fst event now
  rw [hprocess]
  exact h before hbefore

/-- Those that listen are the ones whose kind is enabled. -/
theorem Obeys.roles_filter_active (h : Obeys state ts) :
    roles (ts.filter (·.active)) = (roles ts).filter fun d => state.enables d.2 := by
  rw [roles, roles, List.filter_map]
  exact congrArg (List.map _) (List.filter_congr h)

end Obeying

variable {p p' : Processor} {s : Store} {now : Instant} {scheduleId id : String}
  {state : ScheduleState}

theorem obeys_entering (p : Processor) (scheduleId : String) (state : ScheduleState) :
    Obeys state ((p.entering scheduleId state).triggersOf scheduleId) := by
  rw [triggersOf_entering, if_pos rfl]
  exact obeys_map_enter state _

/-- Entering a state concerns the triggers of one schedule, which obey it afterwards. -/
theorem obeys_applyState (p : Processor) (s : Store) (now : Instant) (scheduleId : String)
    (state : ScheduleState) :
    Obeys state ((p.applyState s now scheduleId state).processor.triggersOf scheduleId) := by
  have hentered := obeys_entering p scheduleId state
  cases hrefed : p.refed? scheduleId state with
  | none =>
    rw [applyState_of_refed?_eq_none hrefed]
    exact hentered
  | some fed =>
    obtain ⟨last, ts⟩ := fed
    obtain ⟨hts, happly⟩ := applyState_of_refed?_eq_some hrefed s now
    rw [triggersOf, hts] at hentered
    rw [happly]
    show Obeys state
      (((p.prepared.insert scheduleId (feed (.stateChanged last) now ts)).get? scheduleId).getD [])
    rw [Table.get?_insert, if_pos rfl]
    exact hentered.feed (.stateChanged last) now

theorem triggersOf_applyState_of_ne (h : id ≠ scheduleId) :
    (p.applyState s now scheduleId state).processor.triggersOf id = p.triggersOf id := by
  have hentered := triggersOf_entering p scheduleId state id
  rw [if_neg h] at hentered
  cases hrefed : p.refed? scheduleId state with
  | none =>
    rw [applyState_of_refed?_eq_none hrefed]
    exact hentered
  | some fed =>
    obtain ⟨last, ts⟩ := fed
    obtain ⟨-, happly⟩ := applyState_of_refed?_eq_some hrefed s now
    rw [happly]
    show ((p.prepared.insert scheduleId (feed (.stateChanged last) now ts)).get? id).getD [] = _
    rw [Table.get?_insert, if_neg h, triggersOf]

/-! ## A processor in which states are in force -/

/-- A processor has the triggers that a table defines, and they obey the states in it. -/
structure Enacts (live : Table String Schedule) (p : Processor) : Prop where
  knows : Knows live p
  obeys : ∀ id schedule, live.get? id = some schedule → Obeys schedule.state (p.triggersOf id)

variable {live live' : Table String Schedule} {t : Turn}

theorem enacts_empty : Enacts .empty .empty := ⟨knows_empty, fun _ _ h => by cases h⟩

/-- What is prepared is in force. -/
theorem Enacts.exists_live (h : Enacts live p) {ts : List Prepared}
    (hts : p.prepared.get? id = some ts) :
    ∃ schedule, live.get? id = some schedule ∧ roles ts = schedule.definitions ∧
      Obeys schedule.state ts := by
  have hknown := h.knows.prepared id
  rw [hts, Option.map_some] at hknown
  obtain ⟨schedule, hlive, hroles⟩ := Option.map_eq_some_iff.mp hknown.symm
  have hobeys := h.obeys id schedule hlive
  rw [triggersOf, hts] at hobeys
  exact ⟨schedule, hlive, hroles.symm, hobeys⟩

theorem Enacts.processEvent (h : Enacts live p) (s : Store) (event : Event) (now : Instant) :
    Enacts live (p.processEvent s event now).processor := by
  refine ⟨h.knows.processEvent s event now, fun id schedule hlive => ?_⟩
  have hobeys := h.obeys id schedule hlive
  by_cases hpaused : p.paused = true
  · rw [processEvent_of_paused hpaused]
    cases event <;> exact hobeys
  · rw [processEvent_of_not_paused hpaused]
    have hfed : (settle { p.remember event with
          prepared := p.prepared.map fun _ => feed event now } s
        (p.prepared.values.flatMap (outcomes event now))).processor.triggersOf id =
          feed event now (p.triggersOf id) := by
      show ((p.prepared.map fun _ => feed event now).get? id).getD [] = _
      rw [Table.get?_map, triggersOf]
      cases p.prepared.get? id <;> rfl
    rw [hfed]
    exact hobeys.feed event now

/-- A state is nothing that is known of a definition. -/
theorem Knows.modify_state (h : Knows live p) (scheduleId : String) (state : ScheduleState) :
    Knows (live.modify scheduleId fun schedule => { schedule with state := state }) p := by
  refine ⟨fun id => ?_, fun group id => ?_⟩
  · rw [h.prepared, Table.get?_modify]
    split
    · rw [Option.map_map]
      rfl
    · rfl
  · rw [h.groups, Table.get?_modify]
    split
    · simp only [Option.map_eq_some_iff]
      constructor
      · rintro ⟨schedule, hlive, hgroup⟩
        exact ⟨_, ⟨schedule, hlive, rfl⟩, hgroup⟩
      · rintro ⟨_, ⟨schedule, hlive, rfl⟩, hgroup⟩
        exact ⟨schedule, hlive, hgroup⟩
    · rfl

theorem Enacts.applyState (h : Enacts live p) (s : Store) (now : Instant) (scheduleId : String)
    (state : ScheduleState) :
    Enacts (live.modify scheduleId fun schedule => { schedule with state := state })
      (p.applyState s now scheduleId state).processor := by
  refine ⟨(h.knows.applyState s now scheduleId state).modify_state scheduleId state,
    fun id schedule hlive => ?_⟩
  rw [Table.get?_modify] at hlive
  split at hlive
  · next hid =>
    obtain ⟨before, -, rfl⟩ := Option.map_eq_some_iff.mp hlive
    exact hid ▸ obeys_applyState p s now scheduleId state
  · next hid =>
    rw [triggersOf_applyState_of_ne hid]
    exact h.obeys id schedule hlive

/-- A definition brings its state into force, for triggers that are taken over as for new ones. -/
theorem Enacts.registerOne (h : Enacts live t.processor) (now : Instant) (schedule : Schedule) :
    Enacts (note live schedule) (registerOne now t schedule).processor := by
  refine ⟨h.knows.registerOne now schedule, fun id other hlive => ?_⟩
  rw [note, Table.get?_insert] at hlive
  split at hlive
  · next hid =>
    cases hlive
    exact hid ▸ obeys_applyState _ _ now schedule.id schedule.state
  · next hid =>
    have hothers : (Processor.registerOne now t schedule).processor.triggersOf id =
        t.processor.triggersOf id :=
      (triggersOf_applyState_of_ne hid).trans
        ((triggersOf_syncSchedule t.processor t.store schedule id).trans (if_neg hid))
    rw [hothers]
    exact h.obeys id other hlive

theorem Enacts.foldl_registerOne (h : Enacts live t.processor) (now : Instant)
    (schedules : List Schedule) :
    Enacts (schedules.foldl note live)
      (schedules.foldl (Processor.registerOne now) t).processor := by
  induction schedules generalizing live t with
  | nil => exact h
  | cons schedule rest ih => exact ih (h.registerOne now schedule)

/-- Where only schedules go, the states of the others stay in force. -/
theorem Enacts.of_fewer (h : Enacts live p) (hknows : Knows live' p')
    (hlive : ∀ id schedule, live'.get? id = some schedule → live.get? id = some schedule)
    (hp : ∀ id, ∀ t ∈ p'.triggersOf id, t ∈ p.triggersOf id) : Enacts live' p' :=
  ⟨hknows, fun id schedule hget t ht => h.obeys id schedule (hlive id schedule hget) t (hp id t ht)⟩

/-- Every request leaves in force what the requests say, whatever the store refuses. -/
theorem Enacts.serve (h : Enacts live t.processor) (r : Request) :
    Enacts (r.enact live) (t.serve r).processor := by
  have hupdated : ∀ schedules now,
      Enacts ((sortBy Schedule.priority schedules).foldl note live)
        (t.processor.updateSchedules t.store now schedules).processor := fun schedules now =>
    Enacts.foldl_registerOne (t := ⟨t.processor, t.store, []⟩) h now _
  have hfewer : ∀ keep : String → Schedule → Bool, ∀ id schedule,
      (live.filter keep).get? id = some schedule → live.get? id = some schedule :=
    fun keep id schedule hget => ((Table.get?_filter_eq_some_iff _ _ _ _).mp hget).1
  cases r with
  | event event now => exact h.processEvent t.store event now
  | pause paused => exact ⟨⟨h.knows.prepared, h.knows.groups⟩, h.obeys⟩
  | update schedules now => exact hupdated schedules now
  | restore schedules now => exact hupdated schedules now
  | enter scheduleId state now => exact h.applyState t.store now scheduleId state
  | cancel scheduleIds =>
    exact h.of_fewer (h.knows.serve (.cancel scheduleIds)) (hfewer _) fun _ _ hu =>
      (mem_triggersOf_foldl_forget.mp hu).2
  | cancelGroup group =>
    refine h.of_fewer (h.knows.serve (.cancelGroup group)) (hfewer _) ?_
    show ∀ id, ∀ u ∈ (t.processor.cancelGroup t.store group).processor.triggersOf id, _
    rw [cancelGroup]
    split
    · exact fun _ _ hu => hu
    · exact fun _ _ hu => (mem_triggersOf_foldl_forget.mp hu).2
  | restart => exact enacts_empty

/-- After a run from the start the states in force are those of the requests. -/
theorem enacts_run (s : Store) (rs : List Request) :
    Enacts (enacted rs) ((Turn.start s).run rs).processor := by
  induction rs using List.reverseRecOn with
  | nil => exact enacts_empty
  | append_singleton rs r ih =>
    rw [enacted_append_singleton, Turn.run_append]
    exact ih.serve r

/-! ## Bursts -/

/-- What is emitted as schedules are defined, one burst for each. -/
def registrations (now : Instant) (t : Turn) : List Schedule → List (List Firing)
  | [] => []
  | schedule :: rest =>
    let (p, s) := t.processor.syncSchedule t.store schedule
    (p.applyState s now schedule.id schedule.state).fired ::
      registrations now (registerOne now t schedule) rest

/-- What a request emits: one burst for an event, and one for each state that may be fed again. -/
def bursts (p : Processor) (s : Store) : Request → List (List Firing)
  | .event event now => [(p.processEvent s event now).fired]
  | .enter scheduleId state now => [(p.applyState s now scheduleId state).fired]
  | .update schedules now | .restore schedules now =>
    registrations now ⟨p, s, []⟩ (sortBy Schedule.priority schedules)
  | .pause _ | .cancel _ | .cancelGroup _ | .restart => []

theorem flatten_registrations (now : Instant) (schedules : List Schedule) (t : Turn) :
    t.fired ++ (registrations now t schedules).flatten =
      (schedules.foldl (registerOne now) t).fired := by
  induction schedules generalizing t with
  | nil => exact List.append_nil _
  | cons schedule rest ih =>
    rw [List.foldl_cons, ← ih, registrations, List.flatten_cons, ← List.append_assoc]
    rfl

/-- Nothing is emitted outside of bursts. -/
theorem flatten_bursts (p : Processor) (s : Store) (r : Request) :
    (p.bursts s r).flatten = (p.respond s r).fired := by
  cases r with
  | event event now => exact List.append_nil _
  | enter scheduleId state now => exact List.append_nil _
  | update schedules now => exact flatten_registrations now _ ⟨p, s, []⟩
  | restore schedules now => exact flatten_registrations now _ ⟨p, s, []⟩
  | cancelGroup group =>
    show [] = (p.cancelGroup s group).fired
    rw [cancelGroup]
    split <;> rfl
  | pause paused => rfl
  | cancel scheduleIds => rfl
  | restart => rfl

/-- Only a trigger that listens emits. -/
theorem exists_active_of_mem_firings {event : Event} {os : List (Int × Outcome)} {f : Firing}
    {ts : List Prepared} (hos : ∀ o ∈ os, o ∈ outcomes event now ts) (hf : f ∈ firings os) :
    ∃ u ∈ ts, u.active = true ∧ ∃ reached, f = u.firing event reached now := by
  obtain ⟨o, ho, hfires⟩ := mem_firings.mp hf
  obtain ⟨u, hu, hprocess, -⟩ := mem_outcomes.mp (hos o ho)
  have hfiring := u.firing_process event now
  rw [hprocess, Option.bind_some, hfires] at hfiring
  obtain ⟨reached, hreached, rfl⟩ := Option.map_eq_some_iff.mp hfiring.symm
  exact ⟨u, hu, (Prepared.reached?_eq_some_iff.mp hreached).1.1, reached, rfl⟩

/-- What an event emits comes from the triggers that are prepared for its schedule. -/
theorem exists_active_of_mem_processEvent (howns : ∀ id, p.Owns id) {event : Event} {f : Firing}
    (hf : f ∈ (p.processEvent s event now).fired) :
    ∃ ts, p.prepared.get? f.scheduleId = some ts ∧
      ∃ u ∈ ts, u.active = true ∧ ∃ reached, f = u.firing event reached now := by
  by_cases hpaused : p.paused = true
  · rw [processEvent_of_paused hpaused] at hf
    cases hf
  · rw [processEvent_of_not_paused hpaused] at hf
    have hflat : ∀ o ∈ p.prepared.values.flatMap (outcomes event now),
        o ∈ outcomes event now p.prepared.values.flatten := fun o ho => by
      obtain ⟨ts, hts, ho⟩ := List.mem_flatMap.mp ho
      obtain ⟨u, hu, hprocess⟩ := mem_outcomes.mp ho
      exact mem_outcomes.mpr ⟨u, List.mem_flatten.mpr ⟨ts, hts, hu⟩, hprocess⟩
    obtain ⟨u, hu, hactive, reached, rfl⟩ := exists_active_of_mem_firings hflat hf
    obtain ⟨ts, hmem, hts⟩ := List.mem_flatten.mp hu
    obtain ⟨id, hget⟩ := (p.prepared.mem_values_iff ts).mp hmem
    have hown : u.scheduleId = id := by
      refine (howns id u ?_).schedule
      rw [triggersOf, hget]
      exact hts
    rw [← hown] at hget
    exact ⟨ts, hget, u, hts, hactive, reached, rfl⟩

/-- What is emitted as a schedule enters a state is of a kind that the state enables. -/
theorem enables_of_mem_applyState {f : Firing}
    (hf : f ∈ (p.applyState s now scheduleId state).fired) : state.enables f.kind = true := by
  cases hrefed : p.refed? scheduleId state with
  | none =>
    rw [applyState_of_refed?_eq_none hrefed] at hf
    cases hf
  | some fed =>
    obtain ⟨last, ts⟩ := fed
    obtain ⟨hts, happly⟩ := applyState_of_refed?_eq_some hrefed s now
    rw [happly] at hf
    obtain ⟨u, hu, hactive, reached, rfl⟩ := exists_active_of_mem_firings (fun _ ho => ho) hf
    have hobeys := obeys_entering p scheduleId state
    rw [triggersOf, hts] at hobeys
    exact (hobeys u hu).symm.trans hactive

/-- What an event emits for a schedule is of a kind that the state in force enables. -/
theorem Enacts.enables_of_mem_processEvent (h : Enacts live p) (howns : ∀ id, p.Owns id)
    {event : Event} {f : Firing} (hf : f ∈ (p.processEvent s event now).fired) :
    ∃ schedule, live.get? f.scheduleId = some schedule ∧
      schedule.state.enables f.kind = true := by
  obtain ⟨ts, hget, u, hu, hactive, reached, rfl⟩ := exists_active_of_mem_processEvent howns hf
  obtain ⟨schedule, hlive, -, hobeys⟩ := h.exists_live hget
  exact ⟨schedule, hlive, (hobeys u hu).symm.trans hactive⟩

theorem exists_state_of_mem_registrations {schedules : List Schedule} {burst : List Firing}
    (hburst : burst ∈ registrations now t schedules) :
    ∃ state : ScheduleState, ∀ f ∈ burst, state.enables f.kind = true := by
  induction schedules generalizing t with
  | nil => cases hburst
  | cons schedule rest ih =>
    rcases List.mem_cons.mp hburst with rfl | hlater
    · exact ⟨schedule.state, fun f hf => enables_of_mem_applyState hf⟩
    · exact ih hlater

/-- Whatever is asked of a processor in which states are in force, each burst has one kind of results
for a schedule. -/
theorem Enacts.kind_eq_of_mem_bursts (h : Enacts live p) (howns : ∀ id, p.Owns id) {r : Request}
    {burst : List Firing} (hburst : burst ∈ p.bursts s r) {f f' : Firing} (hf : f ∈ burst)
    (hf' : f' ∈ burst) (hid : f.scheduleId = f'.scheduleId) : f.kind = f'.kind := by
  have hregistered : ∀ {t : Turn} {now : Instant} {schedules : List Schedule},
      burst ∈ registrations now t schedules → f.kind = f'.kind := fun hburst => by
    obtain ⟨state, hstate⟩ := exists_state_of_mem_registrations hburst
    exact ScheduleState.eq_of_enables (hstate f hf) (hstate f' hf')
  cases r with
  | event event now =>
    cases List.mem_singleton.mp hburst
    obtain ⟨schedule, hlive, henabled⟩ := h.enables_of_mem_processEvent howns hf
    obtain ⟨schedule', hlive', henabled'⟩ := h.enables_of_mem_processEvent howns hf'
    rw [← hid, hlive] at hlive'
    cases hlive'
    exact ScheduleState.eq_of_enables henabled henabled'
  | enter scheduleId state now =>
    cases List.mem_singleton.mp hburst
    exact ScheduleState.eq_of_enables (enables_of_mem_applyState hf) (enables_of_mem_applyState hf')
  | update schedules now => exact hregistered hburst
  | restore schedules now => exact hregistered hburst
  | pause paused => cases hburst
  | cancel scheduleIds => cases hburst
  | cancelGroup group => cases hburst
  | restart => cases hburst

end Processor

namespace Turn

open Processor

/-- What a run emits, burst by burst. -/
def bursts (t : Turn) : List Request → List (List Firing)
  | [] => []
  | r :: rs => t.processor.bursts t.store r ++ (t.serve r).bursts rs

theorem flatten_bursts (t : Turn) (rs : List Request) :
    t.fired ++ (t.bursts rs).flatten = (t.run rs).fired := by
  induction rs generalizing t with
  | nil => exact List.append_nil _
  | cons r rest ih =>
    rw [run_cons, ← ih, bursts, List.flatten_append, Processor.flatten_bursts,
      ← List.append_assoc]
    rfl

theorem kind_eq_of_mem_bursts {t : Turn} {live defs : Table String Schedule}
    (h : Enacts live t.processor) (hbound : Bound defs t.processor) {rs : List Request}
    {burst : List Firing} (hburst : burst ∈ t.bursts rs) {f f' : Firing} (hf : f ∈ burst)
    (hf' : f' ∈ burst) (hid : f.scheduleId = f'.scheduleId) : f.kind = f'.kind := by
  induction rs generalizing t live defs with
  | nil => cases hburst
  | cons r rest ih =>
    rcases List.mem_append.mp hburst with hnow | hlater
    · exact h.kind_eq_of_mem_bursts hbound.owns hnow hf hf' hid
    · exact ih (h.serve r) (hbound.serve r) hlater

/-- **Only the triggers that its state selects listen.**  After any run, whatever its store refuses,
every prepared schedule is in force with the triggers of its definition, and of these listen exactly
the ones that the state applied to it last selects: execution triggers if it is idle, cancellation
triggers if it is triggered or prepared, and none otherwise.  So in everything that the run has
emitted, no event and no state that was fed again made one schedule emit two kinds of results. -/
theorem selected_run (s : Store) (rs : List Request) :
    (∀ id ts, ((start s).run rs).processor.prepared.get? id = some ts →
      ∃ schedule, (enacted rs).get? id = some schedule ∧ roles ts = schedule.definitions ∧
        roles (ts.filter (·.active)) = schedule.selected) ∧
      ((start s).bursts rs).flatten = ((start s).run rs).fired ∧
      ∀ burst ∈ (start s).bursts rs, ∀ f ∈ burst, ∀ f' ∈ burst,
        f.scheduleId = f'.scheduleId → f.kind = f'.kind := by
  refine ⟨fun id ts hts => ?_, flatten_bursts (start s) rs, fun burst hburst f hf f' hf' hid => ?_⟩
  · obtain ⟨schedule, hlive, hroles, hobeys⟩ := (enacts_run s rs).exists_live hts
    refine ⟨schedule, hlive, hroles, ?_⟩
    rw [hobeys.roles_filter_active, hroles, schedule.filter_definitions]
  · exact kind_eq_of_mem_bursts enacts_empty (bound_empty .empty) hburst hf hf' hid

/-- A schedule whose triggers fire on every custom event. -/
def phased (state : ScheduleState) (ids cancellationIds : List String) : Schedule :=
  let trigger := fun id => ⟨id, .customEvent, .ofInt 1, none⟩
  ⟨"s", none, 0, ⟨none, none⟩, ids.map trigger, cancellationIds.map trigger, [], state⟩

/-- A schedule goes through its states, and its triggers through both lists, one of them twice in
one list. -/
def phasedRequests : List Request :=
  [.update [phased .idle ["a"] ["b"]] .epoch, .event (.occurred .customEvent none 0) .epoch,
    .enter "s" .triggered .epoch, .event (.occurred .customEvent none 0) .epoch,
    .update [phased .prepared ["b"] ["a", "c", "a"]] .epoch,
    .event (.occurred .customEvent none 0) .epoch]

/-- The trigger that listened when it was an execution trigger listens as a cancellation trigger now,
and the other one does not listen any more. -/
theorem selected_run_phased :
    (((start (.ofTables .empty)).bursts phasedRequests).map fun burst => burst.map (·.kind)) =
        [[], [.execution], [], [.delayCancellation], [],
          [.delayCancellation, .delayCancellation, .delayCancellation]] ∧
      (∀ burst ∈ (start (.ofTables .empty)).bursts phasedRequests, ∀ f ∈ burst, ∀ f' ∈ burst,
        f.kind = f'.kind) ∧
      (roles ((((start (.ofTables .empty)).run phasedRequests).processor.triggersOf "s").filter
        (·.active))).map (·.1.id) = ["a", "c", "a"] := by
  obtain ⟨hactive, -, hbursts⟩ := selected_run (.ofTables .empty) phasedRequests
  have hids : ∀ burst ∈ (start (.ofTables .empty)).bursts phasedRequests, ∀ f ∈ burst,
      f.scheduleId = "s" := by decide +kernel
  refine ⟨by decide +kernel, fun burst hburst f hf f' hf' => ?_, ?_⟩
  · exact hbursts burst hburst f hf f' hf'
      ((hids burst hburst f hf).trans (hids burst hburst f' hf').symm)
  have hprepared : (((start (.ofTables .empty)).run phasedRequests).processor.prepared.get?
      "s").isSome = true := by decide +kernel
  obtain ⟨ts, hts⟩ := Option.isSome_iff_exists.mp hprepared
  obtain ⟨schedule, hlive, -, hselected⟩ := hactive "s" ts hts
  have hschedule : (enacted phasedRequests).get? "s" =
      some (phased .prepared ["b"] ["a", "c", "a"]) := by rfl
  rw [hschedule] at hlive
  cases hlive
  rw [triggersOf, hts, Option.getD_some, hselected]
  decide +kernel

end Turn
end Automation
