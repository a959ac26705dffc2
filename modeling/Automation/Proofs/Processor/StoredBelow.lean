import Automation.Proofs.Processor.Below
import Automation.Proofs.Processor.WriteThrough

/-!
# What is stored stays below the goal

`Below` is about memory, and this file is about the rows: the count in the row of a trigger is zero
or below the goal of the trigger's definition, with one exception (`Turn.stored_progress_below`).

## The exception

Where memory is reset the reset is written: when a trigger fires, and when its goal is lowered to
what it has or below.  A cancellation trigger that begins to listen is reset too, and that is not
written.  The row keeps what was counted before, and when the goal is lowered later, memory has
nothing that would have to be reset.  Then the row is past the goal (`Turn.row_outlives_its_goal`).

A row cannot get there in another way.  So the invariant says of each trigger that its row has the
count that the trigger has, or that it is left over: the trigger cancels, it has counted nothing
since, and the row is below one of the goals that the trigger was defined with
(`Prepared.IsStoredBelow`, where `asked` holds of these goals).

## Steps

An event, a state that is entered and a definition each keep that for one trigger.  What is deleted
in between does not matter, since nothing is said of a trigger without a row.  For this reason
schedules may be restored at any time here.
-/

namespace Automation

/-- The stored count is zero or below a goal. -/
def ProgressRow.IsBelow (row : ProgressRow) (goal : Binary64) : Prop :=
  row.count.isZero = true ∨ row.count.lt goal = true

instance (row : ProgressRow) (goal : Binary64) : Decidable (row.IsBelow goal) :=
  inferInstanceAs (Decidable (_ ∨ _))

/-! ## One trigger -/

namespace Prepared

variable {asked : ProgressKey → Binary64 → Prop} {s s' : Store} {k : ProgressKey} {t : Prepared}

/-- A row with the count of a trigger is below the goal that the trigger is below. -/
theorem IsBelow.row (h : t.IsBelow) {row : ProgressRow}
    (hrow : row.count = t.progress.count.dropZeroSign) : row.IsBelow t.trigger.goal := by
  rw [ProgressRow.IsBelow, hrow, Binary64.isZero_dropZeroSign, Binary64.lt_dropZeroSign]
  exact exceedsGoal_eq_false_iff.mp h.settled

/-- The row of a trigger has its count, or it is what a cancellation trigger that has begun anew had
before, below one of the goals that were asked of it. -/
structure IsStoredBelow (asked : ProgressKey → Binary64 → Prop) (s : Store) (k : ProgressKey)
    (t : Prepared) : Prop where
  goal : asked k t.trigger.goal
  below : t.IsBelow
  row : ∀ row, s.progressRow k = some row → row.count = t.progress.count.dropZeroSign ∨
    t.kind = .delayCancellation ∧ t.progress.count = 0 ∧ ∃ goal, asked k goal ∧ row.IsBelow goal

/-- A row may stay or go. -/
theorem IsStoredBelow.of_row (h : t.IsStoredBelow asked s k)
    (hrow : ∀ row, s'.progressRow k = some row → s.progressRow k = some row) :
    t.IsStoredBelow asked s' k :=
  ⟨h.goal, h.below, fun row hrow' => h.row row (hrow row hrow')⟩

/-- A trigger that begins anew leaves a row that is below the goal it has then. -/
theorem IsStoredBelow.enter (h : t.IsStoredBelow asked s k) (state : ScheduleState) :
    (Processor.enter state t).IsStoredBelow asked s k := by
  refine ⟨by rw [Processor.enter_trigger]; exact h.goal, h.below.enter state, fun row hrow => ?_⟩
  rw [Processor.enter_kind]
  rcases Processor.enter_progress_cases state t with hsame | ⟨hkind, hzero⟩
  · rw [hsame]
    exact h.row row hrow
  · refine Or.inr ⟨hkind, hzero, ?_⟩
    rcases h.row row hrow with hheld | ⟨-, -, hleft⟩
    · exact ⟨_, h.goal, h.below.row hheld⟩
    · exact hleft

end Prepared

namespace Processor

variable {asked : ProgressKey → Binary64 → Prop} {p p' : Processor} {s s' : Store}

/-- Every trigger that is prepared is stored below one of its goals. -/
structure StoredBelow (asked : ProgressKey → Binary64 → Prop) (p : Processor) (s : Store) :
    Prop where
  readable : s.tables.HasReadableProgress
  each : ∀ id, ∀ t ∈ p.triggersOf id, t.IsStoredBelow asked s ⟨id, t.trigger.id⟩

theorem StoredBelow.of_rows (h : StoredBelow asked p s) (hreadable : s'.tables.HasReadableProgress)
    (htriggers : ∀ id, ∀ t ∈ p'.triggersOf id, t ∈ p.triggersOf id)
    (hrows : ∀ k row, s'.progressRow k = some row → s.progressRow k = some row) :
    StoredBelow asked p' s' :=
  ⟨hreadable, fun id t ht => (h.each id t (htriggers id t ht)).of_row (hrows _)⟩

/-! ## One operation -/

theorem StoredBelow.settle (h : StoredBelow asked p s) (hs : s.Allows .writeProgress)
    (hp : p.IsProper) (hp' : p'.IsProper) {event : Event} {now : Instant}
    {os : List (Int × Outcome)} (hnumbers : ∀ o ∈ os, o.2.progress.count ≠ .nan)
    (hfed : FedFrom p p' event now os) : StoredBelow asked p' (persist s (os.map (·.2.progress))) := by
  refine ⟨readable_persist hs h.readable (List.forall_mem_map.mpr hnumbers), fun id t' ht' => ?_⟩
  have hcount := (hp'.mem_triggersOf ht').count
  obtain ⟨t, ht, ⟨rfl, hof⟩ | ⟨rfl, hof⟩⟩ := hfed id t' ht'
  · have hbefore := h.each id t ht
    have hgoal := hbefore.below.goal
    have hwritten := progressRow_persist_process hs hnumbers (hp.mem_triggersOf ht) hof
    refine ⟨?_, ⟨?_, ?_⟩, fun row hrow => ?_⟩
    · rw [Prepared.process_trigger]
      exact hbefore.goal
    · rw [Prepared.process_trigger]
      exact hgoal
    · exact Prepared.below_process hgoal hbefore.below.settled hcount
    · rw [Prepared.process_trigger, hwritten] at hrow
      cases hsnd : (t.process event now).2 with
      | none =>
        rw [hsnd] at hrow
        rw [Prepared.process_fst_of_snd_eq_none hsnd]
        exact hbefore.row row hrow
      | some o =>
        rw [hsnd] at hrow
        cases hrow
        rw [← (Prepared.process_snd hsnd).1]
        exact Or.inl rfl
  · exact (h.each id t' ht).of_row fun row hrow => progressRow_persist_of_ofTrigger hof ▸ hrow

theorem StoredBelow.processEvent (h : StoredBelow asked p s) (hs : s.IsReliable)
    (hp : p.IsProper) (hdistinct : p.IsDistinct) {event : Event} {now : Instant}
    (hwrites : p.Writes s (.event event now)) :
    StoredBelow asked (p.processEvent s event now).processor
      (p.processEvent s event now).store := by
  have hp' := (isSound_processEvent hp hs hwrites).proper
  rcases processEvent_cases hp hdistinct hwrites with hevent | ⟨p', os, hevent, hfed, hnumbers⟩
  · rw [hevent]
    cases event <;> exact ⟨h.readable, h.each⟩
  · rw [hevent] at hp' ⊢
    exact h.settle (hs _) hp hp' hnumbers hfed

theorem StoredBelow.entering (h : StoredBelow asked p s) (scheduleId : String)
    (state : ScheduleState) : StoredBelow asked (p.entering scheduleId state) s := by
  refine ⟨h.readable, fun id t' ht' => ?_⟩
  rw [triggersOf_entering] at ht'
  split at ht'
  · obtain ⟨t, ht, rfl⟩ := List.mem_map.mp ht'
    rw [enter_trigger]
    exact (h.each id t ht).enter state
  · exact h.each id t' ht'

theorem StoredBelow.applyState (h : StoredBelow asked p s) (hs : s.IsReliable) (hp : p.IsProper)
    (hdistinct : p.IsDistinct) (now : Instant) (scheduleId : String) (state : ScheduleState) :
    StoredBelow asked (p.applyState s now scheduleId state).processor
      (p.applyState s now scheduleId state).store := by
  have hp' := (isSound_applyState hp hs now scheduleId state).proper
  have hentering := h.entering scheduleId state
  rcases applyState_cases hp hdistinct s now scheduleId state with
    happly | ⟨p', event, os, happly, hfed, hnumbers⟩
  · rw [happly]
    exact hentering
  · rw [happly] at hp' ⊢
    exact hentering.settle (hs _) (hp.entering scheduleId state) hp' hnumbers hfed

/-! ## Defining schedules -/

/-- A schedule whose triggers have distinct ids, and goals that are numbers and among those that are
asked of them. -/
structure Asks (asked : ProgressKey → Binary64 → Prop) (schedule : Schedule) : Prop where
  distinct : (schedule.definitions.map (·.1.id)).Nodup
  numbers : ∀ d ∈ schedule.definitions, d.1.goal ≠ .nan
  goals : ∀ d ∈ schedule.definitions, asked ⟨schedule.id, d.1.id⟩ d.1.goal

section Defining

variable {schedule : Schedule} {d : Trigger × Execution}

/-- A successor that is settled is written, and one that is not has what is stored or takes over
what a trigger of its id and kind has. -/
theorem isStoredBelow_successor (h : StoredBelow asked p s) (hs : s.IsReliable) (hp : p.IsProper)
    (hasks : Asks asked schedule) (hd : d ∈ schedule.definitions) :
    (successor p s schedule d).resetIfReached.IsStoredBelow asked (p.syncSchedule s schedule).2
      ⟨schedule.id, d.1.id⟩ := by
  have hfor : ∀ t ∈ p.triggersOf schedule.id, t.IsFor schedule.id := fun _ => hp.mem_triggersOf
  refine ⟨?_, Prepared.isBelow_resetIfReached ?_, fun row hrow => ?_⟩
  · rw [Prepared.resetIfReached_trigger, successor_trigger]
    exact hasks.goals d hd
  · rw [successor_trigger]
    exact hasks.numbers d hd
  · cases hexceeds : (successor p s schedule d).exceedsGoal with
    | true =>
      rw [progressRow_syncSchedule_of_exceeds hs hasks.distinct hfor hd hexceeds] at hrow
      cases hrow
      exact Or.inl rfl
    | false =>
      have hkept : (successor p s schedule d).resetIfReached = successor p s schedule d := by
        rw [Prepared.resetIfReached, hexceeds, if_neg Bool.false_ne_true]
      rw [progressRow_syncSchedule_of_below hs hasks.distinct hfor hd hexceeds] at hrow
      rw [hkept, successor_kind]
      rcases successor_progress_cases p s schedule d with ⟨t, ht, hid, hkind, hprogress⟩ | hprogress
      · rw [hprogress, ← hkind]
        rw [← hid] at hrow ⊢
        exact (h.each schedule.id t ht).row row hrow
      · left
        rw [hprogress, h.readable.zeros.resumed, h.readable.count_resumed hrow]

theorem StoredBelow.syncSchedule (h : StoredBelow asked p s) (hs : s.IsReliable) (hp : p.IsProper)
    (hasks : Asks asked schedule) :
    StoredBelow asked (p.syncSchedule s schedule).1 (p.syncSchedule s schedule).2 := by
  have hfor : ∀ t ∈ p.triggersOf schedule.id, t.IsFor schedule.id := fun _ => hp.mem_triggersOf
  refine ⟨readable_syncSchedule hs hasks.distinct h.readable, fun id t ht => ?_⟩
  rw [triggersOf_syncSchedule_of_distinct (hs _) hasks.distinct] at ht
  split at ht
  · next hid =>
    subst hid
    obtain ⟨d, hd, rfl⟩ := List.mem_map.mp ht
    rw [Prepared.resetIfReached_trigger, successor_trigger]
    exact isStoredBelow_successor h hs hp hasks hd
  · next hid =>
    have hsame := progressRow_syncSchedule_of_ne hs hasks.distinct hfor (k := ⟨id, t.trigger.id⟩) hid
    exact (h.each id t ht).of_row fun row hrow => hsame ▸ hrow

end Defining

/-! ## Requests -/

variable {defs : Table String Schedule} {t : Turn}

theorem StoredBelow.registerOne (h : StoredBelow asked t.processor t.store) (ht : Orderly defs t)
    (now : Instant) {schedule : Schedule} (hasks : Asks asked schedule) :
    StoredBelow asked (registerOne now t schedule).processor (registerOne now t schedule).store := by
  have hsynced := ht.syncSchedule hasks.distinct
  exact (h.syncSchedule ht.sound.reliable ht.sound.proper hasks).applyState hsynced.sound.reliable
    hsynced.sound.proper hsynced.isDistinct now schedule.id schedule.state

theorem StoredBelow.foldl_registerOne (h : StoredBelow asked t.processor t.store)
    (ht : Orderly defs t) (now : Instant) {schedules : List Schedule}
    (hasks : ∀ schedule ∈ schedules, Asks asked schedule) :
    StoredBelow asked (schedules.foldl (Processor.registerOne now) t).processor
      (schedules.foldl (Processor.registerOne now) t).store := by
  induction schedules generalizing defs t with
  | nil => exact h
  | cons schedule rest ih =>
    rw [List.forall_mem_cons] at hasks
    exact ih (h.registerOne ht now hasks.1) (ht.registerOne now hasks.1.distinct) hasks.2

theorem StoredBelow.cancel (h : StoredBelow asked p s) (hprepared : p'.prepared = p.prepared)
    (scheduleIds : List String) :
    StoredBelow asked (p'.cancel s scheduleIds).processor (p'.cancel s scheduleIds).store := by
  refine h.of_rows (Store.readable_command h.readable _ _ _) (fun id t ht => ?_)
    fun _ _ => Store.progressRow_of_command
  have ht' : t ∈ ((scheduleIds.foldl forget p').prepared.get? id).getD [] := ht
  rw [get?_foldl_forget, hprepared] at ht'
  split at ht'
  · cases ht'
  · exact ht'

/-- Every request keeps what is stored below the goals. -/
theorem StoredBelow.serve (h : StoredBelow asked t.processor t.store) (ht : Orderly defs t)
    {r : Request} (hwrites : t.processor.Writes t.store r)
    (hasks : ∀ schedule ∈ r.schedules, Asks asked schedule) :
    StoredBelow asked (t.serve r).processor (t.serve r).store := by
  have hupdated : ∀ schedules now, (∀ schedule ∈ schedules, Asks asked schedule) →
      StoredBelow asked (t.processor.updateSchedules t.store now schedules).processor
        (t.processor.updateSchedules t.store now schedules).store := fun schedules now hasks =>
    StoredBelow.foldl_registerOne (t := ⟨t.processor, t.store, []⟩) h
      ⟨⟨ht.sound.reliable, ht.sound.proper⟩, ht.knows, ht.distinct⟩ now fun schedule hschedule =>
        hasks schedule ((perm_sortBy _ _).mem_iff.mp hschedule)
  cases r with
  | event event now =>
    exact h.processEvent ht.sound.reliable ht.sound.proper ht.isDistinct hwrites
  | pause paused => exact ⟨h.readable, h.each⟩
  | update schedules now => exact hupdated schedules now hasks
  | restore schedules now =>
    have hbefore := hupdated schedules now hasks
    exact hbefore.of_rows (Store.readable_command hbefore.readable _ _ _) (fun _ _ hu => hu)
      fun _ _ => Store.progressRow_of_command
  | enter scheduleId state now =>
    exact h.applyState ht.sound.reliable ht.sound.proper ht.isDistinct now scheduleId state
  | cancel scheduleIds => exact h.cancel rfl scheduleIds
  | cancelGroup group =>
    show StoredBelow asked (t.processor.cancelGroup t.store group).processor
      (t.processor.cancelGroup t.store group).store
    rcases cancelGroup_cases t.processor t.store group with hnone | ⟨p', ids, hprepared, hcancel⟩
    · rw [hnone]
      exact h
    · rw [hcancel]
      exact h.cancel hprepared ids
  | restart => exact ⟨h.readable, fun _ _ hu => absurd hu List.not_mem_nil⟩

/-- A trigger is defined with a goal in a run. -/
def HasGoal (rs : List Request) (k : ProgressKey) (goal : Binary64) : Prop :=
  ∃ r ∈ rs, ∃ schedule ∈ r.schedules, schedule.id = k.scheduleId ∧
    ∃ d ∈ schedule.definitions, d.1.id = k.triggerId ∧ d.1.goal = goal

end Processor

namespace Turn

open Processor

variable {s : Store}

/-- What is stored stays below the goals throughout a run. -/
theorem storedBelow_run {asked : ProgressKey → Binary64 → Prop} (hs : s.IsReliable)
    (hrows : s.tables.HasReadableProgress) {rs : List Request} (hwrites : (start s).Writes rs)
    (hasks : ∀ r ∈ rs, ∀ schedule ∈ r.schedules, Asks asked schedule) :
    StoredBelow asked ((start s).run rs).processor ((start s).run rs).store := by
  induction rs using List.reverseRecOn with
  | nil => exact ⟨hrows, fun _ _ hu => absurd hu List.not_mem_nil⟩
  | append_singleton rs r ih =>
    obtain ⟨hbefore, hlast⟩ := writes_append.mp hwrites
    rw [List.forall_mem_append] at hasks
    have horderly := orderly_run hs hbefore fun r hr schedule hschedule =>
      (hasks.1 r hr schedule hschedule).distinct
    rw [run_append, run_cons]
    exact (ih hbefore hasks.1).serve horderly hlast.1 (hasks.2 r (List.mem_singleton_self r))

/-- **What is stored stays below the goal.**  After any run over a store that refuses nothing, the
row of a trigger that is prepared has a count that is zero or below the goal of the trigger's current
definition.  The one exception is a cancellation trigger that has counted nothing since it began to
listen anew, and whose goal is lower now than it was before. -/
theorem stored_progress_below (hs : s.IsReliable) (hrows : s.tables.HasReadableProgress)
    {rs : List Request} (hwrites : (start s).Writes rs)
    (hdistinct : ∀ r ∈ rs, ∀ schedule ∈ r.schedules, (schedule.definitions.map (·.1.id)).Nodup)
    (hnumbers : ∀ r ∈ rs, ∀ schedule ∈ r.schedules, ∀ d ∈ schedule.definitions, d.1.goal ≠ .nan)
    (id : String) (u : Prepared) (hu : u ∈ ((start s).run rs).processor.triggersOf id) :
    (∃ schedule, (defined rs).get? id = some schedule ∧
      (u.trigger, u.kind) ∈ schedule.definitions) ∧
      ∀ row, ((start s).run rs).store.progressRow ⟨id, u.trigger.id⟩ = some row →
        row.IsBelow u.trigger.goal ∨
          u.kind = .delayCancellation ∧ u.progress.count = 0 ∧
            ∃ goal, HasGoal rs ⟨id, u.trigger.id⟩ goal ∧
              u.trigger.goal.lt goal = true ∧ row.count.lt goal = true := by
  refine ⟨(knows_run s rs).exists_definition hu, fun row hrow => ?_⟩
  have hasks : ∀ r ∈ rs, ∀ schedule ∈ r.schedules, Asks (HasGoal rs) schedule :=
    fun r hr schedule hschedule => ⟨hdistinct r hr schedule hschedule,
      hnumbers r hr schedule hschedule,
      fun d hd => ⟨r, hr, schedule, hschedule, rfl, d, hd, rfl, rfl⟩⟩
  have heach := (storedBelow_run hs hrows hwrites hasks).each id u hu
  by_cases hbelow : row.IsBelow u.trigger.goal
  · exact Or.inl hbelow
  · obtain ⟨hzero, hpast⟩ := not_or.mp hbelow
    rcases heach.row row hrow with hheld | ⟨hkind, hcount, goal, hgoal, hbefore⟩
    · exact absurd (heach.below.row hheld) hbelow
    · have hlt := hbefore.resolve_left hzero
      exact Or.inr ⟨hkind, hcount, goal, hgoal, Binary64.lt_of_not_lt_of_lt heach.below.goal
        (Bool.eq_false_iff.mpr hpast) hlt, hlt⟩

/-- A schedule with a trigger of either kind, both counting custom events by value. -/
def guardedSchedule (state : ScheduleState) (goal : Int) : Schedule :=
  ⟨"s", none, 0, ⟨none, none⟩, [⟨"a", .customEventValue, .ofInt goal, none⟩],
    [⟨"c", .customEventValue, .ofInt goal, none⟩], [], state⟩

/-- The cancellation trigger counts, then the other, then the first begins anew and the goal of both
is lowered below what they have counted. -/
def reenteringRequests : List Request :=
  [.update [guardedSchedule .triggered 5] .epoch,
    .event (.occurred .customEventValue none (.ofInt 3)) .epoch, .enter "s" .idle .epoch,
    .event (.occurred .customEventValue none (.ofInt 4)) .epoch, .enter "s" .triggered .epoch,
    .update [guardedSchedule .triggered 2] .epoch]

/-- The row of the cancellation trigger is left from the time when more was asked of it. -/
theorem stored_progress_below_reentering :
    ∃ goal, HasGoal reenteringRequests ⟨"s", "c"⟩ goal ∧
      (Binary64.ofInt 2).lt goal = true ∧ (Binary64.ofInt 3).lt goal = true := by
  have hwrites : (start (.ofTables .empty)).Writes reenteringRequests :=
    ⟨trivial, Or.inr (by decide +kernel), trivial, Or.inr (by decide +kernel), trivial, trivial,
      trivial⟩
  have hdistinct : ∀ r ∈ reenteringRequests, ∀ schedule ∈ r.schedules,
      (schedule.definitions.map (·.1.id)).Nodup := by
    simp [reenteringRequests, Request.schedules, guardedSchedule, Schedule.definitions]
  have hnumbers : ∀ r ∈ reenteringRequests, ∀ schedule ∈ r.schedules,
      ∀ d ∈ schedule.definitions, d.1.goal ≠ .nan := by
    simp only [reenteringRequests, List.forall_mem_cons, List.not_mem_nil, false_implies,
      implies_true, and_true, Request.schedules]
    decide +kernel
  have hstored : ∃ row ∈ ((start (.ofTables .empty)).run reenteringRequests).store.progressRow
      ⟨"s", "c"⟩, row.count = .ofInt 3 := by decide +kernel
  have hprepared : ∃ u ∈ ((start (.ofTables .empty)).run reenteringRequests).processor.triggersOf "s",
      u.trigger.id = "c" ∧ u.trigger.goal = .ofInt 2 := by decide +kernel
  obtain ⟨row, hrow, hcount⟩ := hstored
  obtain ⟨u, hu, hid, hgoal⟩ := hprepared
  obtain ⟨-, hbelow⟩ := stored_progress_below (Store.isReliable_ofTables .empty)
    Tables.readable_empty hwrites hdistinct hnumbers "s" u hu
  rw [hid, hgoal] at hbelow
  have hpast : ¬ row.IsBelow (.ofInt 2) := by
    rw [ProgressRow.IsBelow, hcount]
    decide +kernel
  obtain ⟨-, -, hleft⟩ := (hbelow row hrow).resolve_left hpast
  rw [hcount] at hleft
  exact hleft

/-- Past the goal: three are stored where two are asked, after a run in which the store takes
everything and the ids of the triggers are distinct. -/
theorem row_outlives_its_goal :
    (start (.ofTables .empty)).Writes reenteringRequests ∧
      (∀ r ∈ reenteringRequests, ∀ schedule ∈ r.schedules,
        (schedule.definitions.map (·.1.id)).Nodup) ∧
      ∃ u ∈ ((start (.ofTables .empty)).run reenteringRequests).processor.triggersOf "s",
        ∃ row ∈ ((start (.ofTables .empty)).run reenteringRequests).store.progressRow
          ⟨"s", u.trigger.id⟩, ¬ row.IsBelow u.trigger.goal := by
  refine ⟨⟨trivial, Or.inr ?_, trivial, Or.inr ?_, trivial, trivial, trivial⟩, ?_, ?_⟩
  · decide +kernel
  · decide +kernel
  · simp [reenteringRequests, Request.schedules, guardedSchedule, Schedule.definitions]
  · decide +kernel

end Turn
end Automation
