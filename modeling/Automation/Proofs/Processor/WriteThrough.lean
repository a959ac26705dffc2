import Automation.Proofs.Processor.Catalogue

/-!
# Progress is written through

Progress lives in memory and in the store, and each operation that changes it in one place changes
it in the other.  So a row is never behind the trigger it belongs to: at every moment an execution
trigger has the progress that the store would give back.  `WrittenThrough` is that invariant of a
processor and its store, and `Faithful` is all that a run keeps of it and beside it.

## What it does not say

* A cancellation trigger begins anew each time it starts to listen, and that is not written.
* Restoring deletes the rows of all schedules that are not restored, also of those that are
  prepared.  It is meant for the start, and at the start nothing is prepared.

## Coming back

A processor that starts again and restores what was defined prepares from the rows, so it has the
progress that the last one had: `progress_written_through`.  There is one exception, a trigger whose
goal is not a number.  It never reaches its goal, and it is never below it either, so what it has
counted is dropped when it is prepared, as if it had met the goal.  No definition that is read from
text has such a goal.
-/

namespace Automation

/-! ## Rows that can be read -/

namespace Tables

/-- Every row of progress can be read, and no count is a negative zero. -/
structure HasReadableProgress (t : Tables) : Prop where
  zeros : t.HasPlainZeros
  reads : ∀ k row, t.progress.get? k = some row → ∃ p, progressOfRow k row = .ok p

/-- The row of a record can be read under any key. -/
theorem exists_progressOfRow (k : ProgressKey) (p : Progress) :
    ∃ q, progressOfRow k (rowOfProgress p) = .ok q := by
  have hrow : rowOfProgress p =
      rowOfProgress ⟨k.scheduleId, k.triggerId, p.count.dropZeroSign, p.lastState⟩ := by
    rw [rowOfProgress, rowOfProgress, Binary64.dropZeroSign_dropZeroSign]
  rw [hrow]
  exact ⟨_, progressOfRow_rowOfProgress (p := ⟨k.scheduleId, k.triggerId, _, _⟩)
    (Binary64.dropZeroSign_dropZeroSign _)⟩

theorem HasReadableProgress.foldl_putProgress {t : Tables} (h : t.HasReadableProgress)
    (ps : List Progress) : (ps.foldl putProgress t).HasReadableProgress := by
  refine ⟨h.zeros.foldl_putProgress ps, fun k row hrow => ?_⟩
  rw [get?_foldl_putProgress, Option.or_eq_some_iff] at hrow
  rcases hrow with hrow | ⟨-, hrow⟩
  · obtain ⟨p, -, rfl⟩ := Option.map_eq_some_iff.mp hrow
    exact exists_progressOfRow k p
  · exact h.reads k row hrow

theorem readable_empty : empty.HasReadableProgress := by
  constructor
  · intro k row h
    cases h
  · intro k row h
    cases h

/-- A row from outside can be read later if it could be read before its sign of zero was dropped. -/
theorem HasReadableProgress.placeProgress {t : Tables} (h : t.HasReadableProgress)
    {key : ProgressKey} {row : ProgressRow} (hread : ∃ p, progressOfRow key row = .ok p) :
    (t.placeProgress key row).HasReadableProgress := by
  have hget : ∀ k placed, (t.placeProgress key row).progress.get? k = some placed →
      k = key ∧ placed = { row with count := row.count.dropZeroSign } ∨
        t.progress.get? k = some placed := fun k placed hplaced => by
    rw [Tables.placeProgress, Table.get?_insert] at hplaced
    split at hplaced
    · next hk => exact Or.inl ⟨hk, (Option.some.inj hplaced).symm⟩
    · exact Or.inr hplaced
  refine ⟨fun k placed hplaced => ?_, fun k placed hplaced => ?_⟩
  · rcases hget k placed hplaced with ⟨-, rfl⟩ | hbefore
    · exact Binary64.dropZeroSign_dropZeroSign _
    · exact h.zeros k placed hbefore
  · rcases hget k placed hplaced with ⟨rfl, rfl⟩ | hbefore
    · rw [progressOfRow] at hread ⊢
      cases hstate : row.lastState with
      | none => exact ⟨_, rfl⟩
      | some text =>
        simp only [hstate] at hread ⊢
        split at hread
        · exact ⟨_, rfl⟩
        · obtain ⟨p, hp⟩ := hread
          cases hp
    · exact h.reads k placed hbefore

/-- Reading gives the progress that a trigger would begin with, or there is no row for it. -/
theorem HasReadableProgress.progress? {s : Store} (h : s.tables.HasReadableProgress)
    (k : ProgressKey) :
    s.tables.progress? k.scheduleId k.triggerId = .ok (some (s.resumed k)) ∨
      s.progressRow k = none ∧ s.resumed k = .fresh k.scheduleId k.triggerId := by
  cases hrow : s.progressRow k with
  | none => exact Or.inr ⟨rfl, by rw [Store.resumed, Store.recalled_eq_none hrow]; rfl⟩
  | some row =>
    obtain ⟨p, hp⟩ := h.reads k row hrow
    have hread : s.tables.progress? k.scheduleId k.triggerId = .ok (some p) := by
      rw [Store.progressRow] at hrow
      rw [Tables.progress?, hrow]
      simp only [hp, Except.map]
    refine Or.inl ?_
    rw [Store.resumed, Store.recalled, hread]
    rfl

theorem count_of_progressOfRow {k : ProgressKey} {row : ProgressRow} {p : Progress}
    (h : progressOfRow k row = .ok p) : p.count = row.count := by
  rw [progressOfRow] at h
  split at h
  · cases h
    rfl
  · split at h
    · cases h
      rfl
    · cases h

/-- What is given back has the count of the row. -/
theorem HasReadableProgress.count_resumed {s : Store} (h : s.tables.HasReadableProgress)
    {k : ProgressKey} {row : ProgressRow} (hrow : s.progressRow k = some row) :
    (s.resumed k).count = row.count := by
  rcases h.progress? k with hread | ⟨hnone, -⟩
  · rw [Store.progressRow] at hrow
    rw [Tables.progress?, hrow] at hread
    obtain ⟨p, hp⟩ := h.reads k row hrow
    simp only [hp, Except.map] at hread
    cases hread
    exact count_of_progressOfRow hp
  · rw [hrow] at hnone
    cases hnone

end Tables

namespace Store

variable {s : Store}

/-- Deleting rows leaves the others readable, whether it fails or not. -/
theorem readable_command (h : s.tables.HasReadableProgress) (op : StoreOperation) (changes : Bool)
    (keep : ProgressKey → Bool) :
    (s.command op changes fun t => .ok { t with
      progress := t.progress.filter fun k _ => keep k }).2.tables.HasReadableProgress := by
  rcases command_tables s op changes
    (fun t => .ok { t with progress := t.progress.filter fun k _ => keep k }) with hsame | hdeleted
  · rw [hsame]
    exact h
  · rw [← Except.ok.inj hdeleted]
    refine ⟨fun k row hrow => ?_, fun k row hrow => ?_⟩
    · exact h.zeros k row ((Table.get?_filter_eq_some_iff _ _ _ _).mp hrow).1
    · exact h.reads k row ((Table.get?_filter_eq_some_iff _ _ _ _).mp hrow).1

end Store

namespace Processor

theorem readable_persist {s : Store} (hs : s.Allows .writeProgress)
    (h : s.tables.HasReadableProgress) {ps : List Progress} (hps : ∀ p ∈ ps, p.count ≠ .nan) :
    (persist s ps).tables.HasReadableProgress := by
  rw [tables_persist hs hps]
  exact h.foldl_putProgress ps

/-! ## Memory and store agree -/

/-- Every execution trigger has the progress that the store would give back, and is below its goal
if the goal is a number. -/
structure WrittenThrough (p : Processor) (s : Store) : Prop where
  readable : s.tables.HasReadableProgress
  held : ∀ id, ∀ t ∈ p.triggersOf id, t.kind = .execution →
    t.progress = s.resumed ⟨id, t.trigger.id⟩
  below : ∀ id, ∀ t ∈ p.triggersOf id, t.kind = .execution → t.trigger.goal ≠ .nan →
    t.exceedsGoal = false

/-- The triggers of every schedule have distinct ids. -/
def IsDistinct (p : Processor) : Prop :=
  ∀ id, ((p.triggersOf id).map (·.trigger.id)).Nodup

variable {p p' : Processor} {s s' : Store}

/-- Only the rows of what is prepared matter. -/
theorem WrittenThrough.of_rows (h : WrittenThrough p s) (hreadable : s'.tables.HasReadableProgress)
    (hrows : ∀ id, ∀ t ∈ p'.triggersOf id,
      t ∈ p.triggersOf id ∧ s'.progressRow ⟨id, t.trigger.id⟩ = s.progressRow ⟨id, t.trigger.id⟩) :
    WrittenThrough p' s' := by
  refine ⟨hreadable, fun id t ht hkind => ?_, fun id t ht => h.below id t (hrows id t ht).1⟩
  obtain ⟨hbefore, hrow⟩ := hrows id t ht
  rw [Store.resumed_congr hrow]
  exact h.held id t hbefore hkind

/-! ## Feeding -/

/-- What feeding leaves: every trigger is one that was there before, and has either become what an
event makes of it, with its own outcome among these, or stayed, with none. -/
def FedFrom (p p' : Processor) (event : Event) (now : Instant) (os : List (Int × Outcome)) : Prop :=
  ∀ id, ∀ t' ∈ p'.triggersOf id, ∃ t ∈ p.triggersOf id,
    (t' = (t.process event now).1 ∧
      ofTrigger ⟨id, t.trigger.id⟩ os = outcomes event now [t]) ∨
    (t' = t ∧ ofTrigger ⟨id, t.trigger.id⟩ os = [])

/-- An event is remembered or fed to all triggers. -/
theorem processEvent_cases (hp : p.IsProper) (hdistinct : p.IsDistinct) {event : Event}
    {now : Instant} (hwrites : p.Writes s (.event event now)) :
    p.processEvent s event now = ⟨p.remember event, s, []⟩ ∨
      ∃ p' os, p.processEvent s event now = settle p' s os ∧ FedFrom p p' event now os ∧
        ∀ o ∈ os, o.2.progress.count ≠ .nan := by
  by_cases hpaused : p.paused = true
  · exact Or.inl (processEvent_of_paused hpaused s event now)
  · refine Or.inr ⟨_, _, processEvent_of_not_paused hpaused s event now, fun id t' ht' => ?_,
      hwrites.numbers hpaused⟩
    have hfed : t' ∈ feed event now (p.triggersOf id) := by
      have hmap : triggersOf { p.remember event with
          prepared := p.prepared.map fun _ => feed event now } id =
            feed event now (p.triggersOf id) := by
        rw [triggersOf, Table.get?_map, triggersOf]
        cases p.prepared.get? id <;> rfl
      exact hmap ▸ ht'
    obtain ⟨t, ht, rfl⟩ := List.mem_map.mp hfed
    refine ⟨t, ht, Or.inl ⟨rfl, ?_⟩⟩
    rw [ofTrigger_flatMap hp event now ⟨id, t.trigger.id⟩, filter_eq_singleton (hdistinct id) ht]

theorem IsDistinct.entering (h : p.IsDistinct) (scheduleId : String) (state : ScheduleState) :
    (p.entering scheduleId state).IsDistinct := by
  intro id
  rw [triggersOf_entering]
  split
  · rw [List.map_map]
    refine (List.map_congr_left fun t _ => ?_) ▸ h id
    exact congrArg Trigger.id (enter_trigger state t).symm
  · exact h id

/-- A schedule enters a state, and that may be all, or the remembered state is fed to its triggers
then. -/
theorem applyState_cases (hp : p.IsProper) (hdistinct : p.IsDistinct) (s : Store) (now : Instant)
    (scheduleId : String) (state : ScheduleState) :
    p.applyState s now scheduleId state = ⟨p.entering scheduleId state, s, []⟩ ∨
      ∃ p' event os, p.applyState s now scheduleId state = settle p' s os ∧
        FedFrom (p.entering scheduleId state) p' event now os ∧
          ∀ o ∈ os, o.2.progress.count ≠ .nan := by
  cases hrefed : p.refed? scheduleId state with
  | none => exact Or.inl (applyState_of_refed?_eq_none hrefed s now)
  | some fed =>
    obtain ⟨last, ts⟩ := fed
    obtain ⟨hts, happly⟩ := applyState_of_refed?_eq_some hrefed s now
    have hfor := hp.entering scheduleId state scheduleId ts hts
    have htriggers : (p.entering scheduleId state).triggersOf scheduleId = ts := by
      rw [triggersOf, hts]
      rfl
    refine Or.inr ⟨_, .stateChanged last, _, happly, fun id t' ht' => ?_,
      count_outcomes_stateChanged hfor last⟩
    rw [triggersOf, Table.get?_insert] at ht'
    split at ht'
    · next hid =>
      subst hid
      obtain ⟨t, ht, rfl⟩ := List.mem_map.mp ht'
      refine ⟨t, htriggers ▸ ht, Or.inl ⟨rfl, ?_⟩⟩
      rw [ofTrigger_outcomes hfor,
        filter_eq_singleton (htriggers ▸ hdistinct.entering id state id) ht]
    · next hid =>
      refine ⟨t', ?_, Or.inr ⟨rfl, ofTrigger_outcomes_of_ne hfor hid⟩⟩
      rw [triggersOf_entering, if_neg hid]
      exact ht'

/-- When outcomes are written, memory and store still agree, if that is what feeding left. -/
theorem WrittenThrough.settle (h : WrittenThrough p s) (hs : s.Allows .writeProgress)
    (hp : p.IsProper) (hp' : p'.IsProper) {event : Event} {now : Instant}
    {os : List (Int × Outcome)} (hnumbers : ∀ o ∈ os, o.2.progress.count ≠ .nan)
    (hfed : FedFrom p p' event now os) :
    WrittenThrough p' (persist s (os.map (·.2.progress))) := by
  have hkinds : ∀ t : Prepared, (t.process event now).1.kind = t.kind := fun t => by
    obtain ⟨progress, hprocess, -⟩ := t.process_fst event now
    rw [hprocess]
  refine ⟨readable_persist hs h.readable (List.forall_mem_map.mpr hnumbers), fun id t' ht' hkind => ?_,
    fun id t' ht' hkind hgoal => ?_⟩
  · obtain ⟨t, ht, ⟨rfl, hof⟩ | ⟨rfl, hof⟩⟩ := hfed id t' ht'
    · have hheld := h.held id t ht ((hkinds t).symm.trans hkind)
      have hzero : t.progress.count.dropZeroSign = t.progress.count := by
        rw [hheld]
        exact h.readable.zeros.resumed _
      rw [Prepared.process_trigger]
      exact (resumed_persist hs hnumbers (hp.mem_triggersOf ht) hheld hzero hof).symm
    · rw [h.held id t' ht hkind]
      exact (Store.resumed_congr (progressRow_persist_of_ofTrigger hof)).symm
  · have hcount := (hp'.mem_triggersOf ht').count
    obtain ⟨t, ht, ⟨rfl, -⟩ | ⟨rfl, -⟩⟩ := hfed id t' ht'
    · rw [Prepared.process_trigger] at hgoal
      exact Prepared.below_process hgoal
        (h.below id t ht ((hkinds t).symm.trans hkind) hgoal) hcount
    · exact h.below id t' ht hkind hgoal

theorem WrittenThrough.processEvent (h : WrittenThrough p s) (hs : s.IsReliable)
    (hp : p.IsProper) (hdistinct : p.IsDistinct) {event : Event} {now : Instant}
    (hwrites : p.Writes s (.event event now)) :
    WrittenThrough (p.processEvent s event now).processor (p.processEvent s event now).store := by
  have hp' := (isSound_processEvent hp hs hwrites).proper
  rcases processEvent_cases hp hdistinct hwrites with hevent | ⟨p', os, hevent, hfed, hnumbers⟩
  · rw [hevent]
    cases event <;> exact ⟨h.readable, h.held, h.below⟩
  · rw [hevent] at hp' ⊢
    exact h.settle (hs _) hp hp' hnumbers hfed

/-! ## States -/

theorem WrittenThrough.entering (h : WrittenThrough p s) (scheduleId : String)
    (state : ScheduleState) : WrittenThrough (p.entering scheduleId state) s := by
  have heach : ∀ id, ∀ t' ∈ (p.entering scheduleId state).triggersOf id, t'.kind = .execution →
      ∃ t ∈ p.triggersOf id, t.kind = .execution ∧ t'.trigger = t.trigger ∧
        t'.progress = t.progress := fun id t' ht' hkind => by
    rw [triggersOf_entering] at ht'
    split at ht'
    · obtain ⟨t, ht, rfl⟩ := List.mem_map.mp ht'
      rw [enter_kind] at hkind
      exact ⟨t, ht, hkind, enter_trigger state t, enter_progress state t hkind⟩
    · exact ⟨t', ht', hkind, rfl, rfl⟩
  refine ⟨h.readable, fun id t' ht' hkind => ?_, fun id t' ht' hkind hgoal => ?_⟩
  · obtain ⟨t, ht, htkind, htrigger, hprogress⟩ := heach id t' ht' hkind
    rw [htrigger, hprogress]
    exact h.held id t ht htkind
  · obtain ⟨t, ht, htkind, htrigger, hprogress⟩ := heach id t' ht' hkind
    rw [Prepared.exceedsGoal, htrigger, hprogress]
    exact h.below id t ht htkind (htrigger ▸ hgoal)

theorem WrittenThrough.applyState (h : WrittenThrough p s) (hs : s.IsReliable) (hp : p.IsProper)
    (hdistinct : p.IsDistinct) (now : Instant) (scheduleId : String) (state : ScheduleState) :
    WrittenThrough (p.applyState s now scheduleId state).processor
      (p.applyState s now scheduleId state).store := by
  have hp' := (isSound_applyState hp hs now scheduleId state).proper
  have hentering := h.entering scheduleId state
  rcases applyState_cases hp hdistinct s now scheduleId state with
    happly | ⟨p', event, os, happly, hfed, hnumbers⟩
  · rw [happly]
    exact hentering
  · rw [happly] at hp' ⊢
    exact hentering.settle (hs _) (hp.entering scheduleId state) hp' hnumbers hfed

/-! ## Defining schedules -/

section Defining

variable {schedule : Schedule}

theorem readable_syncSchedule (hs : s.IsReliable)
    (hdistinct : (schedule.definitions.map (·.1.id)).Nodup) (h : s.tables.HasReadableProgress) :
    (p.syncSchedule s schedule).2.tables.HasReadableProgress := by
  obtain ⟨hread, -, -, -⟩ := syncWork_of_distinct (hs _) hdistinct p
  have hpersisted : (persist (p.syncWork s schedule).store
      (p.syncWork s schedule).reset).tables.HasReadableProgress := by
    refine readable_persist ((hread.allows _).mpr (hs _)) (hread.tables ▸ h) fun q hq => ?_
    rw [count_dropped (hs _) hdistinct hq]
    exact fun hnan => by cases hnan
  show (if (p.syncWork s schedule).stale.isEmpty then _ else _ : Store).tables.HasReadableProgress
  split
  · exact hpersisted
  · exact Store.readable_command hpersisted _ _ _

/-- The triggers of a schedule that has been defined are the successors of its definitions. -/
theorem triggersOf_syncSchedule_of_distinct (hs : s.Allows .readProgress)
    (hdistinct : (schedule.definitions.map (·.1.id)).Nodup) (id : String) :
    (p.syncSchedule s schedule).1.triggersOf id =
      if id = schedule.id then
        schedule.definitions.map fun d => (successor p s schedule d).resetIfReached
      else p.triggersOf id := by
  obtain ⟨-, -, hprepared, -⟩ := syncWork_of_distinct hs hdistinct p
  rw [triggersOf_syncSchedule, hprepared]

theorem WrittenThrough.syncSchedule (h : WrittenThrough p s) (hs : s.IsReliable) (hp : p.IsProper)
    (hdistinct : (schedule.definitions.map (·.1.id)).Nodup) :
    WrittenThrough (p.syncSchedule s schedule).1 (p.syncSchedule s schedule).2 := by
  have hfor : ∀ t ∈ p.triggersOf schedule.id, t.IsFor schedule.id := fun _ => hp.mem_triggersOf
  refine ⟨readable_syncSchedule hs hdistinct h.readable, fun id t ht hkind => ?_,
    fun id t ht hkind hgoal => ?_⟩
  · rw [triggersOf_syncSchedule_of_distinct (hs _) hdistinct] at ht
    split at ht
    · next hid =>
      obtain ⟨d, hd, rfl⟩ := List.mem_map.mp ht
      rw [Prepared.resetIfReached_kind, successor_kind] at hkind
      rw [Prepared.resetIfReached_trigger, successor_trigger, hid]
      refine (resumed_syncSchedule hs hdistinct hfor hd (successor_progress fun t ht hd => ?_)).symm
      exact h.held schedule.id t ht (hd.trans hkind)
    · next hid =>
      rw [Store.resumed_congr (progressRow_syncSchedule_of_ne hs hdistinct hfor hid)]
      exact h.held id t ht hkind
  · rw [triggersOf_syncSchedule_of_distinct (hs _) hdistinct] at ht
    split at ht
    · obtain ⟨d, -, rfl⟩ := List.mem_map.mp ht
      exact exceedsGoal_resetIfReached _
    · exact h.below id t ht hkind hgoal

end Defining

/-! ## What a run keeps -/

variable {defs : Table String Schedule} {t : Turn}

/-- What is prepared has distinct ids if what is defined has. -/
theorem Knows.isDistinct (h : Knows defs p)
    (hdistinct : ∀ id schedule, defs.get? id = some schedule →
      (schedule.definitions.map (·.1.id)).Nodup) : p.IsDistinct := by
  intro id
  have hroles := congrArg (List.map (·.1.id)) (h.roles_triggersOf id)
  rw [roles, List.map_map] at hroles
  have hids : ((p.triggersOf id).map (·.trigger.id)) =
      (((defs.get? id).map Schedule.definitions).getD []).map (·.1.id) := hroles
  rw [hids]
  cases hschedule : defs.get? id with
  | none => exact List.nodup_nil
  | some schedule => exact hdistinct id schedule hschedule

theorem distinct_note (h : ∀ id schedule, defs.get? id = some schedule →
      (schedule.definitions.map (·.1.id)).Nodup) {schedule : Schedule}
    (hdistinct : (schedule.definitions.map (·.1.id)).Nodup) :
    ∀ id other, (note defs schedule).get? id = some other →
      (other.definitions.map (·.1.id)).Nodup := by
  intro id other hother
  rw [note, Table.get?_insert] at hother
  split at hother
  · cases hother
    exact hdistinct
  · exact h id other hother

/-- Nothing is refused, and the schedules of a list are what is prepared, their triggers with
distinct ids. -/
structure Orderly (defs : Table String Schedule) (t : Turn) : Prop where
  sound : t.IsSound
  knows : Knows defs t.processor
  distinct : ∀ id schedule, defs.get? id = some schedule →
    (schedule.definitions.map (·.1.id)).Nodup

theorem Orderly.isDistinct (h : Orderly defs t) : t.processor.IsDistinct :=
  h.knows.isDistinct h.distinct

theorem orderly_run {s : Store} (hs : s.IsReliable) {rs : List Request}
    (hwrites : (Turn.start s).Writes rs)
    (hdistinct : ∀ r ∈ rs, ∀ schedule ∈ r.schedules, (schedule.definitions.map (·.1.id)).Nodup) :
    Orderly (defined rs) ((Turn.start s).run rs) := by
  refine ⟨(Turn.IsSound.start hs).run hwrites, knows_run s rs, fun id schedule hschedule => ?_⟩
  obtain ⟨-, r, hr, hmem⟩ := exists_request_of_defined hschedule
  exact hdistinct r hr schedule hmem

theorem Orderly.syncSchedule (h : Orderly defs t) {schedule : Schedule}
    (hdistinct : (schedule.definitions.map (·.1.id)).Nodup) :
    Orderly (note defs schedule) ⟨(t.processor.syncSchedule t.store schedule).1,
      (t.processor.syncSchedule t.store schedule).2, t.fired⟩ := by
  obtain ⟨hreliable, hproper⟩ := isSound_syncSchedule h.sound schedule
  exact ⟨⟨hreliable, hproper⟩, h.knows.syncSchedule t.store schedule,
    distinct_note h.distinct hdistinct⟩

theorem Orderly.registerOne (h : Orderly defs t) (now : Instant) {schedule : Schedule}
    (hdistinct : (schedule.definitions.map (·.1.id)).Nodup) :
    Orderly (note defs schedule) (registerOne now t schedule) :=
  ⟨isSound_registerOne h.sound now schedule, h.knows.registerOne now schedule,
    distinct_note h.distinct hdistinct⟩

/-- Nothing is refused, the schedules of a list are what is prepared, their triggers have distinct
ids, and memory and store agree. -/
structure Faithful (defs : Table String Schedule) (t : Turn) : Prop where
  sound : t.IsSound
  knows : Knows defs t.processor
  distinct : ∀ id schedule, defs.get? id = some schedule →
    (schedule.definitions.map (·.1.id)).Nodup
  written : WrittenThrough t.processor t.store

theorem Faithful.orderly (h : Faithful defs t) : Orderly defs t := ⟨h.sound, h.knows, h.distinct⟩

theorem Faithful.isDistinct (h : Faithful defs t) : t.processor.IsDistinct := h.orderly.isDistinct

theorem faithful_start (hs : s.IsReliable) (hrows : s.tables.HasReadableProgress)
    (fired : List Firing) : Faithful .empty ⟨.empty, s, fired⟩ where
  sound := ⟨hs, fun id ts hts => by cases hts⟩
  knows := knows_empty
  distinct _ _ h := by cases h
  written := ⟨hrows, fun _ _ h => absurd h List.not_mem_nil, fun _ _ h => absurd h List.not_mem_nil⟩

theorem Faithful.registerOne (h : Faithful defs t) (now : Instant) {schedule : Schedule}
    (hdistinct : (schedule.definitions.map (·.1.id)).Nodup) :
    Faithful (note defs schedule) (registerOne now t schedule) := by
  have hsynced := h.orderly.syncSchedule hdistinct
  have hnext := h.orderly.registerOne now hdistinct
  have hwritten := h.written.syncSchedule h.sound.reliable h.sound.proper hdistinct
  exact ⟨hnext.sound, hnext.knows, hnext.distinct, hwritten.applyState hsynced.sound.reliable
    hsynced.sound.proper hsynced.isDistinct now schedule.id schedule.state⟩

theorem Faithful.foldl_registerOne (h : Faithful defs t) (now : Instant)
    {schedules : List Schedule}
    (hdistinct : ∀ schedule ∈ schedules, (schedule.definitions.map (·.1.id)).Nodup) :
    Faithful (schedules.foldl note defs) (schedules.foldl (Processor.registerOne now) t) := by
  induction schedules generalizing defs t with
  | nil => exact h
  | cons schedule rest ih =>
    rw [List.forall_mem_cons] at hdistinct
    exact ih (h.registerOne now hdistinct.1) hdistinct.2

/-- The triggers of a schedule that is not listed are none. -/
theorem Faithful.triggersOf_eq_nil (h : Faithful defs t) {id : String}
    (hid : defs.get? id = none) : t.processor.triggersOf id = [] := by
  have hroles := h.knows.roles_triggersOf id
  rw [hid] at hroles
  exact List.map_eq_nil_iff.mp hroles

theorem distinct_filter {keep : String → Schedule → Bool}
    (h : ∀ id schedule, defs.get? id = some schedule →
      (schedule.definitions.map (·.1.id)).Nodup) :
    ∀ id schedule, (defs.filter keep).get? id = some schedule →
      (schedule.definitions.map (·.1.id)).Nodup := fun id schedule hschedule =>
  h id schedule ((Table.get?_filter_eq_some_iff _ _ _ _).mp hschedule).1

/-- Cancelling schedules forgets their triggers and deletes their rows, and leaves the others. -/
theorem WrittenThrough.cancel (h : WrittenThrough p s) (hprepared : p'.prepared = p.prepared)
    (scheduleIds : List String) :
    WrittenThrough (p'.cancel s scheduleIds).processor (p'.cancel s scheduleIds).store := by
  refine h.of_rows (Store.readable_command h.readable _ _ _) fun id u hu => ?_
  have hu' : u ∈ ((scheduleIds.foldl forget p').prepared.get? id).getD [] := hu
  rw [get?_foldl_forget, hprepared] at hu'
  split at hu'
  · cases hu'
  · next hid => exact ⟨hu', Store.progressRow_deleteSchedules hid⟩

/-- Cancelling a group does nothing, or cancels schedules of a processor with the same triggers. -/
theorem cancelGroup_cases (p : Processor) (s : Store) (group : String) :
    p.cancelGroup s group = ⟨p, s, []⟩ ∨
      ∃ (p' : Processor) (scheduleIds : List String), p'.prepared = p.prepared ∧
        p.cancelGroup s group = p'.cancel s scheduleIds := by
  rw [Processor.cancelGroup]
  split
  · exact Or.inl rfl
  · next scheduleIds _ =>
    exact Or.inr ⟨{ p with groups := p.groups.erase group }, scheduleIds, rfl, rfl⟩

theorem WrittenThrough.cancelGroup (h : WrittenThrough p s) (group : String) :
    WrittenThrough (p.cancelGroup s group).processor (p.cancelGroup s group).store := by
  rcases cancelGroup_cases p s group with hnone | ⟨p', scheduleIds, hprepared, hcancel⟩
  · rw [hnone]
    exact h
  · rw [hcancel]
    exact h.cancel hprepared scheduleIds

theorem Faithful.updateSchedules (h : Faithful defs t) (now : Instant) {schedules : List Schedule}
    (hdistinct : ∀ schedule ∈ schedules, (schedule.definitions.map (·.1.id)).Nodup) :
    Faithful ((sortBy Schedule.priority schedules).foldl note defs)
      (t.processor.updateSchedules t.store now schedules) := by
  have hstart : Faithful defs ⟨t.processor, t.store, []⟩ :=
    ⟨⟨h.sound.reliable, h.sound.proper⟩, h.knows, h.distinct, h.written⟩
  exact hstart.foldl_registerOne now fun schedule hschedule =>
    hdistinct schedule ((perm_sortBy _ _).mem_iff.mp hschedule)

/-- A processor that has nothing prepared may restore: no row of a trigger is deleted that is
prepared then. -/
theorem Faithful.restoreSchedules (h : Faithful defs t) (hempty : t.processor = .empty)
    (now : Instant) {schedules : List Schedule}
    (hdistinct : ∀ schedule ∈ schedules, (schedule.definitions.map (·.1.id)).Nodup) :
    WrittenThrough (t.processor.restoreSchedules t.store now schedules).processor
      (t.processor.restoreSchedules t.store now schedules).store := by
  have hupdated := h.updateSchedules now hdistinct
  refine hupdated.written.of_rows (Store.readable_command hupdated.written.readable _ _ _)
    fun id u hu => ⟨hu, Store.progressRow_keepSchedules ?_⟩
  cases hid : ((sortBy Schedule.priority schedules).foldl note defs).get? id with
  | none =>
    have hnone := hupdated.triggersOf_eq_nil hid
    exact absurd (hnone ▸ hu) List.not_mem_nil
  | some schedule =>
    rcases get?_foldl_note hid with hbefore | ⟨rfl, hmem⟩
    · have hprepared := h.knows.prepared id
      rw [hempty, hbefore] at hprepared
      cases hprepared
    · exact List.mem_map_of_mem ((perm_sortBy _ _).mem_iff.mp hmem)

/-- Every request keeps all that, if schedules are restored only where nothing is prepared. -/
theorem Faithful.serve (h : Faithful defs t) {r : Request}
    (hwrites : t.processor.Writes t.store r)
    (hdistinct : ∀ schedule ∈ r.schedules, (schedule.definitions.map (·.1.id)).Nodup)
    (hfirst : ∀ schedules now, r = .restore schedules now → t.processor = .empty) :
    Faithful (r.define defs) (t.serve r) := by
  have hsound := h.sound.serve hwrites
  have hknows := h.knows.serve r
  cases r with
  | event event now =>
    exact ⟨hsound, hknows, h.distinct, h.written.processEvent h.sound.reliable h.sound.proper
      h.isDistinct hwrites⟩
  | pause paused => exact ⟨hsound, hknows, h.distinct, h.written.readable, h.written.held,
      h.written.below⟩
  | update schedules now =>
    have hupdated := h.updateSchedules now hdistinct
    exact ⟨hsound, hknows, hupdated.distinct, hupdated.written⟩
  | restore schedules now =>
    have hupdated := h.updateSchedules now hdistinct
    exact ⟨hsound, hknows, hupdated.distinct,
      h.restoreSchedules (hfirst schedules now rfl) now hdistinct⟩
  | enter scheduleId state now =>
    exact ⟨hsound, hknows, h.distinct, h.written.applyState h.sound.reliable h.sound.proper
      h.isDistinct now scheduleId state⟩
  | cancel scheduleIds =>
    exact ⟨hsound, hknows, distinct_filter h.distinct, h.written.cancel rfl scheduleIds⟩
  | cancelGroup group =>
    exact ⟨hsound, hknows, distinct_filter h.distinct, h.written.cancelGroup group⟩
  | restart => exact faithful_start h.sound.reliable h.written.readable _

end Processor
end Automation
