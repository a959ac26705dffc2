import Automation.Proofs.Processor.Succession

/-!
# Restoring

A new processor that restores schedules prepares what the store gives back, and then everything is
as `Resumed` says: `restoreSchedules_spec`.  Restoring may change the store, since it drops progress
that a goal leaves no room for and deletes that of unknown schedules.  Where there is nothing of
either kind it changes nothing, so restoring a second time prepares the same again.

Schedules are defined one after another, so what is said of the whole is first said of those that
are done: `Restoring` is the invariant of the work and `Restoring.registerOne` the step.
-/

namespace Automation
namespace Processor

variable {schedule : Schedule} {s : Store}

/-! ## A schedule that is not known yet -/

/-- A trigger as it is prepared for the first time, before it is settled. -/
def anew (schedule : Schedule) (s : Store) (d : Trigger × Execution) : Prepared :=
  { schedule.stand s.resumed d with active := false }

/-- Where nothing was prepared before, a definition is prepared from the store. -/
theorem successor_of_new {p : Processor} (hnew : p.triggersOf schedule.id = [])
    (d : Trigger × Execution) : successor p s schedule d = anew schedule s d := by
  rw [successor, hnew]
  rfl

theorem isFor_of_new {p : Processor} (hnew : p.triggersOf schedule.id = []) :
    ∀ t ∈ p.triggersOf schedule.id, t.IsFor schedule.id := by
  rw [hnew]
  exact List.forall_mem_nil _

theorem syncWork_of_new {p : Processor} (hs : s.Allows .readProgress)
    (hresumable : schedule.IsResumable) (hnew : p.triggersOf schedule.id = []) :
    (p.syncWork s schedule).stale = [] ∧ (p.syncWork s schedule).store.IsReadOf s ∧
      (p.syncWork s schedule).prepared =
        schedule.definitions.map (fun d => (anew schedule s d).resetIfReached) ∧
      (p.syncWork s schedule).reset =
        (schedule.definitions.filter fun d => (anew schedule s d).exceedsGoal).map
          fun d => (anew schedule s d).resetIfReached.progress := by
  obtain ⟨hread, hleft, hprepared, hreset⟩ := syncWork_of_distinct hs hresumable.distinct p
  have hexisting : (p.syncWork s schedule).existing = .empty := by
    refine Table.eq_of_get?_eq fun id => Option.eq_none_iff_forall_ne_some.mpr fun t ht => ?_
    have hmem := hleft id t ht
    rw [hnew] at hmem
    cases hmem
  simp only [successor_of_new hnew] at hprepared hreset
  refine ⟨?_, hread, hprepared, hreset⟩
  rw [Sync.stale, hexisting]
  rfl

/-- After a schedule has been defined for the first time the store gives back what is prepared. -/
theorem resumed_syncSchedule_of_new {p : Processor} (hs : s.IsReliable)
    (hresumable : schedule.IsResumable) (hnew : p.triggersOf schedule.id = [])
    {d : Trigger × Execution} (hd : d ∈ schedule.definitions) :
    (p.syncSchedule s schedule).2.resumed ⟨schedule.id, d.1.id⟩ =
      (anew schedule s d).resetIfReached.progress := by
  rw [resumed_syncSchedule hs hresumable.distinct (isFor_of_new hnew) hd
    (congrArg Prepared.progress (successor_of_new hnew d)), successor_of_new hnew]

/-- A trigger that was prepared for the first time stands as its schedule's state has it. -/
theorem enter_anew (hresumable : schedule.IsResumable) {d : Trigger × Execution}
    (hd : d ∈ schedule.definitions) {progress : ProgressKey → Progress}
    (hprogress : progress ⟨schedule.id, d.1.id⟩ = (anew schedule s d).resetIfReached.progress) :
    enter schedule.state (anew schedule s d).resetIfReached = schedule.stand progress d := by
  have hform : (anew schedule s d).resetIfReached =
      { schedule.stand progress d with active := false } := by
    rw [Schedule.stand, hprogress, Prepared.resetIfReached]
    split <;> rfl
  rw [hform, enter]
  cases henables : schedule.state.enables d.2 with
  | true =>
    have hkind := hresumable.quiet d hd henables
    rw [Schedule.stand, henables, hkind]
    rfl
  | false =>
    rw [Schedule.stand, henables]
    rfl

/-! ## Schedules one after another -/

/-- What holds while schedules are restored from a store: those that are done stand as the store
gives them back, and nothing has happened to the others.  If nothing had to be dropped, the tables
are as they were. -/
structure Restoring (done : List Schedule) (s : Store) (paused : Bool) (t : Turn) : Prop where
  reliable : t.store.IsReliable
  lastState : t.processor.lastState = none
  paused : t.processor.paused = paused
  stands : ∀ schedule ∈ done,
    t.processor.prepared.get? schedule.id = some (schedule.standing t.store.resumed)
  settled : ∀ schedule ∈ done, schedule.IsSettled t.store
  others : ∀ id, id ∉ done.map (·.id) → t.processor.prepared.get? id = none
  rows : ∀ k, k.scheduleId ∉ done.map (·.id) → t.store.progressRow k = s.progressRow k
  tables : ∃ progress, t.store.tables = { s.tables with progress := progress }
  zeros : t.store.tables.HasPlainZeros
  untouched : (∀ schedule ∈ done, schedule.IsSettled s) → t.store.tables = s.tables

theorem restoring_start {s : Store} (hs : s.IsReliable) (hzeros : s.tables.HasPlainZeros)
    (paused : Bool) : Restoring [] s paused ⟨Processor.empty.setPaused paused, s, []⟩ where
  reliable := hs
  lastState := rfl
  paused := rfl
  stands := List.forall_mem_nil _
  settled := List.forall_mem_nil _
  others _ _ := rfl
  rows _ _ := rfl
  tables := ⟨s.tables.progress, rfl⟩
  zeros := hzeros
  untouched _ := rfl

/-- What defining a schedule for the first time does to the rows and the tables. -/
theorem store_syncSchedule_of_new {p : Processor} (hs : s.IsReliable)
    (hresumable : schedule.IsResumable) (hnew : p.triggersOf schedule.id = []) :
    (p.syncSchedule s schedule).2.IsReliable ∧
      (∀ k, k.scheduleId ≠ schedule.id →
        (p.syncSchedule s schedule).2.progressRow k = s.progressRow k) ∧
      (∃ progress, (p.syncSchedule s schedule).2.tables = { s.tables with progress := progress }) ∧
      (s.tables.HasPlainZeros → (p.syncSchedule s schedule).2.tables.HasPlainZeros) ∧
      (schedule.IsSettled s → (p.syncSchedule s schedule).2.tables = s.tables) := by
  obtain ⟨hstale, hread, -, hreset⟩ := syncWork_of_new (hs _) hresumable hnew
  have hstore : (p.syncSchedule s schedule).2 =
      persist (p.syncWork s schedule).store (p.syncWork s schedule).reset := by
    show (if (p.syncWork s schedule).stale.isEmpty then _ else _ : Store) = _
    rw [hstale]
    rfl
  have hnumbers : ∀ q ∈ (p.syncWork s schedule).reset, q.count ≠ .nan := fun q hq =>
    count_dropped (hs _) hresumable.distinct hq ▸ fun h => by cases h
  refine ⟨?_, fun k hk =>
    progressRow_syncSchedule_of_ne hs hresumable.distinct (isFor_of_new hnew) hk, ?_, ?_, ?_⟩
  all_goals rw [hstore]
  · exact fun op => allows_persist.mpr ((hread.allows _).mpr (hs op))
  · rw [← hread.tables]
    exact exists_tables_persist _ _
  · intro hzeros
    rw [tables_persist ((hread.allows _).mpr (hs _)) hnumbers, hread.tables]
    exact hzeros.foldl_putProgress _
  · intro hsettled
    have hnone : (schedule.definitions.filter fun d => (anew schedule s d).exceedsGoal) = [] := by
      rw [List.filter_eq_nil_iff]
      intro d hd hexceeds
      rw [show (anew schedule s d).exceedsGoal = false from hsettled d hd] at hexceeds
      cases hexceeds
    rw [hreset, hnone, List.map_nil]
    exact hread.tables

/-- Afterwards its triggers stand as the store gives them back, and the others as they did. -/
theorem get?_entering_of_new {p : Processor} (hs : s.IsReliable) (hresumable : schedule.IsResumable)
    (hnew : p.triggersOf schedule.id = []) (id : String) :
    ((p.syncSchedule s schedule).1.entering schedule.id schedule.state).prepared.get? id =
      if id = schedule.id then some (schedule.standing (p.syncSchedule s schedule).2.resumed)
      else p.prepared.get? id := by
  obtain ⟨-, -, hprepared, -⟩ := syncWork_of_new (hs _) hresumable hnew
  rw [get?_entering, get?_syncSchedule]
  by_cases hid : id = schedule.id
  · rw [if_pos hid, if_pos hid, if_pos hid, Option.map_some, hprepared, List.map_map]
    refine congrArg some (List.map_congr_left fun d hd => ?_)
    exact enter_anew hresumable hd (resumed_syncSchedule_of_new hs hresumable hnew hd)
  · rw [if_neg hid, if_neg hid, if_neg hid]

/-- One more schedule. -/
theorem Restoring.registerOne {done : List Schedule} {paused : Bool} {t : Turn}
    (h : Restoring done s paused t) (now : Instant) (hnew : schedule.id ∉ done.map (·.id))
    (hresumable : schedule.IsResumable) :
    Restoring (schedule :: done) s paused (registerOne now t schedule) := by
  have hempty : t.processor.triggersOf schedule.id = [] := by
    rw [triggersOf, h.others _ hnew]
    rfl
  obtain ⟨hreliable, hrows, htables, hzeros, huntouched⟩ :=
    store_syncSchedule_of_new h.reliable hresumable hempty
  have hget := get?_entering_of_new h.reliable hresumable hempty
  have hother : ∀ done' ∈ done, done'.id ≠ schedule.id := fun done' hdone' hid =>
    hnew (hid ▸ List.mem_map_of_mem hdone')
  rw [registerOne_of_lastState h.lastState]
  refine ⟨hreliable, h.lastState, h.paused, ?_, ?_, ?_, ?_, ?_, hzeros h.zeros, ?_⟩
  · intro schedule' hschedule'
    refine (hget _).trans ?_
    rcases List.mem_cons.mp hschedule' with rfl | hdone
    · exact if_pos rfl
    · rw [if_neg (hother schedule' hdone), h.stands schedule' hdone]
      refine congrArg some (Eq.symm (Schedule.standing_congr fun k hk => hrows k ?_))
      exact hk ▸ hother schedule' hdone
  · intro schedule' hschedule'
    rcases List.mem_cons.mp hschedule' with rfl | hdone
    · intro d hd
      have hresumed := resumed_syncSchedule_of_new h.reliable hresumable hempty hd
      have hbelow := exceedsGoal_resetIfReached (anew schedule' t.store d)
      rw [Prepared.exceedsGoal, Prepared.resetIfReached_trigger, ← hresumed] at hbelow
      exact hbelow
    · exact (h.settled schedule' hdone).congr fun k hk => hrows k (hk ▸ hother schedule' hdone)
  · intro id hid
    rw [List.map_cons, List.mem_cons, not_or] at hid
    exact (hget id).trans ((if_neg hid.1).trans (h.others id hid.2))
  · intro k hk
    rw [List.map_cons, List.mem_cons, not_or] at hk
    exact (hrows k hk.1).trans (h.rows k hk.2)
  · obtain ⟨progress, hprogress⟩ := htables
    obtain ⟨progress', hprogress'⟩ := h.tables
    refine ⟨progress, ?_⟩
    show (t.processor.syncSchedule t.store schedule).2.tables = _
    rw [hprogress, hprogress']
  · intro hall
    have hbefore := h.untouched fun done' hdone' => hall done' (List.mem_cons_of_mem _ hdone')
    refine (huntouched ?_).trans hbefore
    refine (hall schedule List.mem_cons_self).congr fun k _ => ?_
    rw [Store.progressRow, Store.progressRow, hbefore]

/-- Schedules that are all different, one after another. -/
theorem Restoring.foldl_registerOne {done todo : List Schedule} {paused : Bool} {t : Turn}
    (h : Restoring done s paused t) (now : Instant) (hnodup : (todo.map (·.id)).Nodup)
    (hnew : ∀ schedule ∈ todo, schedule.id ∉ done.map (·.id))
    (hresumable : ∀ schedule ∈ todo, schedule.IsResumable) :
    Restoring (todo.reverse ++ done) s paused (todo.foldl (Processor.registerOne now) t) := by
  induction todo generalizing done t with
  | nil => exact h
  | cons schedule rest ih =>
    rw [List.map_cons, List.nodup_cons] at hnodup
    rw [List.forall_mem_cons] at hnew hresumable
    rw [List.foldl_cons, List.reverse_cons, List.append_assoc, List.singleton_append]
    refine ih (h.registerOne now hnew.1 hresumable.1) hnodup.2 (fun other hother hid => ?_)
      hresumable.2
    rw [List.map_cons, List.mem_cons] at hid
    rcases hid with hid | hid
    · exact hnodup.1 (hid ▸ List.mem_map_of_mem hother)
    · exact hnew.2 other hother hid

/-- Deleting the progress of all other schedules ends the work. -/
theorem Restoring.keepSchedules {done : List Schedule} {paused : Bool} {t : Turn}
    (h : Restoring done s paused t) {ids : List String}
    (hids : ∀ id, id ∈ ids ↔ id ∈ done.map (·.id)) :
    Resumed done t.processor (t.store.keepSchedules ids).2 := by
  have hkept : ∀ schedule ∈ done, ∀ k, k.scheduleId = schedule.id →
      (t.store.keepSchedules ids).2.progressRow k = t.store.progressRow k :=
    fun schedule hschedule k hk => Store.progressRow_keepSchedules
      ((hids _).mpr (hk ▸ List.mem_map_of_mem hschedule))
  refine ⟨?_, ?_, h.others, ?_, ?_⟩
  · intro schedule hschedule
    rw [h.stands schedule hschedule]
    exact congrArg some (Schedule.standing_congr (hkept schedule hschedule)).symm
  · intro schedule hschedule
    exact (h.settled schedule hschedule).congr (hkept schedule hschedule)
  · intro k hk
    exact Store.progressRow_keepSchedules_of_not_mem (h.reliable _) fun hmem => hk ((hids _).mp hmem)
  · intro k row hrow
    refine h.zeros k row (Eq.trans ?_ hrow)
    by_cases hk : k.scheduleId ∈ ids
    · exact (Store.progressRow_keepSchedules hk).symm
    · rw [← Store.progressRow, Store.progressRow_keepSchedules_of_not_mem (h.reliable _) hk] at hrow
      cases hrow

/-- In which order schedules are named does not matter. -/
theorem Resumed.of_mem_iff {done schedules : List Schedule} {p : Processor} (h : Resumed done p s)
    (hmem : ∀ schedule, schedule ∈ done ↔ schedule ∈ schedules) : Resumed schedules p s := by
  have hids : ∀ id, id ∈ done.map (·.id) ↔ id ∈ schedules.map (·.id) := fun id => by
    simp only [List.mem_map, hmem]
  exact ⟨fun schedule hschedule => h.stands schedule ((hmem schedule).mpr hschedule),
    fun schedule hschedule => h.settled schedule ((hmem schedule).mpr hschedule),
    fun id hid => h.others id fun hdone => hid ((hids id).mp hdone),
    fun k hk => h.rows k fun hdone => hk ((hids _).mp hdone), h.zeros⟩

/-- **Restoring.**  A new processor that restores different schedules over a store that refuses
nothing has exactly those prepared, as the store gives them back.  Constraints and their histories
are left alone, and so is the progress if there is no row that has to go. -/
theorem restoreSchedules_spec (hs : s.IsReliable) (hzeros : s.tables.HasPlainZeros)
    {schedules : List Schedule} (hnodup : (schedules.map (·.id)).Nodup)
    (hresumable : ∀ schedule ∈ schedules, schedule.IsResumable) (paused : Bool) (now : Instant) :
    let t := (Processor.empty.setPaused paused).restoreSchedules s now schedules
    Resumed schedules t.processor t.store ∧ t.store.IsReliable ∧ t.processor.paused = paused ∧
      (∃ progress, t.store.tables = { s.tables with progress := progress }) ∧
      ((∀ schedule ∈ schedules, schedule.IsSettled s) →
        (∀ k, k.scheduleId ∉ schedules.map (·.id) → s.progressRow k = none) →
          t.store.tables = s.tables) := by
  have hperm : (sortBy Schedule.priority schedules).Perm schedules := perm_sortBy _ _
  have hmem : ∀ schedule, schedule ∈ (sortBy Schedule.priority schedules).reverse ++ [] ↔
      schedule ∈ schedules := fun schedule => by
    rw [List.append_nil, List.mem_reverse]
    exact hperm.mem_iff
  have h := (restoring_start hs hzeros paused).foldl_registerOne now
    ((hperm.map (·.id)).nodup_iff.mpr hnodup) (fun _ _ => List.not_mem_nil)
    fun schedule hschedule => hresumable schedule (hperm.mem_iff.mp hschedule)
  have hids : ∀ id, id ∈ schedules.map (·.id) ↔
      id ∈ ((sortBy Schedule.priority schedules).reverse ++ []).map Schedule.id := fun id => by
    simp only [List.mem_map, hmem]
  refine ⟨(h.keepSchedules hids).of_mem_iff hmem, fun op => Store.allows_command.mpr (h.reliable op),
    h.paused, ?_, ?_⟩
  · obtain ⟨progress, hprogress⟩ := h.tables
    refine ⟨progress.filter fun k _ => (schedules.map (·.id)).contains k.scheduleId,
      (Store.tables_keepSchedules (h.reliable _) _).trans ?_⟩
    rw [Tables.keepSchedules, hprogress]
  · intro hsettled hnone
    have huntouched :=
      h.untouched fun schedule hschedule => hsettled schedule ((hmem _).mp hschedule)
    refine (Store.tables_keepSchedules_of_kept (h.reliable _) fun k hk => ?_).trans huntouched
    exact (congrArg (fun t => t.progress.get? k) huntouched).trans (hnone k hk)

end Processor
end Automation
