import Automation.Proofs.Processor.Holding
import Automation.Proofs.Processor.Resumption

/-!
# Rows that restoring leaves behind

A new processor that restores schedules deletes progress in two ways.  Rows of schedules that are
not listed go at the end, whatever they are of.  Rows of a listed schedule go when a trigger that
was prepared is not defined any more, and a new processor has prepared nothing.  So a row of a
listed schedule whose trigger has been taken out of it since the row was written is never touched:
it is read by nobody and stays as it was.

`restoreSchedules_orphans` says of every row that no listed definition names what becomes of it.
Hence what remains is named by the list exactly if there was no such row of a listed schedule.
The invariant is `LeavesUnnamed`: all that is prepared is named, so nothing else is deleted, and
nothing else is written either.
-/

namespace Automation
namespace Processor

/-- One of the schedules has a trigger or a cancellation trigger under this key. -/
def Names (schedules : List Schedule) (k : ProgressKey) : Prop :=
  ∃ schedule ∈ schedules, schedule.id = k.scheduleId ∧
    k.triggerId ∈ schedule.definitions.map (·.1.id)

instance (schedules : List Schedule) (k : ProgressKey) : Decidable (Names schedules k) :=
  inferInstanceAs (Decidable (∃ schedule ∈ schedules, schedule.id = k.scheduleId ∧
    k.triggerId ∈ schedule.definitions.map (·.1.id)))

variable {p : Processor} {s : Store} {schedule : Schedule} {schedules : List Schedule}
  {k : ProgressKey}

/-- What is dropped when a schedule is defined is the progress of its definitions. -/
theorem key_reset_ne (hp : p.Owns schedule.id) (hs : s.Allows .readProgress)
    (hk : k.scheduleId = schedule.id → k.triggerId ∉ schedule.definitions.map (·.1.id))
    {q : Progress} (hq : q ∈ (p.syncWork s schedule).reset) : q.key ≠ k := by
  rintro rfl
  have hundefined := hk ((sound_syncWork hp hs).reset q hq).1
  -- all definitions have other ids, so the work leaves that of the record alone
  have hothers : ∀ d ∈ schedule.definitions, d.1.id ≠ q.key.triggerId := fun d hd hid =>
    hundefined (hid ▸ List.mem_map_of_mem hd)
  have hapart : (p.syncWork s schedule).Apart q.key.triggerId _ [] :=
    Sync.Apart.foldl_add hs hothers (sound_start hp s)
      ⟨rfl, List.filter_nil, List.forall_mem_nil _⟩
  exact hapart.reset q hq rfl

/-- A row of a trigger that is neither prepared nor defined stays when a schedule is defined. -/
theorem progressRow_syncSchedule_of_undefined (hp : p.Owns schedule.id) (hs : s.Allows .readProgress)
    (hheld : ¬ p.Holds k)
    (hk : k.scheduleId = schedule.id → k.triggerId ∉ schedule.definitions.map (·.1.id)) :
    (p.syncSchedule s schedule).2.progressRow k = s.progressRow k := by
  refine progressRow_syncSchedule (fun q hq => key_reset_ne hp hs hk hq) (fun hid hstale => ?_)
    (sound_syncWork hp hs).read
  have hprepared := ((mem_stale_iff k.triggerId).mp hstale).1
  rw [← hid] at hprepared
  exact hheld hprepared

/-! ## Schedules one after another -/

/-- What holds while a new processor restores schedules from a store: no state can be fed again, all
that is prepared is named by one of them, and rows that are not named are as they were. -/
structure LeavesUnnamed (schedules : List Schedule) (s : Store) (t : Turn) : Prop where
  sound : t.IsSound
  lastState : t.processor.lastState = none
  held : ∀ k, t.processor.Holds k → Names schedules k
  rows : ∀ k, ¬ Names schedules k → t.store.progressRow k = s.progressRow k

theorem leavesUnnamed_start (hs : s.IsReliable) (schedules : List Schedule) :
    LeavesUnnamed schedules s (.start s) where
  sound := .start hs
  lastState := rfl
  held := fun _ ⟨_, ht, _⟩ => absurd ht List.not_mem_nil
  rows _ _ := rfl

variable {t : Turn}

/-- One of the schedules. -/
theorem LeavesUnnamed.registerOne (h : LeavesUnnamed schedules s t) (now : Instant)
    (hmem : schedule ∈ schedules) : LeavesUnnamed schedules s (registerOne now t schedule) := by
  have hsound := isSound_registerOne h.sound now schedule
  rw [registerOne_of_lastState h.lastState] at hsound ⊢
  refine ⟨hsound, h.lastState, fun k hheld => ?_, fun k hunnamed => ?_⟩
  · have hsynced : (t.processor.syncSchedule t.store schedule).1.Holds k :=
      (continues_entering _ schedule.id schedule.state).holds_iff.mp hheld
    rw [holds_syncSchedule] at hsynced
    split at hsynced
    · next hid => exact ⟨schedule, hmem, hid.symm, hsynced⟩
    · exact h.held k hsynced
  · refine (progressRow_syncSchedule_of_undefined (h.sound.proper.owns _) (h.sound.reliable _)
      (fun hheld => hunnamed (h.held k hheld)) fun hid htrigger => ?_).trans (h.rows k hunnamed)
    exact hunnamed ⟨schedule, hmem, hid.symm, htrigger⟩

/-- Any number of them, in any order. -/
theorem LeavesUnnamed.foldl_registerOne (h : LeavesUnnamed schedules s t) (now : Instant)
    {todo : List Schedule} (htodo : ∀ schedule ∈ todo, schedule ∈ schedules) :
    LeavesUnnamed schedules s (todo.foldl (Processor.registerOne now) t) := by
  induction todo generalizing t with
  | nil => exact h
  | cons schedule rest ih =>
    rw [List.forall_mem_cons] at htodo
    exact ih (h.registerOne now htodo.1) htodo.2

/-- **Orphaned rows.**  A new processor that restores schedules over a store that refuses nothing
deletes every row of a schedule that is not listed, and leaves every row of a listed schedule whose
trigger is named by no definition.  So what remains is named by the list exactly if the store had no
row of the second kind. -/
theorem restoreSchedules_orphans (hs : s.IsReliable) (schedules : List Schedule) (now : Instant) :
    let t := Processor.empty.restoreSchedules s now schedules
    (∀ k, k.scheduleId ∉ schedules.map (·.id) → t.store.progressRow k = none) ∧
      (∀ k, k.scheduleId ∈ schedules.map (·.id) → ¬ Names schedules k →
        t.store.progressRow k = s.progressRow k) ∧
      ((∀ k row, t.store.progressRow k = some row → Names schedules k) ↔
        ∀ k row, s.progressRow k = some row → k.scheduleId ∈ schedules.map (·.id) →
          Names schedules k) := by
  have hleaves := (leavesUnnamed_start hs schedules).foldl_registerOne now fun _ hschedule =>
    (perm_sortBy Schedule.priority schedules).mem_iff.mp hschedule
  have hgone : ∀ k, k.scheduleId ∉ schedules.map (·.id) →
      (Processor.empty.restoreSchedules s now schedules).store.progressRow k = none := fun k =>
    Store.progressRow_keepSchedules_of_not_mem (hleaves.sound.reliable _)
  have hstays : ∀ k, k.scheduleId ∈ schedules.map (·.id) → ¬ Names schedules k →
      (Processor.empty.restoreSchedules s now schedules).store.progressRow k =
        s.progressRow k := fun k hlisted hunnamed =>
    (Store.progressRow_keepSchedules hlisted).trans (hleaves.rows k hunnamed)
  refine ⟨hgone, hstays, fun hnamed k row hrow hlisted => ?_, fun hnamed k row hrow => ?_⟩
  · by_contra hunnamed
    exact hunnamed (hnamed k row ((hstays k hlisted hunnamed).trans hrow))
  · have hlisted : k.scheduleId ∈ schedules.map (·.id) := by
      by_contra hunlisted
      rw [hgone k hunlisted] at hrow
      cases hrow
    by_contra hunnamed
    exact hunnamed (hnamed k row ((hstays k hlisted hunnamed).symm.trans hrow) hlisted)

/-- What a run has stored in which one schedule had two triggers and another one had one, and every
trigger has counted an event. -/
def countedOnce : Tables :=
  ((Turn.start (.ofTables .empty)).run
    [.restore [countingSchedule "s" none [countingTrigger "kept" 3, countingTrigger "dropped" 3] [],
        countingSchedule "gone" none [countingTrigger "kept" 3] []] .epoch,
      .event (.occurred .customEvent none 0) .epoch]).store.tables

/-- The first schedule without its second trigger. -/
def keptSchedule : Schedule := countingSchedule "s" none [countingTrigger "kept" 3] []

/-- Of the three rows one is of a trigger that is still defined, one is deleted with its schedule,
and one stays. -/
theorem restoreSchedules_orphans_countedOnce :
    let t := Processor.empty.restoreSchedules (.ofTables countedOnce) .epoch [keptSchedule]
    t.store.progressRow ⟨"gone", "kept"⟩ = none ∧
      t.store.progressRow ⟨"s", "dropped"⟩ = some ⟨.ofInt 1, none⟩ ∧
      ¬ ∀ k row, t.store.progressRow k = some row → Names [keptSchedule] k := by
  have hrow : (Store.ofTables countedOnce).progressRow ⟨"s", "dropped"⟩ =
      some ⟨.ofInt 1, none⟩ := by decide +kernel
  have hunnamed : ¬ Names [keptSchedule] ⟨"s", "dropped"⟩ := by decide +kernel
  obtain ⟨hgone, hstays, hnamed⟩ :=
    restoreSchedules_orphans (Store.isReliable_ofTables countedOnce) [keptSchedule] .epoch
  refine ⟨hgone _ (by decide +kernel), (hstays _ (by decide +kernel) hunnamed).trans hrow,
    fun hall => hunnamed (hnamed.mp hall _ _ hrow (by decide +kernel))⟩

/-- Restoring does not remove all stale progress: a row that is left can be of a trigger that its
schedule does not have. -/
theorem stale_row_is_left :
    ¬ ∀ (s : Store) (schedules : List Schedule) (now : Instant), s.IsReliable →
      ∀ k row, (Processor.empty.restoreSchedules s now schedules).store.progressRow k = some row →
        Names schedules k := by
  intro hall
  have hleft : (Processor.empty.restoreSchedules (.ofTables countedOnce) .epoch
      [keptSchedule]).store.progressRow ⟨"s", "dropped"⟩ = some ⟨.ofInt 1, none⟩ := by
    decide +kernel
  have hnamed := hall (.ofTables countedOnce) [keptSchedule] .epoch
    (Store.isReliable_ofTables countedOnce) _ _ hleft
  revert hnamed
  decide +kernel

end Processor
end Automation
