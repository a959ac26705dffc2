import Automation.Proofs.Processor.Catalogue

/-!
# Whose rows a processor holds in memory

A processor reads the row of a trigger when it prepares it and does not take it over, and never
again while the trigger stays prepared.  So of the rows of a store only those matter that are of no
trigger that is prepared at present.  `Holds` says which triggers are prepared.  Two things hold of
the others, and neither needs the store to take any progress.

* Progress is written for prepared triggers only: `holds_of_mem_outcomes` says so of what an event
  leaves to be written, and `key_reset` of what is dropped when a schedule is defined.
* A trigger that ceases to be prepared loses its row in the same operation.  For cancelled schedules
  that is plain; for a schedule that is defined without some of its triggers it is
  `progressRow_syncSchedule_of_not_holds`, which also says that the other rows stay.

Both rest on triggers that keep their progress under their own place, which is `IsPlaced`.
-/

namespace Automation

/-! ## Triggers in their places -/

namespace Prepared

/-- The progress of a trigger is its own, under a schedule. -/
def IsPlaced (id : String) (t : Prepared) : Prop := t.progress.key = ⟨id, t.trigger.id⟩

variable (t : Prepared)

/-- The same trigger later on: its definition has stayed, and its progress is for the same row. -/
structure Continues (t' : Prepared) : Prop where
  scheduleId : t'.scheduleId = t.scheduleId
  trigger : t'.trigger = t.trigger
  key : t'.progress.key = t.progress.key
  window : t'.window = t.window
  priority : t'.priority = t.priority

theorem Continues.refl : t.Continues t := ⟨rfl, rfl, rfl, rfl, rfl⟩

theorem continues_process (event : Event) (now : Instant) :
    t.Continues (t.process event now).1 := by
  obtain ⟨progress, hprocess, hschedule, htrigger⟩ := t.process_fst event now
  rw [hprocess]
  refine ⟨rfl, rfl, ?_, rfl, rfl⟩
  rw [Progress.key, Progress.key, hschedule, htrigger]

theorem continues_enter (state : ScheduleState) : t.Continues (Processor.enter state t) := by
  rw [Processor.enter]
  split
  · rw [activate]
    split
    · exact .refl t
    · split <;> exact ⟨rfl, rfl, rfl, rfl, rfl⟩
  · exact ⟨rfl, rfl, rfl, rfl, rfl⟩

theorem key_resetIfReached : t.resetIfReached.progress.key = t.progress.key := by
  rw [resetIfReached]
  split <;> rfl

variable {t} {id : String} {t' : Prepared}

theorem Continues.trans {t'' : Prepared} (h : t.Continues t') (h' : t'.Continues t'') :
    t.Continues t'' :=
  ⟨h'.scheduleId.trans h.scheduleId, h'.trigger.trans h.trigger, h'.key.trans h.key,
    h'.window.trans h.window, h'.priority.trans h.priority⟩

theorem Continues.isPlaced (h : t.Continues t') (ht : t.IsPlaced id) : t'.IsPlaced id := by
  rw [IsPlaced, h.key, h.trigger]
  exact ht

theorem Continues.isOf (h : t.Continues t') (ht : t.IsOf id) : t'.IsOf id :=
  ⟨h.scheduleId.trans ht.schedule, h.isPlaced ht.key⟩

end Prepared

namespace Processor

/-- Every prepared trigger has its own progress. -/
def IsPlaced (p : Processor) : Prop := ∀ id, ∀ t ∈ p.triggersOf id, t.IsPlaced id

/-- A trigger is prepared. -/
def Holds (p : Processor) (k : ProgressKey) : Prop :=
  ∃ t ∈ p.triggersOf k.scheduleId, t.trigger.id = k.triggerId

/-- A processor has the triggers of another one, with more or less progress. -/
def Continues (p p' : Processor) : Prop :=
  ∀ id, ∃ f : Prepared → Prepared, p'.triggersOf id = (p.triggersOf id).map f ∧
    ∀ t : Prepared, t.Continues (f t)

variable {p p' : Processor} {s : Store} {event : Event} {now : Instant} {k : ProgressKey}

theorem isPlaced_empty : Processor.empty.IsPlaced := fun _ _ ht => absurd ht List.not_mem_nil

/-! ## Going on with the same triggers -/

/-- Every trigger has been there before. -/
theorem Continues.exists_mem (h : p.Continues p') {id : String} {t' : Prepared}
    (ht' : t' ∈ p'.triggersOf id) : ∃ t ∈ p.triggersOf id, t.Continues t' := by
  obtain ⟨f, hf, hsame⟩ := h id
  rw [hf] at ht'
  obtain ⟨t, ht, rfl⟩ := List.mem_map.mp ht'
  exact ⟨t, ht, hsame t⟩

theorem Continues.isPlaced (h : p.Continues p') (hp : p.IsPlaced) : p'.IsPlaced := by
  intro id t' ht'
  obtain ⟨t, ht, hsame⟩ := h.exists_mem ht'
  exact hsame.isPlaced (hp id t ht)

theorem Continues.owns (h : p.Continues p') {id : String} (hp : p.Owns id) : p'.Owns id := by
  intro t' ht'
  obtain ⟨t, ht, hsame⟩ := h.exists_mem ht'
  exact hsame.isOf (hp t ht)

theorem Continues.trans {p'' : Processor} (h : p.Continues p') (h' : p'.Continues p'') :
    p.Continues p'' := by
  intro id
  obtain ⟨f, hf, hsame⟩ := h id
  obtain ⟨g, hg, hsame'⟩ := h' id
  refine ⟨fun t => g (f t), ?_, fun t => (hsame t).trans (hsame' (f t))⟩
  rw [hg, hf, List.map_map]
  rfl

theorem Continues.holds_iff (h : p.Continues p') : p'.Holds k ↔ p.Holds k := by
  obtain ⟨f, hf, hsame⟩ := h k.scheduleId
  rw [Holds, Holds, hf]
  constructor
  · rintro ⟨_, hmem, hid⟩
    obtain ⟨t, ht, rfl⟩ := List.mem_map.mp hmem
    exact ⟨t, ht, (congrArg Trigger.id (hsame t).trigger).symm.trans hid⟩
  · rintro ⟨t, ht, hid⟩
    exact ⟨f t, List.mem_map_of_mem ht, (congrArg Trigger.id (hsame t).trigger).trans hid⟩

theorem Continues.holds (h : p.Continues p') (hk : p.Holds k) : p'.Holds k := h.holds_iff.mpr hk

/-- Whatever else changes, a processor with the same triggers goes on. -/
theorem Continues.of_triggersOf (h : ∀ id, p'.triggersOf id = p.triggersOf id) :
    p.Continues p' := fun id => ⟨fun t => t, (h id).trans (List.map_id' _).symm, .refl⟩

theorem continues_feed (h : p'.prepared = p.prepared.map fun _ => feed event now) :
    p.Continues p' := by
  refine fun id => ⟨fun t => (t.process event now).1, ?_, fun t => t.continues_process event now⟩
  rw [triggersOf, triggersOf, h, Table.get?_map]
  cases p.prepared.get? id <;> rfl

theorem continues_entering (p : Processor) (scheduleId : String) (state : ScheduleState) :
    p.Continues (p.entering scheduleId state) := by
  intro id
  by_cases hid : id = scheduleId
  · refine ⟨enter state, ?_, fun t => t.continues_enter state⟩
    rw [triggersOf_entering, if_pos hid]
  · refine ⟨fun t => t, ?_, .refl⟩
    rw [triggersOf_entering, if_neg hid, List.map_id']

/-- The triggers of one schedule may be fed alone. -/
theorem continues_insert (event : Event) (now : Instant) {id : String} {ts : List Prepared}
    (hts : p.prepared.get? id = some ts)
    (h : ∀ other, p'.prepared.get? other =
      if other = id then some (feed event now ts) else p.prepared.get? other) :
    p.Continues p' := by
  intro other
  by_cases hother : other = id
  · subst hother
    refine ⟨fun t => (t.process event now).1, ?_, fun t => t.continues_process event now⟩
    rw [triggersOf, triggersOf, h, if_pos rfl, hts]
    rfl
  · refine ⟨fun t => t, ?_, .refl⟩
    rw [triggersOf, triggersOf, h, if_neg hother, List.map_id']

theorem continues_processEvent (p : Processor) (s : Store) (event : Event) (now : Instant) :
    p.Continues (p.processEvent s event now).processor := by
  by_cases hpaused : p.paused = true
  · rw [processEvent_of_paused hpaused]
    exact .of_triggersOf (by cases event <;> exact fun _ => rfl)
  · rw [processEvent_of_not_paused hpaused]
    exact continues_feed rfl

/-- A state that is fed again is fed to the triggers as they are in the new state. -/
theorem continues_refed {scheduleId : String} {state : ScheduleState} {ts : List Prepared}
    (hts : (p.entering scheduleId state).prepared.get? scheduleId = some ts) (last : AppState)
    (now : Instant) :
    (p.entering scheduleId state).Continues
      { p with prepared := p.prepared.insert scheduleId (feed (.stateChanged last) now ts) } := by
  refine continues_insert (.stateChanged last) now hts fun other => ?_
  rw [Table.get?_insert, get?_entering]
  split <;> rfl

theorem continues_applyState (p : Processor) (s : Store) (now : Instant) (scheduleId : String)
    (state : ScheduleState) : p.Continues (p.applyState s now scheduleId state).processor := by
  have hentering := continues_entering p scheduleId state
  cases hrefed : p.refed? scheduleId state with
  | none =>
    rw [applyState_of_refed?_eq_none hrefed]
    exact hentering
  | some fed =>
    obtain ⟨last, ts⟩ := fed
    obtain ⟨hts, happly⟩ := applyState_of_refed?_eq_some hrefed s now
    rw [happly]
    exact hentering.trans (continues_refed hts last now)

/-- What an event leaves to be written is for triggers that are prepared. -/
theorem holds_of_mem_outcomes (hp : p.IsPlaced) {id : String} {ts : List Prepared}
    (hts : p.prepared.get? id = some ts) {o : Int × Outcome} (ho : o ∈ outcomes event now ts) :
    p.Holds o.2.progress.key := by
  obtain ⟨t, ht, hprocess, -⟩ := mem_outcomes.mp ho
  have hmem : t ∈ p.triggersOf id := by
    rw [triggersOf, hts]
    exact ht
  have hkey : o.2.progress.key = ⟨id, t.trigger.id⟩ := by
    rw [(Prepared.process_snd hprocess).1, (t.continues_process event now).key]
    exact hp id t hmem
  rw [hkey]
  exact ⟨t, hmem, rfl⟩

/-! ## Defining a schedule -/

section Defining

variable {schedule : Schedule} {d : Trigger × Execution}

theorem get?_existing_foldl_add (ds : List (Trigger × Execution)) (w : Sync) (id : String) :
    (ds.foldl (Sync.add schedule) w).existing.get? id =
      if id ∈ ds.map (·.1.id) then none else w.existing.get? id := by
  induction ds generalizing w with
  | nil => rfl
  | cons d rest ih =>
    have hone : (w.add schedule d).existing = w.existing.erase d.1.id := rfl
    rw [List.foldl_cons, ih, hone, Table.get?_erase]
    by_cases hid : id = d.1.id
    · simp [hid]
    · simp only [hid, List.map_cons, List.mem_cons, if_false, false_or]

theorem ids_syncWork (p : Processor) (s : Store) (schedule : Schedule) :
    (p.syncWork s schedule).prepared.map (·.trigger.id) = schedule.definitions.map (·.1.id) := by
  rw [← roles_syncWork p s schedule, roles, List.map_map]
  rfl

/-- After a schedule has been defined its triggers are those of the definition, whatever can be
read. -/
theorem holds_syncSchedule :
    (p.syncSchedule s schedule).1.Holds k ↔
      if k.scheduleId = schedule.id then k.triggerId ∈ schedule.definitions.map (·.1.id)
      else p.Holds k := by
  rw [Holds, triggersOf_syncSchedule]
  split
  · rw [← ids_syncWork p s, List.mem_map]
  · rfl

/-- Gone are the triggers that were prepared and are not defined any more. -/
theorem mem_stale_iff (id : String) :
    id ∈ (p.syncWork s schedule).stale ↔
      p.Holds ⟨schedule.id, id⟩ ∧ id ∉ schedule.definitions.map (·.1.id) := by
  rw [Sync.stale, List.mem_filter, ids_syncWork, Table.mem_keys_iff, Bool.not_eq_true',
    ← Bool.not_eq_true, List.contains_iff_mem]
  refine and_congr_left fun hid => ?_
  rw [syncWork, get?_existing_foldl_add, if_neg hid, get?_ofList_triggers,
    Option.isSome_iff_ne_none, Ne, List.getLast?_eq_none_iff, Holds]
  simp only [List.filter_eq_nil_iff, decide_eq_true_eq, not_forall, not_not, exists_prop]

/-- After a schedule has been defined its triggers have numbers for counts, whatever they had. -/
theorem isFor_syncSchedule (hp : p.Owns schedule.id) (hs : s.Allows .readProgress) :
    ∀ t ∈ (p.syncSchedule s schedule).1.triggersOf schedule.id, t.IsFor schedule.id := by
  rw [triggersOf_syncSchedule, if_pos rfl]
  exact (sound_syncWork hp hs).prepared

theorem owns_syncSchedule (hp : ∀ id, p.Owns id) (hs : s.Allows .readProgress)
    (schedule : Schedule) (id : String) : (p.syncSchedule s schedule).1.Owns id := by
  by_cases hid : id = schedule.id
  · exact hid ▸ fun t ht => (isFor_syncSchedule (hp schedule.id) hs t ht).isOf
  · rw [Owns, triggersOf_syncSchedule, if_neg hid]
    exact hp id

/-- What a definition becomes has its own progress. -/
theorem isPlaced_successor (hp : p.IsPlaced) (s : Store) (schedule : Schedule)
    (d : Trigger × Execution) : (successor p s schedule d).resetIfReached.IsPlaced schedule.id := by
  rw [Prepared.IsPlaced, Prepared.key_resetIfReached, Prepared.resetIfReached_trigger,
    successor_trigger, successor, found]
  split
  · next t ht =>
    obtain ⟨hmem, hid⟩ :=
      List.mem_filter.mp (List.mem_of_getLast? (Option.filter_eq_some_iff.mp ht).1)
    have hplace := hp schedule.id t hmem
    rwa [Prepared.IsPlaced, of_decide_eq_true hid] at hplace
  · cases hrow : s.recalled ⟨schedule.id, d.1.id⟩ with
    | none => rfl
    | some progress => exact Store.key_of_recalled hrow

/-- The row of a trigger that is gone is deleted. -/
theorem progressRow_syncSchedule_of_stale (hs : s.Allows .readProgress)
    (hdistinct : (schedule.definitions.map (·.1.id)).Nodup) (hdelete : s.Allows .deleteTriggers)
    {triggerId : String} (hstale : triggerId ∈ (p.syncWork s schedule).stale) :
    (p.syncSchedule s schedule).2.progressRow ⟨schedule.id, triggerId⟩ = none := by
  obtain ⟨hread, -, -, -⟩ := syncWork_of_distinct hs hdistinct p
  show (if (p.syncWork s schedule).stale.isEmpty then _ else _ : Store).progressRow _ = none
  split
  · next hnone => exact absurd (List.isEmpty_iff.mp hnone) (List.ne_nil_of_mem hstale)
  · exact Store.progressRow_deleteTriggers_of_mem (k := ⟨schedule.id, triggerId⟩)
      (allows_persist.mpr ((hread.allows _).mpr hdelete)) hstale

variable (hs : s.Allows .readProgress) (hp : p.IsPlaced)
  (hdistinct : (schedule.definitions.map (·.1.id)).Nodup)

include hs hp hdistinct

theorem IsPlaced.syncSchedule : (p.syncSchedule s schedule).1.IsPlaced := by
  obtain ⟨-, -, hprepared, -⟩ := syncWork_of_distinct hs hdistinct p
  intro id t ht
  rw [triggersOf_syncSchedule] at ht
  split at ht
  · next hid =>
    rw [hprepared] at ht
    obtain ⟨d, -, rfl⟩ := List.mem_map.mp ht
    exact hid ▸ isPlaced_successor hp s schedule d
  · exact hp id t ht

/-- What is dropped is dropped for triggers that are defined. -/
theorem key_reset {q : Progress} (hq : q ∈ (p.syncWork s schedule).reset) :
    q.key.scheduleId = schedule.id ∧ q.key.triggerId ∈ schedule.definitions.map (·.1.id) := by
  obtain ⟨-, -, -, hreset⟩ := syncWork_of_distinct hs hdistinct p
  rw [hreset] at hq
  obtain ⟨d, hd, rfl⟩ := List.mem_map.mp hq
  have hkey := isPlaced_successor hp s schedule d
  rw [Prepared.IsPlaced, Prepared.resetIfReached_trigger, successor_trigger] at hkey
  rw [hkey]
  exact ⟨rfl, List.mem_map_of_mem (List.mem_filter.mp hd).1⟩

/-- A row of a trigger that is not prepared once a schedule has been defined: it is deleted if the
trigger was prepared until then, and stays if it was not. -/
theorem progressRow_syncSchedule_of_not_holds (hdelete : s.Allows .deleteTriggers)
    (hk : ¬ (p.syncSchedule s schedule).1.Holds k) :
    (¬ p.Holds k → (p.syncSchedule s schedule).2.progressRow k = s.progressRow k) ∧
      (p.Holds k → (p.syncSchedule s schedule).2.progressRow k = none) := by
  obtain ⟨hread, -, -, -⟩ := syncWork_of_distinct hs hdistinct p
  rw [holds_syncSchedule] at hk
  constructor
  · intro hbefore
    -- what is written is for triggers that are defined, and what is deleted was prepared
    refine progressRow_syncSchedule (fun q hq hkey => ?_) (fun hid hstale => hbefore ?_) hread
    · obtain ⟨hid, hmem⟩ := key_reset hs hp hdistinct hq
      rw [hkey] at hid hmem
      rw [if_pos hid] at hk
      exact hk hmem
    · have hheld := ((mem_stale_iff _).mp hstale).1
      rwa [← hid] at hheld
  · intro hheld
    -- only this schedule can have given a trigger up
    have hid : k.scheduleId = schedule.id := by
      by_contra hne
      rw [if_neg hne] at hk
      exact hk hheld
    rw [if_pos hid] at hk
    obtain ⟨_, triggerId⟩ := k
    cases hid
    exact progressRow_syncSchedule_of_stale hs hdistinct hdelete
      ((mem_stale_iff triggerId).mpr ⟨hheld, hk⟩)

end Defining

/-! ## Cancelling -/

theorem mem_triggersOf_foldl_forget {scheduleIds : List String} {id : String} {t : Prepared} :
    t ∈ (scheduleIds.foldl forget p).triggersOf id ↔ id ∉ scheduleIds ∧ t ∈ p.triggersOf id := by
  rw [triggersOf, get?_foldl_forget]
  split
  · next hid => exact iff_of_false List.not_mem_nil fun h => h.1 hid
  · next hid => exact (and_iff_right hid).symm

theorem holds_foldl_forget {scheduleIds : List String} :
    (scheduleIds.foldl forget p).Holds k ↔ k.scheduleId ∉ scheduleIds ∧ p.Holds k := by
  simp only [Holds, mem_triggersOf_foldl_forget, and_assoc, exists_and_left]

theorem IsPlaced.foldl_forget (hp : p.IsPlaced) (scheduleIds : List String) :
    (scheduleIds.foldl forget p).IsPlaced := fun id t ht =>
  hp id t (mem_triggersOf_foldl_forget.mp ht).2

end Processor
end Automation
