import Automation.Proofs.Processor.Holding

/-!
# Triggers are bound to the latest definition

A prepared trigger carries four things of its schedule: the id, under which it keeps its progress
and fires, the window and the priority.  They are copied when the schedule is defined and looked at
later, when an event comes.  `bound_run` says that they are those of the definition that counts at
present, after any run over any store.  A trigger that is taken over gets the new window and
priority, and one that is prepared anew is bound to the schedule even if nothing could be read.

Between definitions triggers go on (`Continues`), and cancelling only removes some.
-/

namespace Automation

/-- A trigger stands under a schedule, with its window and priority. -/
structure Prepared.IsBound (schedule : Schedule) (t : Prepared) : Prop where
  isOf : t.IsOf schedule.id
  window : t.window = schedule.window
  priority : t.priority = schedule.priority

theorem Prepared.IsBound.resetIfReached {schedule : Schedule} {t : Prepared}
    (h : t.IsBound schedule) : t.resetIfReached.IsBound schedule := by
  rw [Prepared.resetIfReached]
  split
  · exact ⟨⟨h.isOf.schedule, h.isOf.key⟩, h.window, h.priority⟩
  · exact h

namespace Processor

/-- Every trigger stands under its schedule, and those of a schedule that is defined have its window
and priority. -/
structure Bound (defs : Table String Schedule) (p : Processor) : Prop where
  owns : ∀ id, p.Owns id
  bound : ∀ id schedule, defs.get? id = some schedule →
    ∀ t ∈ p.triggersOf id, t.window = schedule.window ∧ t.priority = schedule.priority

variable {defs defs' : Table String Schedule} {p p' : Processor} {s : Store} {t : Turn}
  {schedule : Schedule}

theorem bound_empty (defs : Table String Schedule) : Bound defs .empty :=
  ⟨fun _ _ ht => absurd ht List.not_mem_nil, fun _ _ _ _ ht => absurd ht List.not_mem_nil⟩

/-- Whatever becomes of progress, triggers stay bound. -/
theorem Bound.continue (h : Bound defs p) (hp : p.Continues p') : Bound defs p' := by
  refine ⟨fun id => hp.owns (h.owns id), fun id schedule hschedule t' ht' => ?_⟩
  obtain ⟨t, ht, hsame⟩ := hp.exists_mem ht'
  obtain ⟨hwindow, hpriority⟩ := h.bound id schedule hschedule t ht
  exact ⟨hsame.window.trans hwindow, hsame.priority.trans hpriority⟩

/-- So do the triggers that are left, and they are not bound to more. -/
theorem Bound.of_fewer (h : Bound defs p)
    (hdefs : ∀ id schedule, defs'.get? id = some schedule → defs.get? id = some schedule)
    (hp : ∀ id, ∀ t ∈ p'.triggersOf id, t ∈ p.triggersOf id) : Bound defs' p' :=
  ⟨fun id t ht => h.owns id t (hp id t ht), fun id schedule hschedule t ht =>
    h.bound id schedule (hdefs id schedule hschedule) t (hp id t ht)⟩

/-! ## Defining a schedule -/

/-- What is read for a trigger is its own progress, from any store. -/
theorem key_loadProgress {scheduleId triggerId : String} {progress : Progress}
    (h : (loadProgress s scheduleId triggerId).1 = some progress) :
    progress.key = ⟨scheduleId, triggerId⟩ := by
  rw [loadProgress] at h
  split at h
  · next hread =>
    refine Store.key_of_recalled (s := s) ?_
    rw [Store.recalled, Store.read_of_query hread]
    exact h
  · cases h

/-- What is prepared for a definition is bound to the schedule, whatever can be read. -/
theorem isBound_prepareOne {existing : Option Prepared} {trigger : Trigger}
    (hexisting : ∀ t ∈ existing, t.trigger.id = trigger.id ∧ t.IsOf schedule.id) (s : Store)
    (kind : Execution) : (prepareOne schedule existing s trigger kind).1.IsBound schedule := by
  rw [prepareOne]
  split
  · next current hcurrent =>
    obtain ⟨hid, hof⟩ := hexisting current (Option.filter_eq_some_iff.mp hcurrent).1
    exact ⟨⟨hof.schedule, hof.key.trans (congrArg (ProgressKey.mk schedule.id) hid)⟩, rfl, rfl⟩
  · refine ⟨⟨rfl, ?_⟩, rfl, rfl⟩
    cases hread : (loadProgress s schedule.id trigger.id).1 with
    | none =>
      simp only [hread]
      rfl
    | some progress =>
      simp only [hread]
      exact key_loadProgress hread

theorem isBound_foldl_add (ds : List (Trigger × Execution)) {w : Sync}
    (hexisting : ∀ id t, w.existing.get? id = some t → t.trigger.id = id ∧ t.IsOf schedule.id)
    (hw : ∀ t ∈ w.prepared, t.IsBound schedule) :
    ∀ t ∈ (ds.foldl (Sync.add schedule) w).prepared, t.IsBound schedule := by
  induction ds generalizing w with
  | nil => exact hw
  | cons d rest ih =>
    refine ih (fun id t ht => ?_) fun t ht => ?_
    · have hrest : (w.existing.erase d.1.id).get? id = some t := ht
      rw [Table.get?_erase] at hrest
      split at hrest
      · cases hrest
      · exact hexisting id t hrest
    · rw [prepared_add, List.mem_append, List.mem_singleton] at ht
      rcases ht with ht | rfl
      · exact hw t ht
      · exact (isBound_prepareOne (fun t ht => hexisting d.1.id t ht) w.store d.2).resetIfReached

/-- A schedule that is defined has its triggers bound to it. -/
theorem Bound.syncSchedule (h : Bound defs p) (s : Store) (schedule : Schedule) :
    Bound (note defs schedule) (p.syncSchedule s schedule).1 := by
  have hbound : ∀ t ∈ (p.syncWork s schedule).prepared, t.IsBound schedule := by
    refine isBound_foldl_add schedule.definitions (fun id t ht => ?_) (List.forall_mem_nil _)
    rw [get?_ofList_triggers] at ht
    obtain ⟨hmem, hid⟩ := List.mem_filter.mp (List.mem_of_getLast? ht)
    exact ⟨of_decide_eq_true hid, h.owns schedule.id t hmem⟩
  refine ⟨fun id t ht => ?_, fun id other hother t ht => ?_⟩
  · rw [triggersOf_syncSchedule] at ht
    split at ht
    · next hid => exact hid ▸ (hbound t ht).isOf
    · exact h.owns id t ht
  · rw [triggersOf_syncSchedule] at ht
    rw [note, Table.get?_insert] at hother
    split at ht
    · next hid =>
      rw [if_pos hid] at hother
      cases hother
      exact ⟨(hbound t ht).window, (hbound t ht).priority⟩
    · next hid =>
      rw [if_neg hid] at hother
      exact h.bound id other hother t ht

/-! ## Several schedules -/

theorem Bound.registerOne (h : Bound defs t.processor) (now : Instant) (schedule : Schedule) :
    Bound (note defs schedule) (registerOne now t schedule).processor :=
  (h.syncSchedule t.store schedule).continue
    (continues_applyState _ _ now schedule.id schedule.state)

theorem Bound.foldl_registerOne (h : Bound defs t.processor) (now : Instant)
    (schedules : List Schedule) :
    Bound (schedules.foldl note defs)
      (schedules.foldl (Processor.registerOne now) t).processor := by
  induction schedules generalizing defs t with
  | nil => exact h
  | cons schedule rest ih => exact ih (h.registerOne now schedule)

/-! ## A request -/

/-- Every request leaves triggers bound to what is defined then, whatever the store refuses. -/
theorem Bound.serve (h : Bound defs t.processor) (r : Request) :
    Bound (r.define defs) (t.serve r).processor := by
  have hupdated : ∀ schedules now,
      Bound ((sortBy Schedule.priority schedules).foldl note defs)
        (t.processor.updateSchedules t.store now schedules).processor := fun schedules now =>
    Bound.foldl_registerOne (t := ⟨t.processor, t.store, []⟩) h now _
  have hfewer : ∀ keep : String → Schedule → Bool, ∀ id schedule,
      (defs.filter keep).get? id = some schedule → defs.get? id = some schedule :=
    fun keep id schedule hget => ((Table.get?_filter_eq_some_iff _ _ _ _).mp hget).1
  cases r with
  | event event now => exact h.continue (continues_processEvent _ _ event now)
  | pause paused => exact h.continue (.of_triggersOf fun _ => rfl)
  | update schedules now => exact hupdated schedules now
  | restore schedules now => exact hupdated schedules now
  | enter scheduleId state now => exact h.continue (continues_applyState _ _ now scheduleId state)
  | cancel scheduleIds =>
    exact h.of_fewer (hfewer _) fun _ _ hu => (mem_triggersOf_foldl_forget.mp hu).2
  | cancelGroup group =>
    refine h.of_fewer (hfewer _) ?_
    show ∀ id, ∀ u ∈ (t.processor.cancelGroup t.store group).processor.triggersOf id, _
    rw [cancelGroup]
    split
    · exact fun _ _ hu => hu
    · exact fun _ _ hu => (mem_triggersOf_foldl_forget.mp hu).2
  | restart => exact bound_empty _

/-- After a run from the start every trigger is bound to what is defined. -/
theorem bound_run (s : Store) (rs : List Request) :
    Bound (defined rs) ((Turn.start s).run rs).processor := by
  induction rs using List.reverseRecOn with
  | nil => exact bound_empty _
  | append_singleton rs r ih =>
    rw [defined_append_singleton, Turn.run_append]
    exact ih.serve r

end Processor
end Automation
