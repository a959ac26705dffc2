import Automation.Proofs.Processor.Agreement

/-!
# Schedules do not interfere

All schedules share one processor: an event reaches them in one sweep, what fires is sorted together
and written in one batch, and groups cancel whoever is in them.  `Turn.run_isolated` says that none
of this can be noticed.  A schedule's triggers, rows and firings at the end of a run, and so after
every request of it, are what they would have been without any other schedule.

## The run without the others

`Request.only` leaves of a request what concerns one schedule.  Lists of schedules and of ids are
cut down to it, and what is then left without anything to do is left out.  A restoration is never
left out, since it is also about the schedules that it does not list: their rows are deleted.

## Why the stores have to be reliable

Agreement is a matter of rows, and a store that refuses one batch refuses with it what was written
for everyone else.  Counts that are no numbers are refused even by a reliable store, so the run with
all schedules must not produce any (`Turn.Writes`); then the run without the others does not either,
because its outcomes are among those of the other run.
-/

namespace Automation
namespace Processor

/-! ## Requests about one schedule -/

/-- What a request asks for a schedule, if anything. -/
def Request.only (id : String) : Request → Option Request
  | .update schedules now =>
    let own := schedules.filter fun schedule => schedule.id = id
    if own.isEmpty then none else some (.update own now)
  | .restore schedules now =>
    some (.restore (schedules.filter fun schedule => schedule.id = id) now)
  | .enter scheduleId state now =>
    if scheduleId = id then some (.enter scheduleId state now) else none
  | .cancel scheduleIds =>
    let own := scheduleIds.filter fun scheduleId => scheduleId = id
    if own.isEmpty then none else some (.cancel own)
  | .event e now => some (.event e now)
  | .pause paused => some (.pause paused)
  | .cancelGroup group => some (.cancelGroup group)
  | .restart => some .restart

/-- What is left for one schedule defines no other. -/
theorem Request.id_of_only {id : String} {r r' : Request} (h : r.only id = some r')
    {schedule : Schedule} (hschedule : schedule ∈ r'.schedules) : schedule.id = id := by
  have hown : ∀ schedules : List Schedule,
      schedule ∈ schedules.filter (fun schedule => schedule.id = id) → schedule.id = id :=
    fun _ hmem => of_decide_eq_true (List.mem_filter.mp hmem).2
  unfold Request.only at h
  split at h
  · next schedules now =>
    simp only at h
    split at h
    · cases h
    · cases h
      exact hown schedules hschedule
  · next schedules now =>
    cases h
    exact hown schedules hschedule
  · split at h <;> cases h
    cases hschedule
  · simp only at h
    split at h <;> cases h
    cases hschedule
  all_goals
    cases h
    cases hschedule

variable {id : String} {p p' : Processor} {s s' : Store}

/-- Where only one schedule is prepared, a store takes what is left to be written if it does so for
a processor that agrees on that schedule. -/
theorem Writes.alone (h : p.AgreesOn id p') (hs' : s'.Allows .writeProgress)
    (halone : ∀ other ts, p'.prepared.get? other = some ts → other = id) {event : Event}
    {now : Instant} (hr : p.Writes s (.event event now)) : p'.Writes s' (.event event now) := by
  by_cases hpaused : p.paused = true
  · exact Or.inl (h.paused.trans hpaused)
  · refine Or.inr (Store.command_answer_of_ok hs' (Tables.writeProgress_of_numbers ?_ s'.tables))
    intro q hq
    obtain ⟨o, ho, rfl⟩ := List.mem_map.mp hq
    obtain ⟨ts, hts, ho⟩ := List.mem_flatMap.mp ho
    obtain ⟨other, hget⟩ := (Table.mem_values_iff _ _).mp hts
    have hother := halone other ts hget
    subst hother
    rw [h.prepared] at hget
    have hvalue := (Table.mem_values_iff _ _).mpr ⟨other, hget⟩
    exact hr.numbers hpaused o (List.mem_flatMap.mpr ⟨ts, hvalue, ho⟩)

end Processor

namespace Turn

open Processor

variable {id : String} {t t' : Turn}

/-- The run without the others prepares nothing else. -/
theorem alone_run_only (s : Store) (rs : List Request) (id other : String) (ts : List Prepared)
    (h : ((start s).run (rs.filterMap (Request.only id))).processor.prepared.get? other = some ts) :
    other = id := by
  have hknows := (knows_run s (rs.filterMap (Request.only id))).prepared other
  rw [h] at hknows
  obtain ⟨schedule, hschedule, -⟩ := Option.map_eq_some_iff.mp hknows.symm
  obtain ⟨rfl, r', hr', hmem⟩ := exists_request_of_defined hschedule
  obtain ⟨r, -, hr⟩ := List.mem_filterMap.mp hr'
  exact Request.id_of_only hr hmem

theorem agreesOn_update (h : t.AgreesOn id t') (ht : t.IsSound) (ht' : t'.IsSound) (now : Instant)
    (schedules : List Schedule) :
    (t.processor.updateSchedules t.store now schedules).AgreesOn id
      (t'.processor.updateSchedules t'.store now
        (schedules.filter fun schedule => schedule.id = id)) := by
  have hbefore : AgreesOn id ⟨t.processor, t.store, []⟩ ⟨t'.processor, t'.store, []⟩ :=
    ⟨h.processor, h.store, rfl⟩
  rw [updateSchedules, updateSchedules, ← filter_sortBy]
  exact agreesOn_foldl_registerOne hbefore ⟨ht.reliable, ht.proper.owns⟩
    ⟨ht'.reliable, ht'.proper.owns⟩ now _

theorem mem_filter_id {id : String} {scheduleIds : List String} :
    id ∈ scheduleIds.filter (fun scheduleId => scheduleId = id) ↔ id ∈ scheduleIds := by
  rw [List.mem_filter]
  exact and_iff_left (decide_eq_true rfl)

/-- **One request.**  It leaves turns that agree on a schedule in agreement, if of the one turn only
what concerns the schedule is asked. -/
theorem agreesOn_serve (h : t.AgreesOn id t') (ht : t.IsSound) (ht' : t'.IsSound) {r : Request}
    (hr : t.processor.Writes t.store r)
    (hr' : ∀ r' ∈ r.only id, t'.processor.Writes t'.store r') :
    (t.serve r).AgreesOn id (t'.run (r.only id).toList) := by
  cases r with
  | event event now =>
    exact h.followedBy (agreesOn_processEvent h.processor h.store ht.proper ht'.proper
      (ht.reliable _) (ht'.reliable _) hr (hr' _ rfl))
  | pause paused =>
    exact h.followedBy ⟨⟨h.processor.prepared, h.processor.groups, h.processor.lastState, rfl⟩,
      h.store, rfl⟩
  | update schedules now =>
    have hupdated := agreesOn_update h ht ht' now schedules
    unfold Request.only
    simp only
    split
    · next hnone =>
      -- there is nothing to define, and nothing has been done
      rw [List.isEmpty_iff.mp hnone] at hupdated
      have hall : AgreesOn id (t.serve (.update schedules now))
          (t'.followedBy ⟨t'.processor, t'.store, []⟩) := h.followedBy hupdated
      rwa [followedBy_nil] at hall
    · exact h.followedBy hupdated
  | restore schedules now =>
    have hupdated := agreesOn_update h ht ht' now schedules
    have hsound := isSound_foldl_registerOne (t := ⟨t.processor, t.store, []⟩)
      ⟨ht.reliable, ht.proper⟩ now (sortBy Schedule.priority schedules)
    have hsound' := isSound_foldl_registerOne (t := ⟨t'.processor, t'.store, []⟩)
      ⟨ht'.reliable, ht'.proper⟩ now
      (sortBy Schedule.priority (schedules.filter fun schedule => schedule.id = id))
    refine h.followedBy ⟨hupdated.processor, ?_, hupdated.fired⟩
    refine agreesOn_keepSchedules hupdated.store (hsound.reliable _) (hsound'.reliable _) ?_
    rw [List.mem_map, List.mem_map]
    simp only [List.mem_filter, decide_eq_true_eq]
    exact ⟨fun ⟨schedule, ⟨hmem, _⟩, hid⟩ => ⟨schedule, hmem, hid⟩,
      fun ⟨schedule, hmem, hid⟩ => ⟨schedule, ⟨hmem, hid⟩, hid⟩⟩
  | enter scheduleId state now =>
    unfold Request.only
    simp only
    split
    · next hid =>
      subst hid
      exact h.followedBy (agreesOn_applyState h.processor h.store
        (fun _ => ht.proper.mem_triggersOf) (ht.reliable _) (ht'.reliable _) now state)
    · next hid =>
      have haside := agreesOn_applyState_aside (fun _ => ht.proper.mem_triggersOf)
        (ht.reliable _) hid now state
      exact haside.aside.symm.trans h
  | cancel scheduleIds =>
    unfold Request.only
    simp only
    split
    · next hnone =>
      have hid : id ∉ scheduleIds := fun hmem => by
        have hown := mem_filter_id.mpr hmem
        rw [List.isEmpty_iff.mp hnone] at hown
        cases hown
      exact (agreesOn_cancel_aside t.store hid).aside.symm.trans h
    · exact h.followedBy (agreesOn_cancel h.processor h.store (ht.reliable _) (ht'.reliable _)
        mem_filter_id)
  | cancelGroup group =>
    exact h.followedBy (agreesOn_cancelGroup h.processor h.store (ht.reliable _) (ht'.reliable _)
      group)
  | restart => exact h.followedBy ⟨.refl _, h.store, rfl⟩

/-- What is asked for a schedule is taken by the store, if all that is asked is. -/
theorem writes_only (h : t.AgreesOn id t') (ht' : t'.IsSound)
    (halone : ∀ other ts, t'.processor.prepared.get? other = some ts → other = id) {r : Request}
    (hr : t.processor.Writes t.store r) :
    ∀ r' ∈ r.only id, t'.processor.Writes t'.store r' := by
  intro r' hr'
  cases r with
  | event event now =>
    cases hr'
    exact Processor.Writes.alone h.processor (ht'.reliable _) halone hr
  | update schedules now | cancel scheduleIds =>
    unfold Request.only at hr'
    simp only at hr'
    split at hr' <;> cases hr'
    trivial
  | enter scheduleId state now =>
    unfold Request.only at hr'
    simp only at hr'
    split at hr' <;> cases hr'
    trivial
  | pause paused | restore schedules now | cancelGroup group | restart =>
    cases hr'
    trivial

/-- A whole run, and the run that is asked for one schedule. -/
theorem agreesOn_run {s : Store} (hs : s.IsReliable) {rs : List Request}
    (hrs : (start s).Writes rs) (id : String) :
    ((start s).run rs).IsSound ∧ ((start s).run (rs.filterMap (Request.only id))).IsSound ∧
      ((start s).run rs).AgreesOn id ((start s).run (rs.filterMap (Request.only id))) := by
  induction rs using List.reverseRecOn with
  | nil => exact ⟨.start hs, .start hs, .refl _⟩
  | append_singleton rs r ih =>
    rw [writes_append] at hrs
    obtain ⟨hsound, hsound', hagrees⟩ := ih hrs.1
    have hr := hrs.2.1
    have hr' := writes_only hagrees hsound' (alone_run_only s rs id) hr
    have hlast : [r].filterMap (Request.only id) = (r.only id).toList := by
      cases honly : r.only id <;> simp [honly]
    rw [run_append, List.filterMap_append, hlast, run_append]
    refine ⟨hsound.serve hr, ?_, agreesOn_serve hagrees hsound hsound' hr hr'⟩
    cases honly : r.only id with
    | none => exact hsound'
    | some r' => exact hsound'.serve (hr' r' honly)

/-- **Schedules do not interfere.**  What a run over a store that does not fail fires for a schedule,
what it leaves prepared for it and what it leaves in its rows is what the run of the same requests
without any other schedule fires and leaves. -/
theorem run_isolated {s : Store} (hs : s.IsReliable) {rs : List Request}
    (hrs : (start s).Writes rs) (id : String) :
    let all := (start s).run rs
    let own := (start s).run (rs.filterMap (Request.only id))
    (own.fired.filter fun f => f.scheduleId = id) =
        (all.fired.filter fun f => f.scheduleId = id) ∧
      own.processor.prepared.get? id = all.processor.prepared.get? id ∧
      ∀ triggerId, own.store.tables.progress.get? ⟨id, triggerId⟩ =
        all.store.tables.progress.get? ⟨id, triggerId⟩ := by
  obtain ⟨-, -, hagrees⟩ := agreesOn_run hs hrs id
  exact ⟨hagrees.fired, hagrees.processor.prepared, hagrees.store⟩

/-- A schedule with one trigger that counts custom events. -/
def neighbour (id : String) (group : Option String) (goal : Int) : Schedule :=
  ⟨id, group, 0, ⟨none, none⟩, [⟨"a", .customEvent, .ofInt goal, none⟩], [], [], .idle⟩

/-- Two schedules share events and, one after the other, a group.  When it is cancelled one of them
has left it. -/
def sharedRequests : List Request :=
  [.restore [neighbour "r" none 1, neighbour "s" (some "g") 2] .epoch,
    .event (.occurred .customEvent none 0) .epoch, .update [neighbour "r" (some "g") 1] .epoch,
    .update [neighbour "s" none 2] .epoch, .cancelGroup "g",
    .event (.occurred .customEvent none 0) .epoch]

/-- Of two firings one is that of the other schedule, and the run without it has the other one. -/
theorem run_isolated_shared :
    ((start (.ofTables .empty)).run sharedRequests).fired.length = 2 ∧
      (((start (.ofTables .empty)).run (sharedRequests.filterMap (Request.only "s"))).fired.filter
        fun f => f.scheduleId = "s").length = 1 := by
  have hwrites : (start (.ofTables .empty)).Writes sharedRequests :=
    ⟨trivial, Or.inr (by decide +kernel), trivial, trivial, trivial, Or.inr (by decide +kernel),
      trivial⟩
  refine ⟨by decide +kernel, ?_⟩
  rw [(run_isolated (Store.isReliable_ofTables .empty) hwrites "s").1]
  decide +kernel

end Turn
end Automation
