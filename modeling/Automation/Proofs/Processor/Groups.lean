import Automation.Proofs.Processor.Catalogue
import Automation.Proofs.Store.ProgressRows

/-!
# The groups of a processor

The groups are kept beside the schedules, as lists of ids, and four operations edit them: a
definition moves its schedule, and cancelling, by id or by group, takes schedules out.  Two facts say
that the lists never differ from the definitions.

* Who is in a group is told by the definitions: this is the second field of `Knows`, which every
  request keeps.
* No list is empty and none has an id twice: this is `IsTidy`.  It is about the lists alone, and is
  kept because whoever leaves a group takes along a list that becomes empty.

Cancelling a group looks at its list and at nothing else, so what it removes is what the list has.
`groups_run` puts the three together.
-/

namespace Automation
namespace Processor

/-! ## The lists -/

/-- Every recorded group has members, and each of them once. -/
def IsTidy (groups : Table String (List String)) : Prop :=
  ∀ group ids, groups.get? group = some ids → ids ≠ [] ∧ ids.Nodup

section Lists

variable {groups : Table String (List String)}

theorem isTidy_empty : IsTidy .empty := fun _ _ h => by cases h

theorem IsTidy.nodup_members (h : IsTidy groups) (group : String) :
    (members groups group).Nodup := by
  rw [members]
  cases hids : groups.get? group with
  | none => exact List.nodup_nil
  | some ids => exact (h group ids hids).2

/-- Leaving takes along the lists that become empty. -/
theorem IsTidy.leaveGroups (h : IsTidy groups) (scheduleId : String) :
    IsTidy (leaveGroups groups scheduleId) := by
  intro group ids hids
  rw [Processor.leaveGroups, Table.get?_filter_eq_some_iff, Table.get?_map] at hids
  obtain ⟨hmap, hnonempty⟩ := hids
  obtain ⟨before, hbefore, rfl⟩ := Option.map_eq_some_iff.mp hmap
  refine ⟨?_, (h group before hbefore).2.filter _⟩
  rwa [Bool.not_eq_true', List.isEmpty_eq_false_iff] at hnonempty

/-- Joining adds an id that is not yet in the list. -/
theorem IsTidy.joinGroup (h : IsTidy groups) (joined scheduleId : String) :
    IsTidy (joinGroup groups joined scheduleId) := by
  intro group ids hids
  have hmembers := h.nodup_members joined
  rw [members] at hmembers
  rw [Processor.joinGroup, Table.get?_insert] at hids
  split at hids
  · cases hids
    split
    · next hmem => exact ⟨List.ne_nil_of_mem (List.contains_iff_mem.mp hmem), hmembers⟩
    · next hmem =>
      have hnew : scheduleId ∉ (groups.get? joined).getD [] :=
        fun h => hmem (List.contains_iff_mem.mpr h)
      refine ⟨List.append_ne_nil_of_right_ne_nil _ (List.cons_ne_nil _ _), ?_⟩
      exact List.nodup_append_comm.mp (List.nodup_cons.mpr ⟨hnew, hmembers⟩)
  · exact h group ids hids

theorem IsTidy.regroup (h : IsTidy groups) (schedule : Schedule) :
    IsTidy (regroup groups schedule) := by
  rw [Processor.regroup]
  cases schedule.group with
  | none => exact h.leaveGroups schedule.id
  | some joined => exact (h.leaveGroups schedule.id).joinGroup joined schedule.id

theorem IsTidy.erase (h : IsTidy groups) (erased : String) : IsTidy (groups.erase erased) := by
  intro group ids hids
  rw [Table.get?_erase] at hids
  split at hids
  · cases hids
  · exact h group ids hids

end Lists

/-! ## A request -/

variable {p : Processor} {t : Turn}

theorem groups_processEvent (p : Processor) (s : Store) (event : Event) (now : Instant) :
    (p.processEvent s event now).processor.groups = p.groups := by
  by_cases hpaused : p.paused = true
  · rw [processEvent_of_paused hpaused]
    cases event <;> rfl
  · rw [processEvent_of_not_paused hpaused]
    cases event <;> rfl

theorem groups_applyState (p : Processor) (s : Store) (now : Instant) (scheduleId : String)
    (state : ScheduleState) : (p.applyState s now scheduleId state).processor.groups = p.groups := by
  cases hrefed : p.refed? scheduleId state with
  | none => rw [applyState_of_refed?_eq_none hrefed]; rfl
  | some fed => rw [(applyState_of_refed?_eq_some hrefed s now).2]; rfl

theorem IsTidy.foldl_registerOne (h : IsTidy t.processor.groups) (now : Instant)
    (schedules : List Schedule) :
    IsTidy (schedules.foldl (registerOne now) t).processor.groups := by
  induction schedules generalizing t with
  | nil => exact h
  | cons schedule rest ih =>
    refine ih (t := registerOne now t schedule) ?_
    show IsTidy (Processor.applyState _ _ now schedule.id schedule.state).processor.groups
    rw [groups_applyState]
    exact h.regroup schedule

theorem IsTidy.foldl_forget (h : IsTidy p.groups) (scheduleIds : List String) :
    IsTidy (scheduleIds.foldl forget p).groups := by
  induction scheduleIds generalizing p with
  | nil => exact h
  | cons scheduleId rest ih => exact ih (p := p.forget scheduleId) (h.leaveGroups scheduleId)

theorem IsTidy.cancelGroup (h : IsTidy p.groups) (s : Store) (group : String) :
    IsTidy (p.cancelGroup s group).processor.groups := by
  rw [Processor.cancelGroup]
  split
  · exact h
  · next ids hids => exact IsTidy.foldl_forget (h.erase group) ids

/-- Every request leaves the lists tidy, whatever the store refuses. -/
theorem IsTidy.serve (h : IsTidy t.processor.groups) (r : Request) :
    IsTidy (t.serve r).processor.groups := by
  have hupdated : ∀ schedules now,
      IsTidy (t.processor.updateSchedules t.store now schedules).processor.groups :=
    fun schedules now => IsTidy.foldl_registerOne (t := ⟨t.processor, t.store, []⟩) h now _
  cases r with
  | event event now =>
    show IsTidy (t.processor.processEvent t.store event now).processor.groups
    rw [groups_processEvent]
    exact h
  | pause paused => exact h
  | update schedules now => exact hupdated schedules now
  | restore schedules now => exact hupdated schedules now
  | enter scheduleId state now =>
    show IsTidy (t.processor.applyState t.store now scheduleId state).processor.groups
    rw [groups_applyState]
    exact h
  | cancel scheduleIds => exact IsTidy.foldl_forget h scheduleIds
  | cancelGroup group => exact h.cancelGroup t.store group
  | restart => exact isTidy_empty

theorem isTidy_run (s : Store) (rs : List Request) :
    IsTidy ((Turn.start s).run rs).processor.groups := by
  induction rs using List.reverseRecOn with
  | nil => exact isTidy_empty
  | append_singleton rs r ih =>
    rw [Turn.run_append]
    exact ih.serve r

/-! ## Cancelling a group -/

/-- Cancelling a group forgets its members. -/
theorem get?_cancelGroup (p : Processor) (s : Store) (group id : String) :
    (p.cancelGroup s group).processor.prepared.get? id =
      if id ∈ members p.groups group then none else p.prepared.get? id := by
  rw [cancelGroup, members]
  split
  · next hnone =>
    rw [hnone]
    exact (if_neg List.not_mem_nil).symm
  · next ids hids =>
    rw [hids]
    exact get?_foldl_forget ids _ id

/-- If the store lets it, cancelling a group deletes the progress of its members and nothing
else. -/
theorem tables_cancelGroup {p : Processor} {s : Store} {group : String}
    (h : (s.deleteSchedules (members p.groups group)).1 = .ok ()) :
    (p.cancelGroup s group).store.tables = s.tables.deleteSchedules (members p.groups group) := by
  rw [members] at h ⊢
  rw [cancelGroup]
  cases hids : p.groups.get? group with
  | none =>
    have hall : (s.tables.progress.filter fun _ _ => true) = s.tables.progress :=
      Table.eq_of_get?_eq fun k => Table.get?_filter_key s.tables.progress (fun _ => true) k
    exact congrArg (fun progress => { s.tables with progress := progress }) hall.symm
  | some ids =>
    rw [hids] at h
    have hdeleted : Except.ok (s.tables.deleteSchedules ids) =
        .ok (s.deleteSchedules ids).2.tables := Store.write_of_command_answer h
    exact (Except.ok.inj hdeleted).symm

/-! ## After a run -/

/-- The group that a schedule is defined with at present. -/
def groupAfter (rs : List Request) (id : String) : Option String :=
  ((defined rs).get? id).bind Schedule.group

/-- In a group are the schedules that are prepared and defined with it. -/
theorem mem_members_run (s : Store) (rs : List Request) (group id : String) :
    id ∈ members ((Turn.start s).run rs).processor.groups group ↔ groupAfter rs id = some group := by
  rw [(knows_run s rs).groups, groupAfter, Option.bind_eq_some_iff]

/-- What is defined with a group is prepared. -/
theorem isSome_prepared_of_groupAfter (s : Store) {rs : List Request} {group id : String}
    (h : groupAfter rs id = some group) :
    (((Turn.start s).run rs).processor.prepared.get? id).isSome = true := by
  obtain ⟨schedule, hschedule, -⟩ := Option.bind_eq_some_iff.mp h
  have hprepared := (knows_run s rs).prepared id
  rw [hschedule, Option.map_some] at hprepared
  obtain ⟨ts, hts, -⟩ := Option.map_eq_some_iff.mp hprepared
  rw [hts]
  rfl

/-- **The groups are those of the definitions.**  After any run, whatever its store refuses, the
members of a group are the schedules that are prepared and were last defined with it; no recorded
group is empty or has a member twice, and no schedule is in two groups.  So cancelling a group
forgets the schedules that are defined with it at present and no others, and deletes their progress
and nothing else if the store lets it. -/
theorem groups_run (s : Store) (rs : List Request) :
    let t := (Turn.start s).run rs
    (∀ group id, id ∈ members t.processor.groups group ↔
        (t.processor.prepared.get? id).isSome = true ∧ groupAfter rs id = some group) ∧
      (∀ group ids, t.processor.groups.get? group = some ids → ids ≠ [] ∧ ids.Nodup) ∧
      (∀ id group group', id ∈ members t.processor.groups group →
        id ∈ members t.processor.groups group' → group = group') ∧
      ∀ group,
        let cancelled := t.processor.cancelGroup t.store group
        (∀ id, cancelled.processor.prepared.get? id =
          if groupAfter rs id = some group then none else t.processor.prepared.get? id) ∧
        ((t.store.deleteSchedules (members t.processor.groups group)).1 = .ok () →
          cancelled.store.tables = { t.store.tables with
            progress := t.store.tables.progress.filter fun k _ =>
              groupAfter rs k.scheduleId ≠ some group }) := by
  intro t
  have hmembers := mem_members_run s rs
  refine ⟨fun group id => ?_, isTidy_run s rs, fun id group group' hid hid' => ?_, fun group =>
    ⟨fun id => ?_, fun hdeleted => ?_⟩⟩
  · rw [hmembers]
    exact (and_iff_right_of_imp (isSome_prepared_of_groupAfter s)).symm
  · rw [hmembers] at hid hid'
    exact Option.some.inj (hid.symm.trans hid')
  · rw [get?_cancelGroup]
    simp only [t, hmembers]
  · have hkeep : ∀ k : ProgressKey, (!(members t.processor.groups group).contains k.scheduleId) =
        decide (groupAfter rs k.scheduleId ≠ some group) := fun k => by
      rw [List.contains_eq_mem, decide_not, decide_eq_decide.mpr (hmembers group k.scheduleId)]
    rw [tables_cancelGroup hdeleted, Tables.deleteSchedules]
    simp only [hkeep]

/-- A schedule with one trigger that counts custom events, in a group or in none. -/
def grouped (id : String) (group : Option String) : Schedule :=
  ⟨id, group, 0, ⟨none, none⟩, [⟨"a", .customEvent, .ofInt 9, none⟩], [], [], .idle⟩

/-- One schedule joins a group and another one leaves it, defined twice in one request. -/
def regroupingRequests : List Request :=
  [.restore [grouped "r" none, grouped "s" (some "g")] .epoch,
    .update [grouped "s" (some "g"), grouped "r" (some "g"), grouped "s" (some "h")] .epoch,
    .event (.occurred .customEvent none 0) .epoch]

/-- The schedule that has joined goes with the group, and its row with it.  The one that has left
stays. -/
theorem groups_run_regrouping :
    let t := (Turn.start (.ofTables .empty)).run regroupingRequests
    let cancelled := t.processor.cancelGroup t.store "g"
    members t.processor.groups "g" = ["r"] ∧
      t.store.tables.progress.keys = [⟨"r", "a"⟩, ⟨"s", "a"⟩] ∧
      cancelled.processor.prepared.get? "r" = none ∧
      cancelled.processor.prepared.get? "s" = t.processor.prepared.get? "s" ∧
      cancelled.store.tables.progress.keys = [⟨"s", "a"⟩] := by
  intro t cancelled
  obtain ⟨-, -, -, hcancel⟩ := groups_run (.ofTables .empty) regroupingRequests
  obtain ⟨hforgotten, hrows⟩ := hcancel "g"
  have hok : (t.store.deleteSchedules (members t.processor.groups "g")).1.isOk = true := by
    decide +kernel
  have hdeleted : (t.store.deleteSchedules (members t.processor.groups "g")).1 = .ok () := by
    revert hok
    cases (t.store.deleteSchedules (members t.processor.groups "g")).1 with
    | ok => exact fun _ => rfl
    | error => exact fun hok => by cases hok
  refine ⟨by decide +kernel, by decide +kernel, ?_, ?_, ?_⟩
  · exact (hforgotten "r").trans (if_pos (by decide +kernel))
  · exact (hforgotten "s").trans (if_neg (by decide +kernel))
  · show cancelled.store.tables.progress.keys = _
    rw [hrows hdeleted]
    decide +kernel

end Processor
end Automation
