import Automation.Proofs.Processor.Succession
import Mathlib.Data.List.Induction

/-!
# What is defined at present

Which schedules are defined after a run can be read off the requests: a schedule is defined by the
last request that names it, until it is cancelled, by itself or with its group, or the processor
ends.  `defined` keeps that list.  It does not look at any processor, and `Knows` says that the
processor agrees with it: prepared are the schedules of the list and no others, each with the
triggers of its definition in their order, and the groups have the members that the definitions say.

The groups matter for one thing only, that cancelling a group cancels the schedules that were last
defined with it.
-/

namespace Automation
namespace Processor

/-! ## The list -/

/-- The schedules that a request defines. -/
def Request.schedules : Request → List Schedule
  | .update schedules _ | .restore schedules _ => schedules
  | .event _ _ | .pause _ | .enter _ _ _ | .cancel _ | .cancelGroup _ | .restart => []

/-- One more definition. -/
def note (defs : Table String Schedule) (schedule : Schedule) : Table String Schedule :=
  defs.insert schedule.id schedule

/-- What is defined after a request.  Of two definitions of one schedule in a request the one with
the higher priority number comes last. -/
def Request.define (defs : Table String Schedule) : Request → Table String Schedule
  | .update schedules _ | .restore schedules _ =>
    (sortBy Schedule.priority schedules).foldl note defs
  | .cancel scheduleIds => defs.filter fun id _ => !scheduleIds.contains id
  | .cancelGroup group => defs.filter fun _ schedule => schedule.group ≠ some group
  | .restart => .empty
  | .event _ _ | .pause _ | .enter _ _ _ => defs

/-- What is defined after a run from the start. -/
def defined (rs : List Request) : Table String Schedule := rs.foldl Request.define .empty

theorem defined_append_singleton (rs : List Request) (r : Request) :
    defined (rs ++ [r]) = r.define (defined rs) := by
  rw [defined, List.foldl_append]
  rfl

theorem get?_foldl_note {schedules : List Schedule} {defs : Table String Schedule} {id : String}
    {schedule : Schedule} (h : (schedules.foldl note defs).get? id = some schedule) :
    defs.get? id = some schedule ∨ schedule.id = id ∧ schedule ∈ schedules := by
  induction schedules generalizing defs with
  | nil => exact Or.inl h
  | cons first rest ih =>
    rcases ih h with hnoted | ⟨hid, hmem⟩
    · rw [note, Table.get?_insert] at hnoted
      split at hnoted
      · next hid =>
        cases hnoted
        exact Or.inr ⟨hid.symm, List.mem_cons_self⟩
      · exact Or.inl hnoted
    · exact Or.inr ⟨hid, List.mem_cons_of_mem _ hmem⟩

/-- A definition is listed under its own id, and a request has brought it. -/
theorem exists_request_of_defined {rs : List Request} {id : String} {schedule : Schedule}
    (h : (defined rs).get? id = some schedule) :
    schedule.id = id ∧ ∃ r ∈ rs, schedule ∈ r.schedules := by
  induction rs using List.reverseRecOn with
  | nil => cases h
  | append_singleton rs r ih =>
    have hlater : (defined rs).get? id = some schedule →
        schedule.id = id ∧ ∃ r' ∈ rs ++ [r], schedule ∈ r'.schedules := fun hbefore => by
      obtain ⟨hid, r', hr', hmem⟩ := ih hbefore
      exact ⟨hid, r', List.mem_append_left _ hr', hmem⟩
    have hdefined : ∀ schedules, r.schedules = schedules →
        ((sortBy Schedule.priority schedules).foldl note (defined rs)).get? id = some schedule →
          schedule.id = id ∧ ∃ r' ∈ rs ++ [r], schedule ∈ r'.schedules := fun schedules hr hget => by
      rcases get?_foldl_note hget with hbefore | ⟨hid, hmem⟩
      · exact hlater hbefore
      · refine ⟨hid, r, List.mem_append_right _ (List.mem_singleton_self r), ?_⟩
        rw [hr]
        exact (perm_sortBy _ _).mem_iff.mp hmem
    rw [defined_append_singleton] at h
    cases r with
    | update schedules now => exact hdefined schedules rfl h
    | restore schedules now => exact hdefined schedules rfl h
    | cancel scheduleIds => exact hlater ((Table.get?_filter_eq_some_iff _ _ _ _).mp h).1
    | cancelGroup group => exact hlater ((Table.get?_filter_eq_some_iff _ _ _ _).mp h).1
    | restart => cases h
    | event event now => exact hlater h
    | pause paused => exact hlater h
    | enter scheduleId state now => exact hlater h

/-! ## Groups -/

/-- The schedules of a group. -/
def members (groups : Table String (List String)) (group : String) : List String :=
  (groups.get? group).getD []

section Groups

variable {groups : Table String (List String)} {group id scheduleId : String}

theorem mem_members_iff :
    id ∈ members groups group ↔ ∃ ids, groups.get? group = some ids ∧ id ∈ ids := by
  rw [members]
  cases groups.get? group with
  | none => simp
  | some ids => simp

theorem mem_members_leaveGroups :
    id ∈ members (leaveGroups groups scheduleId) group ↔
      id ∈ members groups group ∧ id ≠ scheduleId := by
  have hleft : ∀ ids, (leaveGroups groups scheduleId).get? group = some ids ↔
      (groups.get? group).map (List.filter (· ≠ scheduleId)) = some ids ∧
        (!ids.isEmpty) = true := fun ids => by
    rw [leaveGroups, Table.get?_filter_eq_some_iff, Table.get?_map]
  simp only [mem_members_iff, hleft]
  constructor
  · rintro ⟨ids, ⟨hids, -⟩, hid⟩
    obtain ⟨before, hbefore, rfl⟩ := Option.map_eq_some_iff.mp hids
    obtain ⟨hmem, hne⟩ := List.mem_filter.mp hid
    exact ⟨⟨before, hbefore, hmem⟩, of_decide_eq_true hne⟩
  · rintro ⟨⟨before, hbefore, hmem⟩, hne⟩
    have hid : id ∈ before.filter (· ≠ scheduleId) :=
      List.mem_filter.mpr ⟨hmem, decide_eq_true hne⟩
    refine ⟨_, ⟨Option.map_eq_some_iff.mpr ⟨before, hbefore, rfl⟩, ?_⟩, hid⟩
    rw [Bool.not_eq_true', List.isEmpty_eq_false_iff]
    exact List.ne_nil_of_mem hid

theorem mem_members_joinGroup {joined : String} :
    id ∈ members (joinGroup groups joined scheduleId) group ↔
      id ∈ members groups group ∨ group = joined ∧ id = scheduleId := by
  rw [joinGroup, members, Table.get?_insert]
  by_cases hgroup : group = joined
  · subst hgroup
    rw [if_pos rfl, Option.getD_some, members]
    simp only [true_and]
    split
    · next hmem =>
      rw [List.contains_iff_mem] at hmem
      exact ⟨Or.inl, fun h => h.elim (fun h => h) fun h => h ▸ hmem⟩
    · rw [List.mem_append, List.mem_singleton]
  · rw [if_neg hgroup, members]
    simp only [hgroup, false_and, or_false]

theorem mem_members_regroup {schedule : Schedule} :
    id ∈ members (regroup groups schedule) group ↔
      id ∈ members groups group ∧ id ≠ schedule.id ∨
        id = schedule.id ∧ schedule.group = some group := by
  rw [regroup]
  cases hjoined : schedule.group with
  | none =>
    simp only [reduceCtorEq, and_false, or_false]
    exact mem_members_leaveGroups
  | some joined =>
    simp only [mem_members_joinGroup, mem_members_leaveGroups, Option.some.injEq]
    rw [and_comm (a := id = schedule.id), eq_comm (a := group)]

end Groups

/-! ## A processor that knows the list -/

/-- Triggers as their definitions have them. -/
def roles (ts : List Prepared) : List (Trigger × Execution) := ts.map fun t => (t.trigger, t.kind)

/-- The schedules of a list are prepared and no others, with the triggers of their definitions, and
the groups are those of the definitions. -/
structure Knows (defs : Table String Schedule) (p : Processor) : Prop where
  prepared : ∀ id, (p.prepared.get? id).map roles = (defs.get? id).map Schedule.definitions
  groups : ∀ group id, id ∈ members p.groups group ↔
    ∃ schedule, defs.get? id = some schedule ∧ schedule.group = some group

section Roles

variable {event : Event} {now : Instant} {state : ScheduleState} {ts : List Prepared}

theorem roles_map {f : Prepared → Prepared} (htrigger : ∀ t, (f t).trigger = t.trigger)
    (hkind : ∀ t, (f t).kind = t.kind) (ts : List Prepared) : roles (ts.map f) = roles ts := by
  rw [roles, roles, List.map_map]
  refine List.map_congr_left fun t _ => ?_
  rw [Function.comp_apply, htrigger, hkind]

theorem roles_feed : roles (feed event now ts) = roles ts :=
  roles_map (fun t => t.process_trigger) (fun t => by
    obtain ⟨progress, hprocess, -⟩ := t.process_fst event now
    rw [hprocess]) ts

theorem roles_enter : roles (ts.map (enter state)) = roles ts :=
  roles_map (enter_trigger state) (enter_kind state) ts

end Roles

variable {defs : Table String Schedule} {p : Processor} {s : Store}

theorem knows_empty : Knows .empty .empty := by
  refine ⟨fun _ => rfl, fun group id => ⟨fun h => ?_, fun h => ?_⟩⟩
  · cases h
  · obtain ⟨_, hdefined, -⟩ := h
    cases hdefined

/-- The triggers of a schedule that is known are those of its definition. -/
theorem Knows.roles_triggersOf (h : Knows defs p) (id : String) :
    roles (p.triggersOf id) = ((defs.get? id).map Schedule.definitions).getD [] := by
  rw [← h.prepared, triggersOf]
  cases p.prepared.get? id <;> rfl

/-- A trigger that is prepared is one of a definition. -/
theorem Knows.exists_definition (h : Knows defs p) {id : String} {t : Prepared}
    (ht : t ∈ p.triggersOf id) :
    ∃ schedule, defs.get? id = some schedule ∧ (t.trigger, t.kind) ∈ schedule.definitions := by
  have hrole : (t.trigger, t.kind) ∈ roles (p.triggersOf id) :=
    List.mem_map_of_mem (f := fun t : Prepared => (t.trigger, t.kind)) ht
  rw [h.roles_triggersOf] at hrole
  cases hschedule : defs.get? id with
  | none =>
    rw [hschedule] at hrole
    cases hrole
  | some schedule =>
    rw [hschedule] at hrole
    exact ⟨schedule, rfl, hrole⟩

theorem Knows.of_roles (h : Knows defs p) {p' : Processor}
    (hprepared : ∀ id, (p'.prepared.get? id).map roles = (p.prepared.get? id).map roles)
    (hgroups : p'.groups = p.groups) : Knows defs p' :=
  ⟨fun id => (hprepared id).trans (h.prepared id), hgroups ▸ h.groups⟩

/-! ## One operation -/

theorem Knows.processEvent (h : Knows defs p) (s : Store) (event : Event) (now : Instant) :
    Knows defs (p.processEvent s event now).processor := by
  by_cases hpaused : p.paused = true
  · rw [processEvent_of_paused hpaused]
    cases event <;> exact ⟨h.prepared, h.groups⟩
  · rw [processEvent_of_not_paused hpaused]
    refine h.of_roles (fun id => ?_) (by cases event <;> rfl)
    show ((p.prepared.map fun _ => feed event now).get? id).map roles = _
    rw [Table.get?_map, Option.map_map]
    exact congrArg (Option.map · _) (funext fun ts => roles_feed)

theorem Knows.entering (h : Knows defs p) (scheduleId : String) (state : ScheduleState) :
    Knows defs (p.entering scheduleId state) := by
  refine h.of_roles (fun id => ?_) rfl
  rw [get?_entering]
  split
  · rw [Option.map_map]
    exact congrArg (Option.map · _) (funext fun ts => roles_enter)
  · rfl

theorem Knows.applyState (h : Knows defs p) (s : Store) (now : Instant) (scheduleId : String)
    (state : ScheduleState) : Knows defs (p.applyState s now scheduleId state).processor := by
  have hentering := h.entering scheduleId state
  cases hrefed : p.refed? scheduleId state with
  | none =>
    rw [applyState_of_refed?_eq_none hrefed]
    exact hentering
  | some fed =>
    obtain ⟨last, ts⟩ := fed
    obtain ⟨hts, happly⟩ := applyState_of_refed?_eq_some hrefed s now
    rw [happly]
    refine hentering.of_roles (fun id => ?_) rfl
    show ((p.prepared.insert scheduleId (feed (.stateChanged last) now ts)).get? id).map roles = _
    rw [Table.get?_insert]
    split
    · next hid =>
      rw [hid, hts, Option.map_some, Option.map_some, roles_feed]
    · next hid => rw [get?_entering, if_neg hid]

/-- What is prepared for a definition is the trigger of the definition, whatever can be read. -/
theorem prepareOne_role (schedule : Schedule) (existing : Option Prepared) (s : Store)
    (trigger : Trigger) (kind : Execution) :
    (prepareOne schedule existing s trigger kind).1.trigger = trigger ∧
      (prepareOne schedule existing s trigger kind).1.kind = kind := by
  rw [prepareOne]
  split
  · next hcurrent => exact ⟨rfl, of_decide_eq_true (Option.filter_eq_some_iff.mp hcurrent).2⟩
  · exact ⟨rfl, rfl⟩

theorem prepared_add (schedule : Schedule) (w : Sync) (d : Trigger × Execution) :
    (w.add schedule d).prepared = w.prepared ++
      [(prepareOne schedule (w.existing.get? d.1.id) w.store d.1 d.2).1.resetIfReached] := rfl

theorem roles_foldl_add (schedule : Schedule) (ds : List (Trigger × Execution)) (w : Sync) :
    roles (ds.foldl (Sync.add schedule) w).prepared = roles w.prepared ++ ds := by
  induction ds generalizing w with
  | nil => rw [List.foldl_nil, List.append_nil]
  | cons d rest ih =>
    obtain ⟨htrigger, hkind⟩ :=
      prepareOne_role schedule (w.existing.get? d.1.id) w.store d.1 d.2
    have hone : roles (w.add schedule d).prepared = roles w.prepared ++ [d] := by
      rw [prepared_add, roles, List.map_append, List.map_singleton,
        Prepared.resetIfReached_trigger, Prepared.resetIfReached_kind, htrigger, hkind]
      rfl
    rw [List.foldl_cons, ih, hone, List.append_assoc, List.singleton_append]

theorem roles_syncWork (p : Processor) (s : Store) (schedule : Schedule) :
    roles (p.syncWork s schedule).prepared = schedule.definitions :=
  roles_foldl_add schedule schedule.definitions _

/-- Defining a schedule adds it to what is known. -/
theorem Knows.syncSchedule (h : Knows defs p) (s : Store) (schedule : Schedule) :
    Knows (note defs schedule) (p.syncSchedule s schedule).1 := by
  refine ⟨fun id => ?_, fun group id => ?_⟩
  · rw [get?_syncSchedule, note, Table.get?_insert]
    split
    · rw [Option.map_some, Option.map_some, roles_syncWork]
    · exact h.prepared id
  · show id ∈ members (regroup p.groups schedule) group ↔ _
    rw [mem_members_regroup, h.groups, note, Table.get?_insert]
    by_cases hid : id = schedule.id
    · simp [hid]
    · simp [hid]

/-! ## Several schedules -/

variable {t : Turn}

theorem Knows.registerOne (h : Knows defs t.processor) (now : Instant) (schedule : Schedule) :
    Knows (note defs schedule) (registerOne now t schedule).processor :=
  (h.syncSchedule t.store schedule).applyState _ now schedule.id schedule.state

theorem Knows.foldl_registerOne (h : Knows defs t.processor) (now : Instant)
    (schedules : List Schedule) :
    Knows (schedules.foldl note defs)
      (schedules.foldl (Processor.registerOne now) t).processor := by
  induction schedules generalizing defs t with
  | nil => exact h
  | cons schedule rest ih => exact ih (h.registerOne now schedule)

/-! ## Cancelling -/

theorem mem_members_foldl_forget {scheduleIds : List String} {group id : String} :
    id ∈ members (scheduleIds.foldl forget p).groups group ↔
      id ∈ members p.groups group ∧ id ∉ scheduleIds := by
  induction scheduleIds generalizing p with
  | nil => exact (and_iff_left List.not_mem_nil).symm
  | cons scheduleId rest ih =>
    rw [List.foldl_cons, ih, forget, mem_members_leaveGroups, List.mem_cons, not_or, and_assoc]

/-- Forgetting schedules takes them off the list, whatever groups they were in. -/
theorem Knows.foldl_forget (h : Knows defs p) {scheduleIds : List String} {p' : Processor}
    (hprepared : p'.prepared = p.prepared)
    (hgroups : ∀ group id, id ∉ scheduleIds →
      (id ∈ members p'.groups group ↔ id ∈ members p.groups group)) :
    Knows (defs.filter fun id _ => !scheduleIds.contains id)
      (scheduleIds.foldl Processor.forget p') := by
  have hget : ∀ id, (defs.filter fun id _ => !scheduleIds.contains id).get? id =
      if id ∈ scheduleIds then none else defs.get? id := fun id => by
    rw [Table.get?_filter_key defs fun id => !scheduleIds.contains id]
    by_cases hid : id ∈ scheduleIds
    · simp [hid]
    · simp [hid]
  refine ⟨fun id => ?_, fun group id => ?_⟩
  · rw [get?_foldl_forget, hget, hprepared]
    split
    · rfl
    · exact h.prepared id
  · rw [mem_members_foldl_forget, hget]
    by_cases hid : id ∈ scheduleIds
    · simp [hid]
    · rw [if_neg hid, hgroups group id hid, h.groups]
      exact and_iff_left hid

theorem Knows.cancel (h : Knows defs p) (s : Store) (scheduleIds : List String) :
    Knows (defs.filter fun id _ => !scheduleIds.contains id) (p.cancel s scheduleIds).processor :=
  h.foldl_forget rfl fun _ _ _ => Iff.rfl

/-- Cancelling a group cancels what is defined with it. -/
theorem Knows.cancelGroup (h : Knows defs p) (s : Store) (group : String) :
    Knows (defs.filter fun _ schedule => schedule.group ≠ some group)
      (p.cancelGroup s group).processor := by
  have hsame : (defs.filter fun _ schedule => schedule.group ≠ some group) =
      defs.filter fun id _ => !(members p.groups group).contains id := by
    refine Table.eq_of_get?_eq fun id => Option.ext fun schedule => ?_
    rw [Table.get?_filter_eq_some_iff, Table.get?_filter_eq_some_iff, decide_eq_true_eq,
      Bool.not_eq_true', ← Bool.not_eq_true, List.contains_iff_mem, h.groups]
    refine and_congr_right fun hget => not_congr ⟨fun hgroup => ⟨schedule, hget, hgroup⟩, ?_⟩
    rintro ⟨other, hother, hgroup⟩
    rw [hget] at hother
    cases hother
    exact hgroup
  rw [hsame, Processor.cancelGroup, members]
  cases hids : p.groups.get? group with
  | none => exact h.foldl_forget  rfl fun _ _ _ => Iff.rfl
  | some ids =>
    refine h.foldl_forget rfl fun other id hid => ?_
    rw [members, Table.get?_erase, members]
    split
    · next hother =>
      rw [hother, hids]
      exact iff_of_false List.not_mem_nil hid
    · rfl

/-! ## A request -/

/-- Every request leaves known what is defined then, whatever the store refuses. -/
theorem Knows.serve (h : Knows defs t.processor) (r : Request) :
    Knows (r.define defs) (t.serve r).processor := by
  have hupdated : ∀ schedules now,
      Knows ((sortBy Schedule.priority schedules).foldl note defs)
        (t.processor.updateSchedules t.store now schedules).processor := fun schedules now =>
    Knows.foldl_registerOne (t := ⟨t.processor, t.store, []⟩) h now _
  cases r with
  | event event now => exact h.processEvent t.store event now
  | pause paused => exact ⟨h.prepared, h.groups⟩
  | update schedules now => exact hupdated schedules now
  | restore schedules now => exact hupdated schedules now
  | enter scheduleId state now => exact h.applyState t.store now scheduleId state
  | cancel scheduleIds => exact h.cancel t.store scheduleIds
  | cancelGroup group => exact h.cancelGroup t.store group
  | restart => exact knows_empty

/-- After a run from the start what is defined is known. -/
theorem knows_run (s : Store) (rs : List Request) :
    Knows (defined rs) ((Turn.start s).run rs).processor := by
  induction rs using List.reverseRecOn with
  | nil => exact knows_empty
  | append_singleton rs r ih =>
    rw [defined_append_singleton, Turn.run_append]
    exact ih.serve r

end Processor
end Automation
