import Automation.Proofs.Processor.Agreement

/-!
# Schedules are defined in any order

Schedules that are defined together share the groups, the store and the remembered state.  Still it
does not matter in which order they are listed, if they are different ones:
`updateSchedules_perm`.  The proof does not commute two of them.  What a schedule sees of the work is
what it would see if it were defined alone (`agreesOn_foldl_registerOne`), which holds in any order,
so both orders agree on every schedule; and what agrees on every schedule is equal but for the order
of the firings.  That order is the one of the priorities, `exists_labelled_fired`.

Nothing is assumed of the counts.  A processor may have counted up to what is no number, but the
triggers that are fed while schedules are defined have just been settled.
-/

namespace Automation

/-- Firings in the order of the priorities of the schedules that they are of. -/
def InPriorityOrder (schedules : List Schedule) (fs : List Firing) : Prop :=
  ∃ labelled : List (Schedule × Firing), fs = labelled.map (·.2) ∧
    (∀ x ∈ labelled, x.1 ∈ schedules ∧ x.2.scheduleId = x.1.id) ∧
    labelled.Pairwise fun x y => x.1.priority ≤ y.1.priority

/-- What is the same for every schedule is the same but for the order. -/
theorem perm_of_firedOf_eq {fs fs' : List Firing} (h : ∀ id, firedOf id fs' = firedOf id fs) :
    fs'.Perm fs := by
  classical
  refine List.perm_iff_count.mpr fun f => ?_
  have hcount := congrArg (List.count f) (h f.scheduleId)
  have hown : ∀ fs : List Firing, (firedOf f.scheduleId fs).count f = fs.count f := fun fs =>
    List.count_filter (decide_eq_true rfl)
  rwa [hown, hown] at hcount

/-- In a list with distinct keys the key of an element finds it in whatever order. -/
theorem filter_eq_of_perm {α β : Type} [DecidableEq β] {f : α → β} {l l' : List α}
    (hperm : l'.Perm l) (h : (l.map f).Nodup) (b : β) :
    (l'.filter fun a => f a = b) = l.filter fun a => f a = b := by
  by_cases hb : b ∈ l.map f
  · obtain ⟨a, ha, rfl⟩ := List.mem_map.mp hb
    rw [filter_eq_singleton h ha, filter_eq_singleton ((hperm.map f).nodup_iff.mpr h)
      (hperm.mem_iff.mpr ha)]
  · have hnone : ∀ {xs : List α}, xs.Perm l → (xs.filter fun a => f a = b) = [] := fun hxs =>
      List.filter_eq_nil_iff.mpr fun a ha hab =>
        hb (of_decide_eq_true hab ▸ List.mem_map_of_mem (hxs.mem_iff.mp ha))
    rw [hnone hperm, hnone (.refl l)]

namespace Processor

variable {p : Processor} {s : Store} {t : Turn} {schedule : Schedule} {now : Instant}
  {scheduleId : String} {state : ScheduleState}

/-! ## What is written is progress -/

theorem exists_tables_syncSchedule (hread : (p.syncWork s schedule).store.IsReadOf s) :
    ∃ progress, (p.syncSchedule s schedule).2.tables = { s.tables with progress := progress } := by
  obtain ⟨written, hwritten⟩ :=
    exists_tables_persist (p.syncWork s schedule).store (p.syncWork s schedule).reset
  rw [hread.tables] at hwritten
  show ∃ progress, (if (p.syncWork s schedule).stale.isEmpty then _ else _ : Store).tables = _
  split
  · exact ⟨written, hwritten⟩
  · obtain ⟨progress, hdeleted⟩ := Store.exists_tables_deleteTriggers
      (persist (p.syncWork s schedule).store (p.syncWork s schedule).reset) schedule.id
      (p.syncWork s schedule).stale
    rw [hwritten] at hdeleted
    exact ⟨progress, hdeleted⟩

theorem exists_tables_applyState (p : Processor) (s : Store) (now : Instant) (scheduleId : String)
    (state : ScheduleState) :
    ∃ progress, (p.applyState s now scheduleId state).store.tables =
      { s.tables with progress := progress } := by
  cases hrefed : p.refed? scheduleId state with
  | none =>
    rw [applyState_of_refed?_eq_none hrefed]
    exact ⟨s.tables.progress, rfl⟩
  | some fed =>
    rw [(applyState_of_refed?_eq_some hrefed s now).2]
    exact exists_tables_persist s _

theorem exists_tables_foldl_registerOne (ht : t.IsOwned) (now : Instant)
    (schedules : List Schedule) :
    ∃ progress, (schedules.foldl (registerOne now) t).store.tables =
      { t.store.tables with progress := progress } := by
  induction schedules generalizing t with
  | nil => exact ⟨t.store.tables.progress, rfl⟩
  | cons schedule rest ih =>
    obtain ⟨synced, hsynced⟩ :=
      exists_tables_syncSchedule (sound_syncWork (ht.owns schedule.id) (ht.reliable _)).read
    obtain ⟨applied, happlied⟩ := exists_tables_applyState
      (t.processor.syncSchedule t.store schedule).1 (t.processor.syncSchedule t.store schedule).2
      now schedule.id schedule.state
    obtain ⟨progress, hrest⟩ := ih (isOwned_registerOne ht now schedule)
    refine ⟨progress, hrest.trans ?_⟩
    rw [registerOne_eq, Turn.followedBy, happlied, hsynced]

/-! ## What fires -/

theorem mem_firings {os : List (Int × Outcome)} {f : Firing} :
    f ∈ firings os ↔ ∃ o ∈ os, o.2.firing = some f := by
  rw [firings, ((perm_sortBy _ _).map _).mem_iff, List.map_filterMap, List.mem_filterMap]
  simp only [Option.map_map, Function.comp_def, Option.map_id']

/-- What fires when a schedule enters a state is of that schedule. -/
theorem scheduleId_of_mem_applyState (hp : p.Owns scheduleId) {f : Firing}
    (hf : f ∈ (p.applyState s now scheduleId state).fired) : f.scheduleId = scheduleId := by
  cases hrefed : p.refed? scheduleId state with
  | none =>
    rw [applyState_of_refed?_eq_none hrefed] at hf
    cases hf
  | some fed =>
    obtain ⟨last, ts⟩ := fed
    obtain ⟨hts, happly⟩ := applyState_of_refed?_eq_some hrefed s now
    rw [happly] at hf
    obtain ⟨o, ho, hfires⟩ := mem_firings.mp hf
    obtain ⟨u, hu, hprocess, -⟩ := mem_outcomes.mp ho
    have hmem : u ∈ (p.entering scheduleId state).triggersOf scheduleId := by
      rw [triggersOf, hts]
      exact hu
    exact ((Prepared.process_snd hprocess).2 f hfires).1.trans
      ((continues_entering p scheduleId state).owns hp u hmem).schedule

/-- Schedules that are defined in the order of their priority fire in that order. -/
theorem exists_labelled_fired (ht : t.IsOwned) (now : Instant) {schedules : List Schedule}
    (hsorted : schedules.Pairwise fun a b => a.priority ≤ b.priority) :
    ∃ labelled : List (Schedule × Firing),
      (schedules.foldl (registerOne now) t).fired = t.fired ++ labelled.map (·.2) ∧
        (∀ x ∈ labelled, x.1 ∈ schedules ∧ x.2.scheduleId = x.1.id) ∧
        labelled.Pairwise fun x y => x.1.priority ≤ y.1.priority := by
  induction schedules generalizing t with
  | nil => exact ⟨[], (List.append_nil _).symm, List.forall_mem_nil _, .nil⟩
  | cons schedule rest ih =>
    obtain ⟨hfirst, hrest⟩ := List.pairwise_cons.mp hsorted
    obtain ⟨labelled, hfired, hof, hordered⟩ := ih (isOwned_registerOne ht now schedule) hrest
    -- what this schedule fires comes before all that the others fire
    generalize hown : ((t.processor.syncSchedule t.store schedule).1.applyState
      (t.processor.syncSchedule t.store schedule).2 now schedule.id schedule.state).fired = own
    have hownId : ∀ f ∈ own, f.scheduleId = schedule.id := fun f hf =>
      scheduleId_of_mem_applyState
        (owns_syncSchedule ht.owns (ht.reliable _) schedule schedule.id) (hown ▸ hf)
    have hlabels : ∀ x ∈ own.map (Prod.mk schedule), x.1 = schedule ∧ x.2 ∈ own := fun x hx => by
      obtain ⟨f, hf, rfl⟩ := List.mem_map.mp hx
      exact ⟨rfl, hf⟩
    refine ⟨own.map (Prod.mk schedule) ++ labelled, ?_, ?_, List.pairwise_append.mpr ⟨?_, hordered, ?_⟩⟩
    · have hunlabelled : (own.map (Prod.mk schedule)).map (·.2) = own := by
        rw [List.map_map]
        exact List.map_id' own
      rw [List.foldl_cons, hfired, registerOne_eq, Turn.followedBy, hown, List.map_append,
        hunlabelled, List.append_assoc]
    · intro x hx
      rcases List.mem_append.mp hx with hx | hx
      · obtain ⟨hlabel, hmem⟩ := hlabels x hx
        exact ⟨hlabel ▸ List.mem_cons_self, (hownId x.2 hmem).trans (hlabel ▸ rfl)⟩
      · exact ⟨List.mem_cons_of_mem _ (hof x hx).1, (hof x hx).2⟩
    · exact List.pairwise_map.mpr (List.pairwise_of_forall fun _ _ => le_rfl)
    · intro x hx y hy
      rw [(hlabels x hx).1]
      exact hfirst y.1 (hof y hy).1

/-! ## Both orders -/

/-- Two orders of different schedules agree on every schedule. -/
theorem agreesOn_updateSchedules_perm (ht : Turn.IsOwned ⟨p, s, []⟩) (now : Instant)
    {schedules schedules' : List Schedule} (hperm : schedules'.Perm schedules)
    (hnodup : (schedules.map (·.id)).Nodup) (id : String) :
    (p.updateSchedules s now schedules).AgreesOn id (p.updateSchedules s now schedules') := by
  have hsorted : (sortBy Schedule.priority schedules').Perm (sortBy Schedule.priority schedules) :=
    (perm_sortBy _ _).trans (hperm.trans (perm_sortBy _ _).symm)
  have hdistinct : ((sortBy Schedule.priority schedules).map (·.id)).Nodup :=
    ((perm_sortBy Schedule.priority schedules).map Schedule.id).nodup_iff.mpr hnodup
  have halone : ∀ xs : List Schedule, (xs.foldl (registerOne now) ⟨p, s, []⟩).AgreesOn id
      ((xs.filter fun schedule => schedule.id = id).foldl (registerOne now) ⟨p, s, []⟩) :=
    agreesOn_foldl_registerOne (.refl _) ht ht now
  have hone := halone (sortBy Schedule.priority schedules')
  rw [filter_eq_of_perm hsorted hdistinct id] at hone
  exact (halone (sortBy Schedule.priority schedules)).trans hone.symm

/-- **Any order.**  Different schedules that are defined together over a store that does not fail
leave the same triggers, the same members of every group and the same tables whatever order they are
listed in, and what they fire is the same in the order of their priorities. -/
theorem updateSchedules_perm (hp : ∀ id, p.Owns id) (hs : s.IsReliable) (now : Instant)
    {schedules schedules' : List Schedule} (hperm : schedules'.Perm schedules)
    (hnodup : (schedules.map (·.id)).Nodup) :
    let t := p.updateSchedules s now schedules
    let t' := p.updateSchedules s now schedules'
    t'.processor.prepared = t.processor.prepared ∧
      (∀ group id, id ∈ members t'.processor.groups group ↔ id ∈ members t.processor.groups group) ∧
      t'.store.tables = t.store.tables ∧ t'.fired.Perm t.fired ∧
      InPriorityOrder schedules t.fired ∧ InPriorityOrder schedules t'.fired := by
  have ht : Turn.IsOwned ⟨p, s, []⟩ := ⟨hs, hp⟩
  have hagrees := agreesOn_updateSchedules_perm ht now hperm hnodup
  have hordered : ∀ {xs : List Schedule}, xs.Perm schedules →
      InPriorityOrder schedules (p.updateSchedules s now xs).fired := fun hxs => by
    obtain ⟨labelled, hfired, hof, hsorted⟩ :=
      exists_labelled_fired ht now (sorted_sortBy Schedule.priority _)
    refine ⟨labelled, hfired, fun x hx => ⟨?_, (hof x hx).2⟩, hsorted⟩
    exact ((perm_sortBy _ _).trans hxs).mem_iff.mp (hof x hx).1
  refine ⟨Table.eq_of_get?_eq fun id => (hagrees id).processor.prepared,
    fun group id => (hagrees id).processor.groups group, ?_,
    perm_of_firedOf_eq fun id => (hagrees id).fired, hordered (.refl _), hordered hperm⟩
  obtain ⟨progress, htables⟩ :=
    exists_tables_foldl_registerOne ht now (sortBy Schedule.priority schedules)
  obtain ⟨progress', htables'⟩ :=
    exists_tables_foldl_registerOne ht now (sortBy Schedule.priority schedules')
  have hrows : progress' = progress := Table.eq_of_get?_eq fun k => by
    have hrow := (hagrees k.scheduleId).store k.triggerId
    rw [Store.progressRow, Store.progressRow, updateSchedules, updateSchedules, htables,
      htables'] at hrow
    exact hrow
  rw [updateSchedules, updateSchedules, htables, htables', hrows]

end Processor
end Automation
