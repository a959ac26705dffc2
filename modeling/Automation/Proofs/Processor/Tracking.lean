import Automation.Proofs.Processor.Counts
import Automation.Proofs.Processor.Defining
import Automation.Proofs.Processor.Requests

/-!
# Following one trigger

The progress of a trigger is in two places, beside the prepared trigger and in the store, and the
engine never compares them.  `Follows` says that they agree: what is prepared, if anything is, has
the progress that the store would give back.  Defining a schedule relies on it, since a trigger that
was prepared is taken over and one that was not is read, and nobody looks which of the two it is.

The theorems here say how defining a schedule and feeding an event keep the two places in agreement.
In both cases what is written for one trigger has to be told from what is written for all others.
-/

namespace Automation

/-- The store gives this progress back: its row holds it, or there is no row and it is what a
trigger begins with. -/
def Store.Remembers (s : Store) (progress : Progress) : Prop :=
  s.progressRow progress.key = some (Tables.rowOfProgress progress) ∨
    s.progressRow progress.key = none ∧ progress = .fresh progress.scheduleId progress.triggerId

theorem Store.Remembers.of_progressRow {s s' : Store} {progress : Progress}
    (h : s.Remembers progress)
    (hrow : s'.progressRow progress.key = s.progressRow progress.key) : s'.Remembers progress := by
  rw [Store.Remembers, hrow]
  exact h

/-- What is remembered is recalled. -/
theorem Store.Remembers.recalled {s : Store} {progress : Progress} (h : s.Remembers progress)
    (hcount : progress.count.dropZeroSign = progress.count) :
    (s.recalled progress.key).getD (.fresh progress.scheduleId progress.triggerId) = progress := by
  rcases h with hrow | ⟨hrow, hfresh⟩
  · rw [recalled_eq_some hrow hcount]
    rfl
  · rw [recalled_eq_none hrow]
    exact hfresh.symm

namespace Processor

/-- The progress of a trigger of a schedule, agreed upon by the processor and the store. -/
structure Follows (scheduleId : String) (trigger : Trigger) (progress : Progress) (p : Processor)
    (s : Store) : Prop where
  key : progress.key = ⟨scheduleId, trigger.id⟩
  remembered : s.Remembers progress
  carried : Carries trigger progress (p.triggersOf scheduleId)

section Following

variable {scheduleId : String} {trigger : Trigger} {progress : Progress} {p : Processor} {s : Store}

theorem Follows.scheduleId_eq (h : Follows scheduleId trigger progress p s) :
    progress.scheduleId = scheduleId := congrArg ProgressKey.scheduleId h.key

theorem Follows.triggerId_eq (h : Follows scheduleId trigger progress p s) :
    progress.triggerId = trigger.id := congrArg ProgressKey.triggerId h.key

/-! ## Defining schedules -/

/-- What is found for a trigger that is followed is the trigger with its progress, whether it was
prepared before or not. -/
theorem Follows.found (h : Follows scheduleId trigger progress p s)
    (hcount : progress.count.dropZeroSign = progress.count) {schedule : Schedule}
    (hid : schedule.id = scheduleId) :
    (found s.recalled schedule (withId trigger.id (p.triggersOf scheduleId)).getLast? trigger
      .execution).progress = progress := by
  have hrecalled := h.remembered.recalled hcount
  rw [h.key, h.scheduleId_eq, h.triggerId_eq, ← hid] at hrecalled
  rcases h.carried with hnone | ⟨t, hone, htrigger, hkind, hprogress⟩
  · rw [hnone]
    exact hrecalled
  · rw [hone, List.getLast?_singleton, Processor.found,
      Option.filter_some_pos (by simpa using hkind)]
    exact hprogress

/-- The definition that a schedule has for one of its execution triggers, among all of them. -/
theorem Defines.definitions {schedule : Schedule} (h : Defines schedule trigger) :
    ∃ before after, schedule.definitions = before ++ (trigger, .execution) :: after ∧
      ∀ d ∈ before ++ after, d.1.id ≠ trigger.id := by
  obtain ⟨before, after, htriggers, hothers⟩ := h
  refine ⟨before.map (·, .execution),
    after.map (·, .execution) ++ schedule.cancellationTriggers.map (·, .delayCancellation), ?_, ?_⟩
  · rw [Schedule.definitions, htriggers, List.map_append, List.map_cons, List.append_assoc,
      List.cons_append]
  · intro d hd
    simp only [List.mem_append, List.mem_map] at hd
    simp only [List.mem_append] at hothers
    rcases hd with ⟨t, ht, rfl⟩ | ⟨t, ht, rfl⟩ | ⟨t, ht, rfl⟩
    · exact hothers t (Or.inl (Or.inl ht))
    · exact hothers t (Or.inl (Or.inr ht))
    · exact hothers t (Or.inr ht)

/-- The work on the schedule of a trigger that is followed: the trigger is prepared once, with its
progress, and nothing is dropped for it. -/
theorem Follows.apart_syncWork (h : Follows scheduleId trigger progress p s) (hp : p.IsProper)
    (hs : s.Allows .readProgress) (hcount : progress.count.dropZeroSign = progress.count)
    (hbelow : (!progress.count.isZero && !progress.count.lt trigger.goal) = false)
    {schedule : Schedule} (hid : schedule.id = scheduleId) (hdefines : Defines schedule trigger) :
    (p.syncWork s schedule).Apart trigger.id none
      [Processor.found s.recalled schedule (withId trigger.id (p.triggersOf scheduleId)).getLast?
        trigger .execution] := by
  obtain ⟨before, after, hdefinitions, hothers⟩ := hdefines.definitions
  have hstart := sound_start (hp.owns schedule.id) s
  have hempty : Sync.Apart trigger.id (withId trigger.id (p.triggersOf scheduleId)).getLast? []
      ⟨.ofList ((p.triggersOf schedule.id).map fun t => (t.trigger.id, t)), s, [], []⟩ :=
    ⟨hid ▸ get?_ofList_triggers _ _, rfl, List.forall_mem_nil _⟩
  rw [syncWork, hdefinitions, List.foldl_append, List.foldl_cons]
  refine Sync.Apart.foldl_add hs (fun d hd => hothers d (List.mem_append_right _ hd))
    ((hstart.foldl_add hs before).add hs _) (Sync.Apart.add hs (hstart.foldl_add hs before) ?_ ?_)
  · exact Sync.Apart.foldl_add hs (fun d hd => hothers d (List.mem_append_left _ hd)) hstart hempty
  · rw [Prepared.exceedsGoal, h.found hcount hid, found_trigger]
    exact hbelow

/-- Defining schedules does not touch the progress of a trigger that keeps its definition. -/
theorem Follows.syncSchedule (h : Follows scheduleId trigger progress p s) (hp : p.IsProper)
    (hs : s.Allows .readProgress) (hcount : progress.count.dropZeroSign = progress.count)
    (hbelow : (!progress.count.isZero && !progress.count.lt trigger.goal) = false)
    {schedule : Schedule} (hdefines : schedule.id = scheduleId → Defines schedule trigger) :
    Follows scheduleId trigger progress (p.syncSchedule s schedule).1
      (p.syncSchedule s schedule).2 := by
  have hsound : (p.syncWork s schedule).Sound schedule s := sound_syncWork (hp.owns _) hs
  by_cases hid : schedule.id = scheduleId
  · have hapart := h.apart_syncWork hp hs hcount hbelow hid (hdefines hid)
    have hprepared := hapart.prepared
    refine ⟨h.key, h.remembered.of_progressRow ?_, ?_⟩
    · refine progressRow_syncSchedule (fun q hq hkey => ?_) (fun _ hstale => ?_) hsound.read
      · exact hapart.reset q hq ((congrArg ProgressKey.triggerId hkey).trans h.triggerId_eq)
      · rw [Sync.stale, List.mem_filter, Bool.not_eq_true', ← Bool.not_eq_true,
          List.contains_iff_mem] at hstale
        have hmem := (List.mem_filter.mp (hprepared ▸ List.mem_singleton_self _)).1
        refine hstale.2 (List.mem_map.mpr ⟨_, hmem, ?_⟩)
        rw [found_trigger, h.key]
    · rw [Carries, triggersOf, get?_syncSchedule, if_pos hid.symm]
      exact Or.inr ⟨_, hprepared, found_trigger, found_kind, h.found hcount hid⟩
  · refine ⟨h.key, h.remembered.of_progressRow ?_, ?_⟩
    · refine progressRow_syncSchedule (fun q hq hkey => ?_) (fun hsame => ?_) hsound.read
      · have hsame := congrArg ProgressKey.scheduleId hkey
        exact hid ((hsound.reset q hq).1.symm.trans (hsame.trans h.scheduleId_eq))
      · exact absurd (hsame.symm.trans h.scheduleId_eq) hid
    · rw [triggersOf, get?_syncSchedule, if_neg (Ne.symm hid)]
      exact h.carried

/-! ## Feeding events -/

/-- What has been written is remembered, if it is for the trigger, and otherwise what was. -/
theorem remembers_persist (hs : s.Allows .writeProgress) (h : s.Remembers progress)
    {ps : List Progress} (hps : ∀ q ∈ ps, q.count ≠ .nan) {next : Progress}
    (hkey : next.key = progress.key)
    (hwritten : (ps.filter fun q => q.key = progress.key) = [next] ∨
      (ps.filter fun q => q.key = progress.key) = [] ∧ next = progress) :
    (persist s ps).Remembers next := by
  rcases hwritten with hone | ⟨hnone, rfl⟩
  · exact Or.inl (progressRow_persist hs hps (hkey.symm ▸ hone))
  · refine h.of_progressRow (progressRow_persist_of_ne fun q hq hq' => ?_)
    exact List.filter_eq_nil_iff.mp hnone q hq (decide_eq_true hq')

/-- What happens when an event is fed to triggers, of which some may be those of a schedule with a
trigger that is followed and has counted `k` events. -/
theorem Follows.settle (h : Follows scheduleId trigger progress p s) (hs : s.Allows .writeProgress)
    (htype : trigger.type ≠ .customEventValue) (hgoal : trigger.goal.IsCountable) {k : Nat}
    (hcount : progress.count = .ofNat (k % trigger.goal.ceil)) {event : Event} {now : Instant}
    {ts : List Prepared} (hcarries : Carries trigger progress ts) {os : List (Int × Outcome)}
    (hof : ofTrigger ⟨scheduleId, trigger.id⟩ os = outcomes event now (withId trigger.id ts))
    (hnumbers : ∀ o ∈ os, o.2.progress.count ≠ .nan)
    (hfirings : ∀ o ∈ os, ∀ f ∈ o.2.firing, isFiringOf o.2.progress.key f = true) {p' : Processor}
    (hp' : p'.triggersOf scheduleId = feed event now ts) :
    ∃ next, Follows scheduleId trigger next p' (persist s (os.map (·.2.progress))) ∧
      next.count = .ofNat ((k + hits trigger.id event now ts) % trigger.goal.ceil) ∧
      k / trigger.goal.ceil + (firings os).countP (isFiringOf ⟨scheduleId, trigger.id⟩) =
        (k + hits trigger.id event now ts) / trigger.goal.ceil := by
  obtain ⟨next, hkey, hnext, hnextCount, hfired, hwritten⟩ :=
    hcarries.feed htype hgoal hcount event now
  have hfilter : ((os.map (·.2.progress)).filter fun q => q.key = progress.key) =
      (outcomes event now (withId trigger.id ts)).map (·.2.progress) := by
    rw [List.filter_map, ← hof, h.key]
    rfl
  refine ⟨next, ⟨hkey.trans h.key, ?_, hp' ▸ hnext⟩, hnextCount, ?_⟩
  · refine remembers_persist hs h.remembered (fun q hq => ?_) hkey (hfilter ▸ hwritten)
    obtain ⟨o, ho, rfl⟩ := List.mem_map.mp hq
    exact hnumbers o ho
  · rw [countP_firings hfirings, hof, hfired]

end Following

/-! ## Numbers stay numbers -/

section Numbers

variable {event : Event} {now : Instant} {id : String} {ts : List Prepared}

/-- Triggers stay under their schedule when an event is fed to them, if what is to be written is a
number. -/
theorem isFor_feed (hts : ∀ t ∈ ts, t.IsFor id)
    (hnumbers : ∀ o ∈ outcomes event now ts, o.2.progress.count ≠ .nan) :
    ∀ t ∈ feed event now ts, t.IsFor id := by
  intro t' ht'
  obtain ⟨t, ht, rfl⟩ := List.mem_map.mp ht'
  refine (hts t ht).process ?_
  cases hprocess : (t.process event now).2 with
  | none =>
    rw [Prepared.process_fst_of_snd_eq_none hprocess]
    exact (hts t ht).count
  | some o =>
    rw [← (Prepared.process_snd hprocess).1]
    exact hnumbers (t.priority, o) (mem_outcomes.mpr ⟨t, ht, hprocess, rfl⟩)

/-- What a state leaves to be written is a number. -/
theorem count_outcomes_stateChanged (hts : ∀ t ∈ ts, t.IsFor id) (state : AppState) :
    ∀ o ∈ outcomes (.stateChanged state) now ts, o.2.progress.count ≠ .nan := by
  intro o ho
  obtain ⟨t, ht, hprocess, -⟩ := mem_outcomes.mp ho
  rw [(Prepared.process_snd hprocess).1]
  exact Prepared.count_process_stateChanged (hts t ht).count

/-- What a store has written is numbers. -/
theorem numbers_of_writeProgress {s : Store} {ps : List Progress}
    (h : (s.writeProgress ps).1 = .ok ()) : ∀ q ∈ ps, q.count ≠ .nan := by
  intro q hq hnan
  have hany : (ps.any fun q => q.count = .nan) = true :=
    List.any_eq_true.mpr ⟨q, hq, decide_eq_true hnan⟩
  rw [Store.writeProgress, Store.command] at h
  simp only [Tables.writeProgress, hany, if_true] at h
  split at h
  · cases h
  · split at h <;> cases h

end Numbers

end Processor
end Automation
