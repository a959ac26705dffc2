import Automation.Proofs.Processor.Soundness

/-!
# No missed and no duplicate firings

An execution trigger that has counted `k` events has fired `k / n` times, where `n` is the natural
that its goal asks for.  This holds at every point of every run, whatever else is asked of the
processor, and in particular over restarts.

## What is counted

`Turn.matched` goes through a run beside the processor and counts the events that the trigger was
fed while it listened and that its rule counted.  It looks at what was fed and never at the count or
at what fired, so the theorem compares two different things.

## What is asked of a run

`Turn.Keeps` says that the trigger keeps its place: whoever defines its schedule defines the trigger
as before, whoever restores names its schedule, and nobody cancels it.  Everything else about the
schedule may change, and so may all other schedules.
-/

namespace Automation
namespace Processor

/-- A request leaves a trigger of a schedule as it is defined. -/
def Keeps (scheduleId : String) (trigger : Trigger) (p : Processor) : Request → Prop
  | .update schedules _ => ∀ schedule ∈ schedules, schedule.id = scheduleId → Defines schedule trigger
  | .restore schedules _ =>
    (∀ schedule ∈ schedules, schedule.id = scheduleId → Defines schedule trigger) ∧
      scheduleId ∈ schedules.map (·.id)
  | .cancel scheduleIds => scheduleId ∉ scheduleIds
  | .cancelGroup group => ∀ scheduleIds, p.groups.get? group = some scheduleIds →
      scheduleId ∉ scheduleIds
  | .event _ _ | .pause _ | .enter _ _ _ | .restart => True

/-! ## What is matched -/

/-- For how many triggers with a key the remembered state counts when a schedule enters a state. -/
def matchedOnEntering (k : ProgressKey) (p : Processor) (now : Instant) (scheduleId : String)
    (state : ScheduleState) : Nat :=
  if scheduleId = k.scheduleId then
    match p.refed? scheduleId state with
    | some (last, ts) => hits k.triggerId (.stateChanged last) now ts
    | none => 0
  else 0

/-- The same when schedules are defined one after another. -/
def matchedOnDefining (k : ProgressKey) (now : Instant) : Processor → Store → List Schedule → Nat
  | _, _, [] => 0
  | p, s, schedule :: rest =>
    let (p, s) := p.syncSchedule s schedule
    let next := p.applyState s now schedule.id schedule.state
    matchedOnEntering k p now schedule.id schedule.state +
      matchedOnDefining k now next.processor next.store rest

/-- How often a request feeds the trigger with a key an event that it counts. -/
def matchedOn (k : ProgressKey) (p : Processor) (s : Store) : Request → Nat
  | .event event now =>
    if p.paused then 0 else hits k.triggerId event now (p.triggersOf k.scheduleId)
  | .update schedules now | .restore schedules now =>
    matchedOnDefining k now p s (sortBy Schedule.priority schedules)
  | .enter scheduleId state now => matchedOnEntering k p now scheduleId state
  | .pause _ | .cancel _ | .cancelGroup _ | .restart => 0

end Processor

namespace Turn

open Processor

/-- A run leaves a trigger of a schedule as it is defined. -/
def Keeps (scheduleId : String) (trigger : Trigger) : Turn → List Request → Prop
  | _, [] => True
  | t, r :: rs => t.processor.Keeps scheduleId trigger r ∧ (t.serve r).Keeps scheduleId trigger rs

/-- How often a run feeds the trigger with a key an event that it counts. -/
def matched (k : ProgressKey) : Turn → List Request → Nat
  | _, [] => 0
  | t, r :: rs => matchedOn k t.processor t.store r + (t.serve r).matched k rs

end Turn

namespace Processor

/-! ## The invariant -/

section Tracking

variable {scheduleId : String} {trigger : Trigger}

/-- A trigger is followed and has counted `k` events, and of what a turn has fired so many were its
own as that makes, beside `n` from before. -/
structure Tracked (scheduleId : String) (trigger : Trigger) (n k : Nat) (t : Turn) : Prop where
  sound : t.IsSound
  progress : ∃ progress, Follows scheduleId trigger progress t.processor t.store ∧
    progress.count = .ofNat (k % trigger.goal.ceil)
  fired : t.fired.countP (isFiringOf ⟨scheduleId, trigger.id⟩) = n + k / trigger.goal.ceil

variable {n k : Nat} {t : Turn}

/-- What fires nothing of a trigger and leaves its row leaves it tracked, if what is prepared of it
afterwards is what was or nothing. -/
theorem Tracked.aside (h : Tracked scheduleId trigger n k t) {next : Turn} (hsound : next.IsSound)
    (hrow : next.store.progressRow ⟨scheduleId, trigger.id⟩ =
      t.store.progressRow ⟨scheduleId, trigger.id⟩)
    (hcarries : ∀ progress, Carries trigger progress (t.processor.triggersOf scheduleId) →
      Carries trigger progress (next.processor.triggersOf scheduleId))
    (hfired : next.fired.countP (isFiringOf ⟨scheduleId, trigger.id⟩) = 0) :
    Tracked scheduleId trigger n k (t.followedBy next) := by
  obtain ⟨progress, hfollows, hcount⟩ := h.progress
  refine ⟨⟨hsound.reliable, hsound.proper⟩, ⟨progress, ?_, hcount⟩, ?_⟩
  · exact ⟨hfollows.key, hfollows.remembered.of_progressRow (hfollows.key.symm ▸ hrow),
      hcarries progress hfollows.carried⟩
  · rw [Turn.followedBy, List.countP_append, hfired, h.fired, Nat.add_zero]

/-- What feeds an event to the triggers of the schedule leaves the trigger tracked. -/
theorem Tracked.settle (h : Tracked scheduleId trigger n k t)
    (htype : trigger.type ≠ .customEventValue) (hgoal : trigger.goal.IsCountable) {event : Event}
    {now : Instant} {ts : List Prepared} {p' : Processor} {os : List (Int × Outcome)}
    (hsound : (Processor.settle p' t.store os).IsSound)
    (hcarries : ∀ progress, Carries trigger progress (t.processor.triggersOf scheduleId) →
      Carries trigger progress ts)
    (hof : ofTrigger ⟨scheduleId, trigger.id⟩ os = outcomes event now (withId trigger.id ts))
    (hnumbers : ∀ o ∈ os, o.2.progress.count ≠ .nan)
    (hfirings : ∀ o ∈ os, ∀ f ∈ o.2.firing, isFiringOf o.2.progress.key f = true)
    (hp' : p'.triggersOf scheduleId = feed event now ts) :
    Tracked scheduleId trigger n (k + hits trigger.id event now ts)
      (t.followedBy (Processor.settle p' t.store os)) := by
  obtain ⟨progress, hfollows, hcount⟩ := h.progress
  obtain ⟨next, hnext, hnextCount, hfired⟩ :=
    hfollows.settle (h.sound.reliable _) htype hgoal hcount
    (hcarries progress hfollows.carried) hof hnumbers hfirings hp'
  refine ⟨⟨hsound.reliable, hsound.proper⟩, ⟨next, hnext, hnextCount⟩, ?_⟩
  show (t.fired ++ firings os).countP _ = _
  rw [List.countP_append, h.fired, ← hfired, Nat.add_assoc]

/-! ## Events -/

theorem Tracked.event (h : Tracked scheduleId trigger n k t)
    (htype : trigger.type ≠ .customEventValue) (hgoal : trigger.goal.IsCountable) {event : Event}
    {now : Instant} (hwrites : t.processor.Writes t.store (.event event now)) :
    Tracked scheduleId trigger n
      (k + matchedOn ⟨scheduleId, trigger.id⟩ t.processor t.store (.event event now))
      (t.followedBy (t.processor.processEvent t.store event now)) := by
  have hsound := isSound_processEvent h.sound.proper h.sound.reliable hwrites
  rw [matchedOn]
  by_cases hpaused : t.processor.paused = true
  · rw [if_pos hpaused, Nat.add_zero]
    rw [processEvent_of_paused hpaused] at hsound ⊢
    refine h.aside hsound rfl (fun progress hcarries => ?_) rfl
    cases event <;> exact hcarries
  · rw [if_neg hpaused]
    rw [processEvent_of_not_paused hpaused] at hsound ⊢
    refine h.settle htype hgoal hsound (fun _ hcarries => hcarries)
      (ofTrigger_flatMap h.sound.proper event now ⟨scheduleId, trigger.id⟩)
      (hwrites.numbers hpaused) (fun o ho => ?_) ?_
    · obtain ⟨ts, hts, ho⟩ := List.mem_flatMap.mp ho
      obtain ⟨e, he, rfl⟩ := List.mem_map.mp hts
      exact isFiringOf_of_mem_outcomes
        (h.sound.proper e.1 e.2 ((Table.get?_eq_some_iff _ _ _).mpr he)) ho
    · rw [triggersOf, Table.get?_map, triggersOf]
      cases t.processor.prepared.get? scheduleId <;> rfl

/-! ## States -/

theorem carries_entering {progress : Progress} {p : Processor}
    (h : Carries trigger progress (p.triggersOf scheduleId)) (id : String) (state : ScheduleState) :
    Carries trigger progress ((p.entering id state).triggersOf scheduleId) := by
  rw [triggersOf_entering]
  split
  · exact h.map (enter_trigger state) (enter_kind state) (enter_progress state)
  · exact h

theorem Tracked.applyState (h : Tracked scheduleId trigger n k t)
    (htype : trigger.type ≠ .customEventValue) (hgoal : trigger.goal.IsCountable) (now : Instant)
    (id : String) (state : ScheduleState) :
    Tracked scheduleId trigger n
      (k + matchedOnEntering ⟨scheduleId, trigger.id⟩ t.processor now id state)
      (t.followedBy (t.processor.applyState t.store now id state)) := by
  have hsound := isSound_applyState h.sound.proper h.sound.reliable now id state
  rw [matchedOnEntering]
  cases hrefed : t.processor.refed? id state with
  | none =>
    simp only [ite_self, Nat.add_zero]
    rw [applyState_of_refed?_eq_none hrefed] at hsound ⊢
    exact h.aside hsound rfl (fun progress hcarries => carries_entering hcarries id state) rfl
  | some fed =>
    obtain ⟨last, ts⟩ := fed
    obtain ⟨hts, happly⟩ := applyState_of_refed?_eq_some hrefed t.store now
    have hfor := h.sound.proper.entering id state id ts hts
    rw [happly] at hsound ⊢
    by_cases hid : id = scheduleId
    · subst hid
      have hof : (t.processor.entering id state).triggersOf id = ts := by
        rw [triggersOf, hts]
        rfl
      rw [if_pos rfl]
      refine h.settle htype hgoal hsound
        (fun progress hcarries => hof ▸ carries_entering hcarries id state)
        (ofTrigger_outcomes hfor trigger.id) (count_outcomes_stateChanged hfor last)
        (fun o => isFiringOf_of_mem_outcomes hfor) ?_
      rw [triggersOf, Table.get?_insert, if_pos rfl]
      rfl
    · -- The state is fed to another schedule, so no outcome is for this trigger.
      have hnone : ofTrigger ⟨scheduleId, trigger.id⟩
          (outcomes (.stateChanged last) now ts) = [] :=
        ofTrigger_outcomes_of_ne hfor (Ne.symm hid)
      rw [if_neg hid, Nat.add_zero]
      refine h.aside hsound (progressRow_persist_of_ne fun q hq hkey => ?_) ?_ ?_
      · obtain ⟨o, ho, rfl⟩ := List.mem_map.mp hq
        exact List.filter_eq_nil_iff.mp hnone o ho (decide_eq_true hkey)
      · intro progress hcarries
        show Carries trigger progress (triggersOf { t.processor with prepared := _ } scheduleId)
        rw [triggersOf, Table.get?_insert, if_neg (Ne.symm hid)]
        exact hcarries
      · exact (countP_firings (fun o => isFiringOf_of_mem_outcomes hfor) _).trans (hnone ▸ rfl)

/-! ## Defining schedules -/

/-- A trigger that is tracked is below its goal. -/
theorem exceedsGoal_ofNat_mod (hgoal : trigger.goal.IsCountable) (k : Nat) :
    (!(Binary64.ofNat (k % trigger.goal.ceil)).isZero &&
      !(Binary64.ofNat (k % trigger.goal.ceil)).lt trigger.goal) = false := by
  obtain ⟨steps, hsteps, hpos, -⟩ := hgoal.exists_steps
  have hlt : (Binary64.ofNat (k % trigger.goal.ceil)).lt trigger.goal = true := by
    conv => enter [1, 2]; rw [hsteps]
    exact Binary64.ofNat_lt_iff.mpr (hsteps ▸ Nat.mod_lt k hpos)
  rw [hlt, Bool.not_true, Bool.and_false]

theorem Tracked.registerOne (h : Tracked scheduleId trigger n k t)
    (htype : trigger.type ≠ .customEventValue) (hgoal : trigger.goal.IsCountable) (now : Instant)
    {schedule : Schedule} (hdefines : schedule.id = scheduleId → Defines schedule trigger) :
    Tracked scheduleId trigger n
      (k + matchedOnEntering ⟨scheduleId, trigger.id⟩
        (t.processor.syncSchedule t.store schedule).1 now schedule.id schedule.state)
      (registerOne now t schedule) := by
  obtain ⟨progress, hfollows, hcount⟩ := h.progress
  obtain ⟨hreliable, hproper⟩ := isSound_syncSchedule h.sound schedule
  have hsynced : Tracked scheduleId trigger n k ⟨(t.processor.syncSchedule t.store schedule).1,
      (t.processor.syncSchedule t.store schedule).2, t.fired⟩ := by
    refine ⟨⟨hreliable, hproper⟩, ⟨progress, ?_, hcount⟩, h.fired⟩
    refine hfollows.syncSchedule h.sound.proper (h.sound.reliable _) ?_ ?_ hdefines
    · rw [hcount, Binary64.dropZeroSign_ofNat]
    · rw [hcount]
      exact exceedsGoal_ofNat_mod hgoal k
  exact hsynced.applyState htype hgoal now schedule.id schedule.state

theorem Tracked.foldl_registerOne (h : Tracked scheduleId trigger n k t)
    (htype : trigger.type ≠ .customEventValue) (hgoal : trigger.goal.IsCountable) (now : Instant)
    {schedules : List Schedule}
    (hdefines : ∀ schedule ∈ schedules, schedule.id = scheduleId → Defines schedule trigger) :
    Tracked scheduleId trigger n
      (k + matchedOnDefining ⟨scheduleId, trigger.id⟩ now t.processor t.store schedules)
      (schedules.foldl (Processor.registerOne now) t) := by
  induction schedules generalizing t k with
  | nil => exact h
  | cons schedule rest ih =>
    have hone := h.registerOne htype hgoal now (hdefines schedule List.mem_cons_self)
    rw [matchedOnDefining, ← Nat.add_assoc]
    exact ih hone fun schedule' hschedule' => hdefines schedule' (List.mem_cons_of_mem _ hschedule')

/-! ## Cancelling -/

theorem Tracked.cancel (h : Tracked scheduleId trigger n k t) {p' : Processor}
    (hproper : p'.IsProper) (hprepared : p'.prepared = t.processor.prepared)
    {scheduleIds : List String} (hkeeps : scheduleId ∉ scheduleIds) :
    Tracked scheduleId trigger n k (t.followedBy (p'.cancel t.store scheduleIds)) := by
  refine h.aside (isSound_cancel hproper h.sound.reliable scheduleIds)
    (Store.progressRow_deleteSchedules hkeeps) (fun progress hcarries => ?_) rfl
  show Carries trigger progress ((scheduleIds.foldl forget p').triggersOf scheduleId)
  rw [triggersOf, get?_foldl_forget, if_neg hkeeps, hprepared]
  exact hcarries

/-! ## A run -/

/-- Every request leaves the trigger tracked, and adds what it matched. -/
theorem Tracked.serve (h : Tracked scheduleId trigger n k t)
    (htype : trigger.type ≠ .customEventValue) (hgoal : trigger.goal.IsCountable) {r : Request}
    (hwrites : t.processor.Writes t.store r) (hkeeps : t.processor.Keeps scheduleId trigger r) :
    Tracked scheduleId trigger n
      (k + matchedOn ⟨scheduleId, trigger.id⟩ t.processor t.store r) (t.serve r) := by
  cases r with
  | event event now => exact h.event htype hgoal hwrites
  | pause paused =>
    exact h.aside ⟨h.sound.reliable, h.sound.proper⟩ rfl (fun _ hcarries => hcarries) rfl
  | update schedules now =>
    have hdefined := h.foldl_registerOne htype hgoal now fun schedule hschedule =>
      hkeeps schedule ((perm_sortBy Schedule.priority schedules).mem_iff.mp hschedule)
    rw [Processor.foldl_registerOne] at hdefined
    exact hdefined
  | restore schedules now =>
    have hdefined := h.foldl_registerOne htype hgoal now fun schedule hschedule =>
      hkeeps.1 schedule ((perm_sortBy Schedule.priority schedules).mem_iff.mp hschedule)
    rw [Processor.foldl_registerOne] at hdefined
    obtain ⟨progress, hfollows, hcount⟩ := hdefined.progress
    refine ⟨⟨fun op => Store.allows_command.mpr (hdefined.sound.reliable op),
      hdefined.sound.proper⟩, ⟨progress, ⟨hfollows.key, ?_, hfollows.carried⟩, hcount⟩,
      hdefined.fired⟩
    refine hfollows.remembered.of_progressRow (Store.progressRow_keepSchedules ?_)
    rw [hfollows.key]
    exact hkeeps.2
  | enter id state now => exact h.applyState htype hgoal now id state
  | cancel scheduleIds => exact h.cancel h.sound.proper rfl hkeeps
  | cancelGroup group =>
    have hgroup := hkeeps
    show Tracked scheduleId trigger n k (t.followedBy (t.processor.cancelGroup t.store group))
    rw [cancelGroup]
    cases hids : t.processor.groups.get? group with
    | none =>
      dsimp only
      exact h.aside ⟨h.sound.reliable, h.sound.proper⟩ rfl (fun _ hcarries => hcarries) rfl
    | some scheduleIds =>
      have hproper : ({ t.processor with groups := t.processor.groups.erase group } :
          Processor).IsProper := h.sound.proper
      exact h.cancel hproper rfl (hgroup scheduleIds hids)
  | restart =>
    exact h.aside (Turn.IsSound.start h.sound.reliable) rfl (fun _ _ => Or.inl rfl) rfl

theorem Tracked.run {rs : List Request} (h : Tracked scheduleId trigger n k t)
    (htype : trigger.type ≠ .customEventValue) (hgoal : trigger.goal.IsCountable)
    (hwrites : t.Writes rs) (hkeeps : t.Keeps scheduleId trigger rs) :
    Tracked scheduleId trigger n (k + t.matched ⟨scheduleId, trigger.id⟩ rs) (t.run rs) := by
  induction rs generalizing t k with
  | nil => exact h
  | cons r rest ih =>
    rw [Turn.matched, ← Nat.add_assoc]
    exact ih (h.serve htype hgoal hwrites.1 hkeeps.1) hwrites.2 hkeeps.2

/-- **No missed and no duplicate firings.**  After any run, let an execution trigger that does not
count by value be neither prepared nor stored.  From there on it fires once for every round of its
goal, whatever follows, as long as it stays defined. -/
theorem fired_eq_matched_div {s : Store} (hs : s.IsReliable) (before rs : List Request)
    (hwrites : (Turn.start s).Writes (before ++ rs))
    (habsent : ∀ t ∈ ((Turn.start s).run before).processor.triggersOf scheduleId,
      t.trigger.id ≠ trigger.id)
    (hfresh : ((Turn.start s).run before).store.progressRow ⟨scheduleId, trigger.id⟩ = none)
    (htype : trigger.type ≠ .customEventValue) (hgoal : trigger.goal.IsCountable)
    (hkeeps : ((Turn.start s).run before).Keeps scheduleId trigger rs) :
    ((Turn.start s).run (before ++ rs)).fired.countP (isFiringOf ⟨scheduleId, trigger.id⟩) =
      ((Turn.start s).run before).fired.countP (isFiringOf ⟨scheduleId, trigger.id⟩) +
        ((Turn.start s).run before).matched ⟨scheduleId, trigger.id⟩ rs / trigger.goal.ceil := by
  obtain ⟨hbefore, hafter⟩ := Turn.writes_append.mp hwrites
  have hstart : Tracked scheduleId trigger
      (((Turn.start s).run before).fired.countP (isFiringOf ⟨scheduleId, trigger.id⟩)) 0
      ((Turn.start s).run before) := by
    refine ⟨(Turn.IsSound.start hs).run hbefore, ⟨.fresh scheduleId trigger.id, ?_, ?_⟩, ?_⟩
    · refine ⟨rfl, Or.inr ⟨hfresh, rfl⟩, Or.inl (List.filter_eq_nil_iff.mpr fun t ht => ?_)⟩
      rw [decide_eq_true_eq]
      exact habsent t ht
    · rw [Nat.zero_mod, Binary64.ofNat_zero]
      rfl
    · rw [Nat.zero_div, Nat.add_zero]
  have hend := (hstart.run htype hgoal hafter hkeeps).fired
  rw [Nat.zero_add] at hend
  rw [Turn.run_append, hend]

end Tracking

/-- A trigger that counts sessions.  Its goal is not integral, so it asks for two. -/
def sessionTrigger : Trigger := ⟨"t", .activeSession, .ofFraction false 3 2, none⟩

/-- A schedule with that trigger. -/
def sessionSchedule (priority : Int) : Schedule :=
  ⟨"s", none, priority, ⟨none, none⟩, [sessionTrigger], [], [], .idle⟩

/-- One session is counted before a restart.  The next one begins while the processor is paused, and
is fed again when the schedule leaves and enters its state. -/
def sessionRequests (now : Instant) : List Request :=
  [.restore [sessionSchedule 0] now, .event (.stateChanged ⟨some "a", none⟩) now, .restart,
    .restore [sessionSchedule 1] now, .pause true, .event (.stateChanged ⟨some "b", none⟩) now,
    .pause false, .enter "s" .paused now, .enter "s" .idle now]

theorem defines_sessionSchedule (priority : Int) :
    Defines (sessionSchedule priority) sessionTrigger :=
  ⟨[], [], rfl, List.forall_mem_nil _⟩

/-- Over the restart the two sessions make one firing. -/
theorem fired_eq_matched_div_sessions :
    ((Turn.start (.ofTables .empty)).run (sessionRequests .epoch)).fired.countP
      (isFiringOf ⟨"s", sessionTrigger.id⟩) = 1 := by
  have hkept : ∀ priority : Int, ∀ schedule ∈ [sessionSchedule priority], schedule.id = "s" →
      Defines schedule sessionTrigger := fun priority schedule hschedule _ =>
    List.mem_singleton.mp hschedule ▸ defines_sessionSchedule priority
  have hwrites : (Turn.start (.ofTables .empty)).Writes ([] ++ sessionRequests .epoch) :=
    ⟨trivial, Or.inr (by decide +kernel), trivial, trivial, trivial, Or.inl rfl, trivial, trivial,
      trivial, trivial⟩
  have hkeeps : ((Turn.start (.ofTables .empty)).run []).Keeps "s" sessionTrigger
      (sessionRequests .epoch) :=
    ⟨⟨hkept 0, by decide⟩, trivial, trivial, ⟨hkept 1, by decide⟩, trivial, trivial, trivial,
      trivial, trivial, trivial⟩
  have hmatched : ((Turn.start (.ofTables .empty)).run []).matched ⟨"s", sessionTrigger.id⟩
      (sessionRequests .epoch) = 2 := by decide +kernel
  have hceil : sessionTrigger.goal.ceil = 2 := by decide +kernel
  have hfired := fired_eq_matched_div (Store.isReliable_ofTables .empty) [] (sessionRequests .epoch)
    hwrites (List.forall_mem_nil _) rfl (by decide) ⟨by decide +kernel, by decide +kernel⟩ hkeeps
  rw [hmatched, hceil] at hfired
  exact hfired

end Processor
end Automation
