import Automation.Proofs.Processor.Entering
import Automation.Proofs.Processor.Requests
import Automation.Proofs.Processor.Tracking

/-!
# What holds throughout a run

Over a store that refuses no call every trigger stands under its schedule all the time, with a count
that is a number, whatever is asked of the processor.

## The one exception

A store that refuses no call still cannot keep a count that is not a number, and a batch with such a
count is not written at all.  Adding one never makes such a count; only a custom event that counts
by value can, with a value that is infinite or no number itself.  `Writes` says of a run that this
does not happen, in the terms of the store: it takes what it is given.
-/

namespace Automation

/-- Every trigger stands under its schedule, and no call of the store is refused. -/
structure Turn.IsSound (t : Turn) : Prop where
  reliable : t.store.IsReliable
  proper : t.processor.IsProper

/-- The turn that follows another one: what has fired before comes first. -/
def Turn.followedBy (t next : Turn) : Turn := { next with fired := t.fired ++ next.fired }

namespace Processor

/-- The store takes the progress that a request leaves to be written. -/
def Writes (p : Processor) (s : Store) : Request → Prop
  | .event event now =>
    p.paused = true ∨
      (s.writeProgress ((p.prepared.values.flatMap (outcomes event now)).map (·.2.progress))).1 =
        .ok ()
  | _ => True

variable {p : Processor} {s : Store} {t : Turn}

/-! ## One operation -/

/-- What an event leaves to be written is numbers, if the store takes it. -/
theorem Writes.numbers {event : Event} {now : Instant} (h : p.Writes s (.event event now))
    (hpaused : p.paused ≠ true) :
    ∀ o ∈ p.prepared.values.flatMap (outcomes event now), o.2.progress.count ≠ .nan := fun _ ho =>
  numbers_of_writeProgress (h.resolve_left hpaused) _ (List.mem_map_of_mem ho)

theorem processEvent_of_paused (h : p.paused = true) (s : Store) (event : Event) (now : Instant) :
    p.processEvent s event now = ⟨p.remember event, s, []⟩ := by
  have hremember : (p.remember event).paused = true := by
    cases event <;> exact h
  rw [processEvent]
  exact if_pos hremember

theorem processEvent_of_not_paused (h : p.paused ≠ true) (s : Store) (event : Event)
    (now : Instant) :
    p.processEvent s event now =
      settle { p.remember event with prepared := p.prepared.map fun _ => feed event now } s
        (p.prepared.values.flatMap (outcomes event now)) := by
  have hremember : (p.remember event).paused ≠ true := by
    cases event <;> exact h
  have hprepared : (p.remember event).prepared = p.prepared := by
    cases event <;> rfl
  rw [processEvent]
  simp only [hprepared]
  exact if_neg hremember

theorem isReliable_settle (hs : s.IsReliable) (p : Processor) (os : List (Int × Outcome)) :
    (settle p s os).store.IsReliable := fun op => allows_persist.mpr (hs op)

theorem isSound_processEvent (hp : p.IsProper) (hs : s.IsReliable) {event : Event} {now : Instant}
    (h : p.Writes s (.event event now)) : (p.processEvent s event now).IsSound := by
  by_cases hpaused : p.paused = true
  · rw [processEvent_of_paused hpaused]
    refine ⟨hs, ?_⟩
    cases event <;> exact hp
  · rw [processEvent_of_not_paused hpaused]
    refine ⟨isReliable_settle hs _ _, fun id us hus => ?_⟩
    rw [settle, Table.get?_map] at hus
    obtain ⟨ts, hts, rfl⟩ := Option.map_eq_some_iff.mp hus
    refine isFor_feed (hp id ts hts) fun o ho => h.numbers hpaused o ?_
    have hentry := (Table.get?_eq_some_iff _ _ _).mp hts
    exact List.mem_flatMap.mpr ⟨ts, List.mem_map_of_mem hentry, ho⟩

theorem isSound_applyState (hp : p.IsProper) (hs : s.IsReliable) (now : Instant)
    (scheduleId : String) (state : ScheduleState) :
    (p.applyState s now scheduleId state).IsSound := by
  cases hrefed : p.refed? scheduleId state with
  | none =>
    rw [applyState_of_refed?_eq_none hrefed]
    exact ⟨hs, hp.entering scheduleId state⟩
  | some fed =>
    obtain ⟨last, ts⟩ := fed
    obtain ⟨hts, happly⟩ := applyState_of_refed?_eq_some hrefed s now
    rw [happly]
    refine ⟨isReliable_settle hs _ _, fun id us hus => ?_⟩
    have hfor := hp.entering scheduleId state scheduleId ts hts
    rw [settle, Table.get?_insert] at hus
    split at hus
    · next hid =>
      cases hus
      exact hid ▸ isFor_feed hfor (count_outcomes_stateChanged hfor last)
    · exact hp id us hus

theorem isSound_syncSchedule (h : t.IsSound) (schedule : Schedule) :
    (t.processor.syncSchedule t.store schedule).2.IsReliable ∧
      (t.processor.syncSchedule t.store schedule).1.IsProper :=
  ⟨fun op => (allows_syncSchedule (h.proper.owns _) (h.reliable _)).mpr (h.reliable op),
    h.proper.syncSchedule (h.reliable _) schedule⟩

/-! ## Several schedules -/

theorem registerOne_eq (now : Instant) (t : Turn) (schedule : Schedule) :
    registerOne now t schedule =
      t.followedBy ((t.processor.syncSchedule t.store schedule).1.applyState
        (t.processor.syncSchedule t.store schedule).2 now schedule.id schedule.state) := rfl

/-- Where no state is remembered, a schedule that is defined enters its state and nothing is fed. -/
theorem registerOne_of_lastState (h : t.processor.lastState = none) (now : Instant)
    (schedule : Schedule) :
    registerOne now t schedule =
      ⟨(t.processor.syncSchedule t.store schedule).1.entering schedule.id schedule.state,
        (t.processor.syncSchedule t.store schedule).2, t.fired⟩ := by
  have hsynced : (t.processor.syncSchedule t.store schedule).1.lastState = none := h
  rw [registerOne_eq, applyState_of_refed?_eq_none (refed?_of_lastState hsynced),
    Turn.followedBy, List.append_nil]

/-- What schedules do when they are defined does not depend on what has fired before. -/
theorem foldl_registerOne (now : Instant) (t : Turn) (schedules : List Schedule) :
    schedules.foldl (registerOne now) t =
      t.followedBy (schedules.foldl (registerOne now) ⟨t.processor, t.store, []⟩) := by
  induction schedules generalizing t with
  | nil => rw [List.foldl_nil, List.foldl_nil, Turn.followedBy, List.append_nil]
  | cons schedule rest ih =>
    rw [List.foldl_cons, List.foldl_cons, ih,
      ih (registerOne now ⟨t.processor, t.store, []⟩ schedule), registerOne_eq, registerOne_eq]
    simp only [Turn.followedBy, List.nil_append, List.append_assoc]

theorem isSound_registerOne (h : t.IsSound) (now : Instant) (schedule : Schedule) :
    (registerOne now t schedule).IsSound := by
  obtain ⟨hreliable, hproper⟩ := isSound_syncSchedule h schedule
  have hnext := isSound_applyState hproper hreliable now schedule.id schedule.state
  exact ⟨hnext.reliable, hnext.proper⟩

theorem isSound_foldl_registerOne (h : t.IsSound) (now : Instant) (schedules : List Schedule) :
    (schedules.foldl (registerOne now) t).IsSound := by
  induction schedules generalizing t with
  | nil => exact h
  | cons schedule rest ih => exact ih (isSound_registerOne h now schedule)

/-- Forgetting schedules forgets these and no others. -/
theorem get?_foldl_forget (scheduleIds : List String) (p : Processor) (id : String) :
    (scheduleIds.foldl forget p).prepared.get? id =
      if id ∈ scheduleIds then none else p.prepared.get? id := by
  induction scheduleIds generalizing p with
  | nil => rw [List.foldl_nil, if_neg List.not_mem_nil]
  | cons scheduleId rest ih =>
    rw [List.foldl_cons, ih, forget, Table.get?_erase]
    by_cases hid : id = scheduleId
    · rw [if_pos hid, if_pos (List.mem_cons.mpr (Or.inl hid)), ite_self]
    · rw [if_neg hid]
      simp only [List.mem_cons, hid, false_or]

theorem IsProper.foldl_forget (hp : p.IsProper) (scheduleIds : List String) :
    (scheduleIds.foldl forget p).IsProper := by
  intro id ts hts
  rw [get?_foldl_forget] at hts
  split at hts
  · cases hts
  · exact hp id ts hts

theorem isSound_cancel (hp : p.IsProper) (hs : s.IsReliable) (scheduleIds : List String) :
    (p.cancel s scheduleIds).IsSound :=
  ⟨fun op => Store.allows_command.mpr (hs op), hp.foldl_forget scheduleIds⟩

/-! ## A run -/

theorem isSound_respond (hp : p.IsProper) (hs : s.IsReliable) {r : Request} (h : p.Writes s r) :
    (p.respond s r).IsSound := by
  cases r with
  | event event now => exact isSound_processEvent hp hs h
  | pause paused => exact ⟨hs, hp⟩
  | update schedules now => exact isSound_foldl_registerOne ⟨hs, hp⟩ now _
  | restore schedules now =>
    have hupdated := isSound_foldl_registerOne (t := ⟨p, s, []⟩) ⟨hs, hp⟩ now
      (sortBy Schedule.priority schedules)
    exact ⟨fun op => Store.allows_command.mpr (hupdated.reliable op), hupdated.proper⟩
  | enter scheduleId state now => exact isSound_applyState hp hs now scheduleId state
  | cancel scheduleIds => exact isSound_cancel hp hs scheduleIds
  | cancelGroup group =>
    show (p.cancelGroup s group).IsSound
    rw [cancelGroup]
    split
    · exact ⟨hs, hp⟩
    · exact isSound_cancel (p := { p with groups := p.groups.erase group }) hp hs _
  | restart => exact ⟨hs, fun id ts hts => by cases hts⟩

end Processor

namespace Turn

open Processor

/-- The store takes everything that a run leaves to be written. -/
def Writes : Turn → List Request → Prop
  | _, [] => True
  | t, r :: rs => t.processor.Writes t.store r ∧ (t.serve r).Writes rs

variable {t : Turn}

theorem run_append (t : Turn) (before rs : List Request) :
    t.run (before ++ rs) = (t.run before).run rs := List.foldl_append

theorem writes_append {before rs : List Request} :
    t.Writes (before ++ rs) ↔ t.Writes before ∧ (t.run before).Writes rs := by
  induction before generalizing t with
  | nil => exact (iff_of_eq (true_and _)).symm
  | cons r rest ih => rw [List.cons_append, Writes, ih, Writes, run_cons, and_assoc]

theorem IsSound.start {s : Store} (hs : s.IsReliable) : (start s).IsSound :=
  ⟨hs, fun id ts hts => by cases hts⟩

theorem IsSound.serve (h : t.IsSound) {r : Request} (hr : t.processor.Writes t.store r) :
    (t.serve r).IsSound := by
  have hnext := isSound_respond h.proper h.reliable hr
  exact ⟨hnext.reliable, hnext.proper⟩

/-- Soundness holds throughout a run. -/
theorem IsSound.run {rs : List Request} (h : t.IsSound) (hrs : t.Writes rs) :
    (t.run rs).IsSound := by
  induction rs generalizing t with
  | nil => exact h
  | cons r rest ih => exact ih (h.serve hrs.1) hrs.2

end Turn
end Automation
