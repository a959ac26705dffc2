import Automation.Proofs.Processor.Agreement
import Automation.Proofs.Processor.Below
import Automation.Proofs.Processor.Holding
import Automation.Proofs.Processor.Resumption

/-!
# Progress that is lost

Writing progress is best effort.  `Turn.run_eq_of_losses` says how little depends on it: as long as
one processor is at work, nobody can tell which writes were refused.  Over two stores that begin
with the same tables, either of which may refuse to write progress at any time, the same requests
leave the same processor and the same firings after every one of them.

## Why rows that differ are not read

The rows of the two runs do differ, and rows are read whenever a trigger is prepared that is not
taken over.  But a row that differs belongs to a trigger that is prepared in both runs: `Covers`
says so and is kept by every operation.  Such a row is read only if the trigger is prepared anew
while it is prepared already, and it does not survive until later, since the operation that gives a
trigger up deletes its row.

## What is assumed

* The ids of a schedule's definitions are distinct.  Of two with one id the second is prepared from
  the row of the first.
* No trigger goes from one list of its schedule to the other when the schedule is defined again
  (`KeepKinds`).  It would be prepared from the row that it has.
* Reading and deleting are never refused, and no processor starts anew.
-/

namespace Automation

/-- A store in which the writing of progress may fail at any time, and nothing else. -/
def Store.LosesOnlyProgress (s : Store) : Prop := ∀ op, op ≠ .writeProgress → s.Allows op

/-- No trigger is in one list of a schedule before and in the other one after. -/
def Schedule.KeepsKinds (before after : Schedule) : Prop :=
  ∀ d ∈ before.definitions, ∀ d' ∈ after.definitions, d.1.id = d'.1.id → d.2 = d'.2

instance (before after : Schedule) : Decidable (before.KeepsKinds after) :=
  inferInstanceAs (Decidable (∀ d ∈ before.definitions, ∀ d' ∈ after.definitions,
    d.1.id = d'.1.id → d.2 = d'.2))

namespace Processor

/-! ## Stores that differ where a processor does not look -/

/-- Two stores lose no more than progress, and agree on the rows of all triggers that are not
prepared. -/
structure Covers (p : Processor) (s s' : Store) : Prop where
  loses : s.LosesOnlyProgress
  loses' : s'.LosesOnlyProgress
  rows : ∀ k, ¬ p.Holds k → s'.progressRow k = s.progressRow k

end Processor

/-- Two turns in which the same has happened, over stores that may have lost different progress. -/
structure Turn.Alike (t t' : Turn) : Prop where
  processor : t'.processor = t.processor
  fired : t'.fired = t.fired
  placed : t.processor.IsPlaced
  covers : t.processor.Covers t.store t'.store

namespace Processor

variable {p p' : Processor} {s s' : Store}

theorem Covers.continue (h : p.Covers s s') (hp : p.Continues p') : p'.Covers s s' :=
  ⟨h.loses, h.loses', fun k hk => h.rows k fun hheld => hk (hp.holds hheld)⟩

/-- A processor that goes on with its triggers and touches no store. -/
theorem Covers.alike (h : p.Covers s s') (hp : p.IsPlaced) (hcontinues : p.Continues p')
    (fired : List Firing) : Turn.Alike ⟨p', s, fired⟩ ⟨p', s', fired⟩ :=
  ⟨rfl, rfl, hcontinues.isPlaced hp, h.continue hcontinues⟩

/-- Writing progress of prepared triggers is covered, whether it fails or not. -/
theorem Covers.settle (h : p.Covers s s') (hp : p.IsPlaced) {os : List (Int × Outcome)}
    (hos : ∀ o ∈ os, p.Holds o.2.progress.key) :
    (settle p s os).Alike (settle p s' os) := by
  have hkept : ∀ (s : Store) k, ¬ p.Holds k →
      (persist s (os.map (·.2.progress))).progressRow k = s.progressRow k := fun s k hk => by
    refine progressRow_persist_of_ne fun q hq hkey => hk ?_
    obtain ⟨o, ho, rfl⟩ := List.mem_map.mp hq
    exact hkey ▸ hos o ho
  refine ⟨rfl, rfl, hp, ⟨fun op hop => allows_persist.mpr (h.loses op hop),
    fun op hop => allows_persist.mpr (h.loses' op hop), fun k hk => ?_⟩⟩
  exact (hkept s' k hk).trans ((h.rows k hk).trans (hkept s k hk).symm)

/-! ## Events and states -/

theorem Covers.processEvent (h : p.Covers s s') (hp : p.IsPlaced) (event : Event) (now : Instant) :
    (p.processEvent s event now).Alike (p.processEvent s' event now) := by
  have hremember : ∀ id, (p.remember event).triggersOf id = p.triggersOf id := by
    cases event <;> exact fun _ => rfl
  by_cases hpaused : p.paused = true
  · rw [processEvent_of_paused hpaused, processEvent_of_paused hpaused]
    exact h.alike hp (.of_triggersOf hremember) []
  · rw [processEvent_of_not_paused hpaused, processEvent_of_not_paused hpaused]
    have hfed : p.Continues { p.remember event with
        prepared := p.prepared.map fun _ => feed event now } := continues_feed rfl
    refine (h.continue hfed).settle (hfed.isPlaced hp) fun o ho => ?_
    obtain ⟨ts, hts, hmem⟩ := List.mem_flatMap.mp ho
    obtain ⟨id, hget⟩ := (Table.mem_values_iff _ _).mp hts
    exact hfed.holds (holds_of_mem_outcomes hp hget hmem)

theorem Covers.applyState (h : p.Covers s s') (hp : p.IsPlaced) (now : Instant)
    (scheduleId : String) (state : ScheduleState) :
    (p.applyState s now scheduleId state).Alike (p.applyState s' now scheduleId state) := by
  have hentering := continues_entering p scheduleId state
  cases hrefed : p.refed? scheduleId state with
  | none =>
    rw [applyState_of_refed?_eq_none hrefed, applyState_of_refed?_eq_none hrefed]
    exact h.alike hp hentering []
  | some fed =>
    obtain ⟨last, ts⟩ := fed
    obtain ⟨hts, happly⟩ := applyState_of_refed?_eq_some hrefed s now
    obtain ⟨-, happly'⟩ := applyState_of_refed?_eq_some hrefed s' now
    have hplaced := hentering.isPlaced hp
    have hfed := continues_refed hts last now
    rw [happly, happly']
    exact ((h.continue hentering).continue hfed).settle (hfed.isPlaced hplaced) fun o ho =>
      hfed.holds (holds_of_mem_outcomes hplaced hts ho)

/-! ## Defining a schedule -/

section Defining

variable {schedule : Schedule}

/-- No definition takes the id of a trigger that is prepared for the other list. -/
def KeepsKinds (p : Processor) (schedule : Schedule) : Prop :=
  ∀ t ∈ p.triggersOf schedule.id, ∀ d ∈ schedule.definitions, t.trigger.id = d.1.id → t.kind = d.2

/-- A definition becomes the same over both stores: it takes over what is prepared, or it is
prepared from a row that is the same. -/
theorem Covers.successor (h : p.Covers s s') (hkinds : p.KeepsKinds schedule)
    {d : Trigger × Execution} (hd : d ∈ schedule.definitions) :
    successor p s' schedule d = successor p s schedule d := by
  cases hbefore : (withId d.1.id (p.triggersOf schedule.id)).getLast? with
  | some t =>
    obtain ⟨hmem, hid⟩ := List.mem_filter.mp (List.mem_of_getLast? hbefore)
    have hkind : t.kind = d.2 := hkinds t hmem d hd (of_decide_eq_true hid)
    simp only [Processor.successor, found, hbefore, Option.filter_some, hkind, decide_true, if_true]
  | none =>
    -- this is where a row is read
    have hnew : ¬ p.Holds ⟨schedule.id, d.1.id⟩ := by
      rintro ⟨t, ht, hid⟩
      have hwith : t ∈ withId d.1.id (p.triggersOf schedule.id) :=
        List.mem_filter.mpr ⟨ht, decide_eq_true hid⟩
      rw [List.getLast?_eq_none_iff.mp hbefore] at hwith
      cases hwith
    rw [Processor.successor, Processor.successor, found, found, hbefore,
      recalled_congr (h.rows _ hnew)]

/-- Defining a schedule is covered, and prepares the same over both stores. -/
theorem Covers.syncSchedule (h : p.Covers s s') (hp : p.IsPlaced)
    (hdistinct : (schedule.definitions.map (·.1.id)).Nodup) (hkinds : p.KeepsKinds schedule) :
    (p.syncSchedule s' schedule).1 = (p.syncSchedule s schedule).1 ∧
      (p.syncSchedule s schedule).1.Covers (p.syncSchedule s schedule).2
        (p.syncSchedule s' schedule).2 := by
  have hread := h.loses .readProgress nofun
  have hread' := h.loses' .readProgress nofun
  obtain ⟨hstore, -, hprepared, -⟩ := syncWork_of_distinct hread hdistinct p
  obtain ⟨hstore', -, hprepared', -⟩ := syncWork_of_distinct hread' hdistinct p
  have hsame : (p.syncWork s' schedule).prepared = (p.syncWork s schedule).prepared := by
    rw [hprepared, hprepared']
    exact List.map_congr_left fun d hd => congrArg Prepared.resetIfReached (h.successor hkinds hd)
  have hprocessor : (p.syncSchedule s' schedule).1 = (p.syncSchedule s schedule).1 :=
    congrArg (fun ts => ({ p with
      prepared := p.prepared.insert schedule.id ts
      groups := regroup p.groups schedule } : Processor)) hsame
  refine ⟨hprocessor, ⟨fun op hop => ?_, fun op hop => ?_, fun k hk => ?_⟩⟩
  · exact (allows_syncSchedule_of_read hstore).mpr (h.loses op hop)
  · exact (allows_syncSchedule_of_read hstore').mpr (h.loses' op hop)
  · obtain ⟨hstays, hgoes⟩ :=
      progressRow_syncSchedule_of_not_holds hread hp hdistinct (h.loses _ nofun) hk
    obtain ⟨hstays', hgoes'⟩ := progressRow_syncSchedule_of_not_holds hread' hp hdistinct
      (h.loses' _ nofun) (hprocessor ▸ hk)
    by_cases hheld : p.Holds k
    · rw [hgoes hheld, hgoes' hheld]
    · rw [hstays hheld, hstays' hheld, h.rows k hheld]

end Defining

/-! ## Several schedules -/

variable {defs : Table String Schedule} {t t' next next' : Turn} {schedule : Schedule}

/-- Whenever one of several schedules is defined again, its triggers keep their lists. -/
def KeepKinds : Table String Schedule → List Schedule → Prop
  | _, [] => True
  | defs, schedule :: rest =>
    (∀ before ∈ defs.get? schedule.id, before.KeepsKinds schedule) ∧
      KeepKinds (note defs schedule) rest

instance decidableKeepKinds : (defs : Table String Schedule) → (schedules : List Schedule) →
    Decidable (KeepKinds defs schedules)
  | _, [] => .isTrue trivial
  | defs, schedule :: rest =>
    have := decidableKeepKinds (note defs schedule) rest
    inferInstanceAs (Decidable ((∀ before ∈ defs.get? schedule.id, before.KeepsKinds schedule) ∧
      KeepKinds (note defs schedule) rest))

/-- A processor that knows what is defined has its triggers in the lists of their definitions. -/
theorem Knows.keepsKinds (h : Knows defs p)
    (hkinds : ∀ before ∈ defs.get? schedule.id, before.KeepsKinds schedule) :
    p.KeepsKinds schedule := by
  intro t ht d hd hid
  obtain ⟨before, hbefore, hrole⟩ := h.exists_definition ht
  exact hkinds before hbefore _ hrole d hd hid

theorem alike_followedBy (h : t'.fired = t.fired) (hnext : next.Alike next') :
    (t.followedBy next).Alike (t'.followedBy next') :=
  ⟨hnext.processor, congrArg₂ (· ++ ·) h hnext.fired, hnext.placed, hnext.covers⟩

theorem alike_registerOne (h : t.Alike t') (now : Instant)
    (hdistinct : (schedule.definitions.map (·.1.id)).Nodup)
    (hkinds : t.processor.KeepsKinds schedule) :
    (registerOne now t schedule).Alike (registerOne now t' schedule) := by
  obtain ⟨hprocessor, hcovers⟩ := h.covers.syncSchedule h.placed hdistinct hkinds
  have hplaced := h.placed.syncSchedule (h.covers.loses _ nofun) hdistinct
  rw [registerOne_eq, registerOne_eq, h.processor, hprocessor]
  exact alike_followedBy h.fired (hcovers.applyState hplaced now schedule.id schedule.state)

theorem alike_foldl_registerOne (h : t.Alike t') (hknows : Knows defs t.processor) (now : Instant)
    {schedules : List Schedule}
    (hdistinct : ∀ schedule ∈ schedules, (schedule.definitions.map (·.1.id)).Nodup)
    (hkinds : KeepKinds defs schedules) :
    (schedules.foldl (registerOne now) t).Alike (schedules.foldl (registerOne now) t') := by
  induction schedules generalizing defs t t' with
  | nil => exact h
  | cons schedule rest ih =>
    rw [List.forall_mem_cons] at hdistinct
    exact ih (alike_registerOne h now hdistinct.1 (hknows.keepsKinds hkinds.1))
      (hknows.registerOne now schedule) hdistinct.2 hkinds.2

theorem Covers.updateSchedules (h : p.Covers s s') (hp : p.IsPlaced) (hknows : Knows defs p)
    (now : Instant) {schedules : List Schedule}
    (hdistinct : ∀ schedule ∈ schedules, (schedule.definitions.map (·.1.id)).Nodup)
    (hkinds : KeepKinds defs (sortBy Schedule.priority schedules)) :
    (p.updateSchedules s now schedules).Alike (p.updateSchedules s' now schedules) :=
  alike_foldl_registerOne (h.alike hp (.of_triggersOf fun _ => rfl) []) hknows now
    (fun schedule hschedule => hdistinct schedule ((perm_sortBy _ _).mem_iff.mp hschedule)) hkinds

theorem Covers.keepSchedules (h : p.Covers s s') (scheduleIds : List String) :
    p.Covers (s.keepSchedules scheduleIds).2 (s'.keepSchedules scheduleIds).2 := by
  refine ⟨fun op hop => Store.allows_command.mpr (h.loses op hop),
    fun op hop => Store.allows_command.mpr (h.loses' op hop), fun k hk => ?_⟩
  by_cases hid : k.scheduleId ∈ scheduleIds
  · rw [Store.progressRow_keepSchedules hid, Store.progressRow_keepSchedules hid, h.rows k hk]
  · rw [Store.progressRow_keepSchedules_of_not_mem (h.loses _ nofun) hid,
      Store.progressRow_keepSchedules_of_not_mem (h.loses' _ nofun) hid]

/-! ## Cancelling -/

/-- Cancelling deletes the rows of all that is given up. -/
theorem Covers.cancel (h : p.Covers s s') (hp : p.IsPlaced) (scheduleIds : List String) :
    (p.cancel s scheduleIds).Alike (p.cancel s' scheduleIds) := by
  refine ⟨rfl, rfl, hp.foldl_forget scheduleIds,
    ⟨fun op hop => Store.allows_command.mpr (h.loses op hop),
      fun op hop => Store.allows_command.mpr (h.loses' op hop), fun k hk => ?_⟩⟩
  show (s'.deleteSchedules scheduleIds).2.progressRow k =
    (s.deleteSchedules scheduleIds).2.progressRow k
  by_cases hid : k.scheduleId ∈ scheduleIds
  · rw [Store.progressRow_deleteSchedules_of_mem (h.loses _ nofun) hid,
      Store.progressRow_deleteSchedules_of_mem (h.loses' _ nofun) hid]
  · rw [Store.progressRow_deleteSchedules hid, Store.progressRow_deleteSchedules hid]
    exact h.rows k fun hheld => hk (holds_foldl_forget.mpr ⟨hid, hheld⟩)

theorem Covers.cancelGroup (h : p.Covers s s') (hp : p.IsPlaced) (group : String) :
    (p.cancelGroup s group).Alike (p.cancelGroup s' group) := by
  have hcontinues : p.Continues { p with groups := p.groups.erase group } :=
    .of_triggersOf fun _ => rfl
  rw [Processor.cancelGroup, Processor.cancelGroup]
  split
  · exact h.alike hp (.of_triggersOf fun _ => rfl) []
  · exact (h.continue hcontinues).cancel (hcontinues.isPlaced hp) _

/-! ## One request -/

/-- Every request to one processor is answered alike over both stores. -/
theorem Covers.respond (h : p.Covers s s') (hp : p.IsPlaced) (hknows : Knows defs p) {r : Request}
    (hone : r ≠ .restart)
    (hdistinct : ∀ schedule ∈ r.schedules, (schedule.definitions.map (·.1.id)).Nodup)
    (hkinds : KeepKinds defs (sortBy Schedule.priority r.schedules)) :
    (p.respond s r).Alike (p.respond s' r) := by
  cases r with
  | event event now => exact h.processEvent hp event now
  | pause paused =>
    have hpaused : p.Continues (p.setPaused paused) := .of_triggersOf fun _ => rfl
    exact h.alike hp hpaused []
  | update schedules now => exact h.updateSchedules hp hknows now hdistinct hkinds
  | restore schedules now =>
    have hupdated : (p.updateSchedules s now schedules).Alike
        (p.updateSchedules s' now schedules) := h.updateSchedules hp hknows now hdistinct hkinds
    exact ⟨hupdated.processor, hupdated.fired, hupdated.placed,
      hupdated.covers.keepSchedules (schedules.map Schedule.id)⟩
  | enter scheduleId state now => exact h.applyState hp now scheduleId state
  | cancel scheduleIds => exact h.cancel hp scheduleIds
  | cancelGroup group => exact h.cancelGroup hp group
  | restart => exact absurd rfl hone

end Processor

/-! ## Whole runs -/

namespace Turn

open Processor

variable {defs : Table String Schedule} {t t' : Turn}

/-- Throughout a run the triggers of a schedule that is defined again keep their lists. -/
def KeepKinds : Table String Schedule → List Request → Prop
  | _, [] => True
  | defs, r :: rs =>
    Processor.KeepKinds defs (sortBy Schedule.priority r.schedules) ∧ KeepKinds (r.define defs) rs

instance decidableKeepKinds : (defs : Table String Schedule) → (rs : List Request) →
    Decidable (KeepKinds defs rs)
  | _, [] => .isTrue trivial
  | defs, r :: rs =>
    have := decidableKeepKinds (r.define defs) rs
    inferInstanceAs (Decidable (Processor.KeepKinds defs (sortBy Schedule.priority r.schedules) ∧
      KeepKinds (r.define defs) rs))

theorem Alike.serve (h : t.Alike t') (hknows : Knows defs t.processor) {r : Request}
    (hone : r ≠ .restart)
    (hdistinct : ∀ schedule ∈ r.schedules, (schedule.definitions.map (·.1.id)).Nodup)
    (hkinds : Processor.KeepKinds defs (sortBy Schedule.priority r.schedules)) :
    (t.serve r).Alike (t'.serve r) := by
  have hnext := h.covers.respond h.placed hknows hone hdistinct hkinds
  rw [← h.processor] at hnext
  exact alike_followedBy h.fired (h.processor ▸ hnext)

/-- At every point of a run turns that began alike are alike. -/
theorem Alike.run {rs : List Request} (h : t.Alike t') (hknows : Knows defs t.processor)
    (hone : .restart ∉ rs)
    (hdistinct : ∀ r ∈ rs, ∀ schedule ∈ r.schedules, (schedule.definitions.map (·.1.id)).Nodup)
    (hkinds : KeepKinds defs rs) (n : Nat) : (t.run (rs.take n)).Alike (t'.run (rs.take n)) := by
  induction rs generalizing defs t t' n with
  | nil => rwa [List.take_nil]
  | cons r rest ih =>
    rw [List.forall_mem_cons] at hdistinct
    rw [List.mem_cons, not_or] at hone
    cases n with
    | zero => exact h
    | succ n =>
      exact ih (h.serve hknows (Ne.symm hone.1) hdistinct.1 hkinds.1) (hknows.serve r) hone.2
        hdistinct.2 hkinds.2 n

theorem alike_start {s s' : Store} (htables : s'.tables = s.tables) (hs : s.LosesOnlyProgress)
    (hs' : s'.LosesOnlyProgress) : (start s).Alike (start s') :=
  ⟨rfl, rfl, isPlaced_empty, hs, hs', fun k _ => by
    rw [Store.progressRow, Store.progressRow, start, start, htables]⟩

/-- **Lost progress cannot be told.**  Over two stores with the same tables, of which either may
refuse to write progress at any time and refuses nothing else, the same requests to one processor
leave the same processor and the same firings after each of them.  The ids of a schedule's
definitions have to be distinct, and none may go from one list to the other when the schedule is
defined again. -/
theorem run_eq_of_losses {s s' : Store} (htables : s'.tables = s.tables)
    (hs : s.LosesOnlyProgress) (hs' : s'.LosesOnlyProgress) {rs : List Request}
    (hone : .restart ∉ rs)
    (hdistinct : ∀ r ∈ rs, ∀ schedule ∈ r.schedules, (schedule.definitions.map (·.1.id)).Nodup)
    (hkinds : KeepKinds .empty rs) (n : Nat) :
    ((start s').run (rs.take n)).processor = ((start s).run (rs.take n)).processor ∧
      ((start s').run (rs.take n)).fired = ((start s).run (rs.take n)).fired := by
  have h := (alike_start htables hs hs').run knows_empty hone hdistinct hkinds n
  exact ⟨h.processor, h.fired⟩

/-- A trigger is given up and comes back, its group is cancelled, and then it is in the other
list. -/
def returningRequests : List Request :=
  [.restore [countingSchedule "s" (some "g") [countingTrigger "a" 9] [countingTrigger "b" 3]] .epoch,
    .event (.occurred .customEvent none 0) .epoch,
    .update [countingSchedule "s" (some "g") [countingTrigger "c" 2] []] .epoch,
    .event (.occurred .customEvent none 0) .epoch,
    .update [countingSchedule "s" (some "g") [countingTrigger "a" 2, countingTrigger "c" 2] []] .epoch,
    .event (.occurred .customEvent none 0) .epoch, .cancelGroup "g",
    .update [countingSchedule "s" none [countingTrigger "b" 1] [countingTrigger "a" 9]] .epoch,
    .enter "s" .prepared .epoch, .event (.occurred .customEvent none 0) .epoch]

/-- A store that takes no progress soon has other rows than one that does, and in the end the same
has fired and been counted. -/
theorem run_eq_of_losses_returning :
    ((start fullStore).run (returningRequests.take 2)).store.progressRow ⟨"s", "a"⟩ ≠
        ((start (.ofTables fullStore.tables)).run (returningRequests.take 2)).store.progressRow
          ⟨"s", "a"⟩ ∧
      ((start fullStore).run returningRequests).fired.map (·.info.triggerId) = ["c"] ∧
      (((start fullStore).run returningRequests).processor.triggersOf "s").map (·.progress) =
        [⟨"s", "b", 0, none⟩, ⟨"s", "a", 1, none⟩] := by
  have htables : fullStore.tables = (Store.ofTables fullStore.tables).tables := rfl
  have hs : (Store.ofTables fullStore.tables).LosesOnlyProgress := fun op _ =>
    Store.isReliable_ofTables fullStore.tables op
  have hs' : fullStore.LosesOnlyProgress := fun op hop => ⟨rfl, fun _ => if_neg hop⟩
  have hone : .restart ∉ returningRequests := by simp [returningRequests]
  have hdistinct : ∀ r ∈ returningRequests, ∀ schedule ∈ r.schedules,
      (schedule.definitions.map (·.1.id)).Nodup := by
    simp [returningRequests, Request.schedules, countingSchedule, countingTrigger,
      Schedule.definitions]
  have hkinds : KeepKinds .empty returningRequests := by decide +kernel
  obtain ⟨hprocessor, hfired⟩ :=
    run_eq_of_losses htables hs hs' hone hdistinct hkinds returningRequests.length
  rw [List.take_length] at hprocessor hfired
  refine ⟨by decide +kernel, ?_, ?_⟩
  · rw [hfired]
    decide +kernel
  · rw [hprocessor]
    decide +kernel

end Turn
end Automation
