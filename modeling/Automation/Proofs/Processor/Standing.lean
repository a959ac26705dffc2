import Automation.Proofs.Processor.Soundness

/-!
# Triggers as the store would give them back

A schedule that never leaves its own state has triggers that are determined by its definition and
the stored progress: `Schedule.standing`.  Between events everything prepared is of that form, with
the progress that the store has at that moment, so nothing about the triggers is known to the
processor alone.  `Resumed` is that invariant, and `Resumed.processEvent` says that events keep it.

## What has to be ruled out

* A cancellation trigger that listens begins anew each time it is prepared, whatever is stored.
* A trigger whose goal is not a number is below it at no time, so preparing it drops what it has.
* A count that is not a number is not stored at all, and a negative zero comes back as zero.
-/

namespace Automation

/-! ## What the store would give back -/

namespace Store

/-- The progress that a trigger begins with if it is prepared now. -/
def resumed (s : Store) (k : ProgressKey) : Progress :=
  (s.recalled k).getD (.fresh k.scheduleId k.triggerId)

variable {s s' : Store} {k : ProgressKey}

theorem key_resumed (s : Store) (k : ProgressKey) : (s.resumed k).key = k := by
  rw [resumed]
  cases hrecalled : s.recalled k with
  | none => rfl
  | some p => exact key_of_recalled hrecalled

/-- The row is all that matters. -/
theorem resumed_congr (h : s'.progressRow k = s.progressRow k) : s'.resumed k = s.resumed k := by
  rw [progressRow, progressRow] at h
  simp only [resumed, recalled, Tables.progress?, h]

theorem resumed_of_progressRow {p : Progress}
    (h : s.progressRow p.key = some (Tables.rowOfProgress p))
    (hcount : p.count.dropZeroSign = p.count) : s.resumed p.key = p := by
  rw [resumed, recalled_eq_some h hcount]
  rfl

end Store

/-- No row has a negative zero. -/
def Tables.HasPlainZeros (t : Tables) : Prop :=
  ∀ k row, t.progress.get? k = some row → row.count.dropZeroSign = row.count

theorem Tables.HasPlainZeros.resumed {s : Store} (h : s.tables.HasPlainZeros) (k : ProgressKey) :
    (s.resumed k).count.dropZeroSign = (s.resumed k).count := by
  rw [Store.resumed, Store.recalled, progress?]
  cases hrow : s.tables.progress.get? ⟨k.scheduleId, k.triggerId⟩ with
  | none => rfl
  | some row =>
    simp only [progressOfRow]
    split
    · next progress hread =>
      cases hstate : row.lastState with
      | none =>
        rw [hstate] at hread
        cases hread
        exact h _ row hrow
      | some text =>
        rw [hstate] at hread
        simp only [] at hread
        split at hread
        · cases hread
          exact h _ row hrow
        · cases hread
    · rfl

theorem Tables.HasPlainZeros.foldl_putProgress {t : Tables} (h : t.HasPlainZeros)
    (ps : List Progress) : (ps.foldl putProgress t).HasPlainZeros := by
  intro k row hrow
  rw [get?_foldl_putProgress, Option.or_eq_some_iff] at hrow
  rcases hrow with hrow | ⟨-, hrow⟩
  · obtain ⟨p, -, rfl⟩ := Option.map_eq_some_iff.mp hrow
    exact Binary64.dropZeroSign_dropZeroSign _
  · exact h k row hrow

/-! ## A schedule in its own state -/

namespace Schedule

/-- A trigger of a schedule as the schedule's own state has it, with some progress. -/
def stand (schedule : Schedule) (progress : ProgressKey → Progress) (d : Trigger × Execution) :
    Prepared :=
  ⟨schedule.id, d.2, d.1, progress ⟨schedule.id, d.1.id⟩, schedule.window, schedule.priority,
    schedule.state.enables d.2⟩

/-- All triggers of a schedule. -/
def standing (schedule : Schedule) (progress : ProgressKey → Progress) : List Prepared :=
  schedule.definitions.map (schedule.stand progress)

/-- A schedule whose triggers can be given back: their ids are distinct, none of them begins anew
each time, and every goal is a number. -/
structure IsResumable (schedule : Schedule) : Prop where
  distinct : (schedule.definitions.map (·.1.id)).Nodup
  quiet : ∀ d ∈ schedule.definitions, schedule.state.enables d.2 = true → d.2 = .execution
  goals : ∀ d ∈ schedule.definitions, d.1.goal ≠ .nan

/-- No trigger of a schedule has more progress than its goal leaves room for. -/
def IsSettled (schedule : Schedule) (s : Store) : Prop :=
  ∀ d ∈ schedule.definitions, (schedule.stand s.resumed d).exceedsGoal = false

variable {schedule : Schedule} {s s' : Store} {d : Trigger × Execution}

theorem standing_congr (h : ∀ k, k.scheduleId = schedule.id → s'.progressRow k = s.progressRow k) :
    schedule.standing s'.resumed = schedule.standing s.resumed := by
  refine List.map_congr_left fun d _ => ?_
  rw [stand, stand, Store.resumed_congr (h ⟨schedule.id, d.1.id⟩ rfl)]

theorem IsSettled.congr (h : schedule.IsSettled s)
    (hrows : ∀ k, k.scheduleId = schedule.id → s'.progressRow k = s.progressRow k) :
    schedule.IsSettled s' := by
  intro d hd
  rw [stand, Store.resumed_congr (hrows ⟨schedule.id, d.1.id⟩ rfl)]
  exact h d hd

theorem isFor_stand (h : (schedule.stand s.resumed d).exceedsGoal = false) :
    (schedule.stand s.resumed d).IsFor schedule.id := by
  have hkey := s.key_resumed ⟨schedule.id, d.1.id⟩
  refine ⟨rfl, congrArg ProgressKey.scheduleId hkey, congrArg ProgressKey.triggerId hkey,
    fun hnan => ?_⟩
  rw [Prepared.exceedsGoal, hnan] at h
  cases h

theorem IsSettled.isFor (h : schedule.IsSettled s) :
    ∀ t ∈ schedule.standing s.resumed, t.IsFor schedule.id := by
  intro t ht
  obtain ⟨d, hd, rfl⟩ := List.mem_map.mp ht
  exact isFor_stand (h d hd)

/-- The trigger with the id of a definition is the one of the definition. -/
theorem withId_standing (h : schedule.IsResumable) (hd : d ∈ schedule.definitions)
    (progress : ProgressKey → Progress) :
    Processor.withId d.1.id (schedule.standing progress) = [schedule.stand progress d] := by
  rw [Processor.withId, standing, List.filter_map]
  have hone := filter_eq_singleton h.distinct hd
  exact (congrArg (List.map (schedule.stand progress)) hone)

end Schedule

/-! ## One event -/

/-- An event whose value is finite. -/
def Event.IsFinite : Event → Prop
  | .occurred _ _ value => value.isFinite = true
  | .stateChanged _ => True

/-- What counts adds a number, which is finite if that of the event is. -/
theorem Trigger.exists_increment {trigger : Trigger} {event : Event} {p p' : Progress}
    (h : trigger.advance? event p = some p') :
    ∃ x : Binary64, (event.IsFinite → x.isFinite = true) ∧ p'.count = p.count + x := by
  cases event with
  | occurred type data value =>
    rw [advance?] at h
    split at h
    · cases h
      refine ⟨trigger.increment value, fun hevent => ?_, rfl⟩
      rw [increment]
      split
      · exact hevent
      · exact Binary64.isFinite_one
    · cases h
  | stateChanged state =>
    rw [advance?] at h
    split at h
    · cases h
      exact ⟨1, fun _ => Binary64.isFinite_one, rfl⟩
    · cases h

namespace Prepared

variable {t : Prepared} {event : Event} {now : Instant}

theorem count_ne_nan (h : t.exceedsGoal = false) : t.progress.count ≠ .nan := by
  intro hnan
  rw [exceedsGoal, hnan] at h
  cases h

/-- A count that is no negative zero does not become one. -/
theorem plain_process (hzero : t.progress.count.dropZeroSign = t.progress.count) (event : Event)
    (now : Instant) :
    (t.process event now).1.progress.count.dropZeroSign =
      (t.process event now).1.progress.count := by
  cases hcredits : t.credits event now with
  | false =>
    rw [process_of_not_credits hcredits]
    exact hzero
  | true =>
    obtain ⟨progress, hadvance, hprocess⟩ := process_of_credits hcredits
    obtain ⟨x, -, hcount⟩ := Trigger.exists_increment hadvance
    rw [hprocess]
    split
    · rfl
    · rw [hcount]
      exact Binary64.dropZeroSign_add hzero

/-- A trigger that is below its goal is so after an event, if its count is still a number. -/
theorem below_process (hgoal : t.trigger.goal ≠ .nan) (hsettled : t.exceedsGoal = false)
    (hcount : (t.process event now).1.progress.count ≠ .nan) :
    (t.process event now).1.exceedsGoal = false := by
  cases hcredits : t.credits event now with
  | false =>
    rw [process_of_not_credits hcredits]
    exact hsettled
  | true =>
    obtain ⟨progress, -, hprocess⟩ := process_of_credits hcredits
    rw [hprocess] at hcount ⊢
    split at hcount
    · next hreached =>
      rw [if_pos hreached]
      rfl
    · next hbelow =>
      have hlt := Binary64.lt_of_not_le hcount hgoal (by simpa [Trigger.isReached] using hbelow)
      rw [if_neg hbelow, exceedsGoal, hlt, Bool.not_true, Bool.and_false]

/-- A finite event leaves the count a number. -/
theorem number_process (hevent : event.IsFinite) (hcount : t.progress.count ≠ .nan)
    (now : Instant) : (t.process event now).1.progress.count ≠ .nan := by
  cases hcredits : t.credits event now with
  | false =>
    rw [process_of_not_credits hcredits]
    exact hcount
  | true =>
    obtain ⟨progress, hadvance, hprocess⟩ := process_of_credits hcredits
    obtain ⟨x, hx, hadded⟩ := Trigger.exists_increment hadvance
    rw [hprocess]
    split
    · exact fun h => by cases h
    · exact hadded ▸ Binary64.add_ne_nan hcount (hx hevent)

/-- A trigger that is below its goal is so after a finite event, and its count can be stored. -/
theorem settled_process (hgoal : t.trigger.goal ≠ .nan) (hevent : event.IsFinite)
    (hsettled : t.exceedsGoal = false) (hzero : t.progress.count.dropZeroSign = t.progress.count)
    (now : Instant) :
    (t.process event now).1.exceedsGoal = false ∧
      (t.process event now).1.progress.count.dropZeroSign =
        (t.process event now).1.progress.count :=
  ⟨below_process hgoal hsettled (number_process hevent (count_ne_nan hsettled) now),
    plain_process hzero event now⟩

end Prepared

namespace Processor

/-- A row that no outcome is for stays. -/
theorem progressRow_persist_of_ofTrigger {os : List (Int × Outcome)} {k : ProgressKey}
    (h : ofTrigger k os = []) :
    (persist s (os.map (·.2.progress))).progressRow k = s.progressRow k := by
  refine progressRow_persist_of_ne fun q hq hkey => ?_
  obtain ⟨o, ho, rfl⟩ := List.mem_map.mp hq
  exact List.filter_eq_nil_iff.mp h o ho (decide_eq_true hkey)

/-- When outcomes are written, a trigger whose outcome is among them has the progress of the outcome
in its row. -/
theorem progressRow_persist_process {s : Store} (hs : s.Allows .writeProgress)
    {os : List (Int × Outcome)} (hnumbers : ∀ o ∈ os, o.2.progress.count ≠ .nan) {id : String}
    {t : Prepared} (hfor : t.IsFor id) {event : Event} {now : Instant}
    (hof : ofTrigger ⟨id, t.trigger.id⟩ os = outcomes event now [t]) :
    (persist s (os.map (·.2.progress))).progressRow ⟨id, t.trigger.id⟩ =
      ((t.process event now).2.map fun o => Tables.rowOfProgress o.progress).or
        (s.progressRow ⟨id, t.trigger.id⟩) := by
  have hps : ∀ q ∈ os.map (·.2.progress), q.count ≠ .nan := fun q hq => by
    obtain ⟨o, ho, rfl⟩ := List.mem_map.mp hq
    exact hnumbers o ho
  have hfilter : ((os.map (·.2.progress)).filter fun q => q.key = ⟨id, t.trigger.id⟩) =
      (outcomes event now [t]).map (·.2.progress) := hof ▸ List.filter_map ..
  rw [outcomes_cons] at hfilter
  cases hsnd : (t.process event now).2 with
  | none =>
    rw [hsnd] at hfilter
    refine progressRow_persist_of_ne fun q hq hq' => ?_
    exact List.filter_eq_nil_iff.mp hfilter q hq (decide_eq_true hq')
  | some o =>
    have hkey := key_of_process hfor hsnd
    rw [hsnd, ← hkey] at hfilter
    rw [← hkey]
    exact progressRow_persist hs hps hfilter

/-- When outcomes are written, the store gives back what a trigger has become whose outcome is
among them, if it gave back before what the trigger was. -/
theorem resumed_persist {s : Store} (hs : s.Allows .writeProgress) {os : List (Int × Outcome)}
    (hnumbers : ∀ o ∈ os, o.2.progress.count ≠ .nan) {id : String} {t : Prepared}
    (hfor : t.IsFor id) (hheld : t.progress = s.resumed ⟨id, t.trigger.id⟩)
    (hzero : t.progress.count.dropZeroSign = t.progress.count) {event : Event} {now : Instant}
    (hof : ofTrigger ⟨id, t.trigger.id⟩ os = outcomes event now [t]) :
    (persist s (os.map (·.2.progress))).resumed ⟨id, t.trigger.id⟩ =
      (t.process event now).1.progress := by
  have hrow := progressRow_persist_process hs hnumbers hfor hof
  cases hsnd : (t.process event now).2 with
  | none =>
    rw [hsnd] at hrow
    rw [Prepared.process_fst_of_snd_eq_none hsnd, hheld]
    exact Store.resumed_congr hrow
  | some o =>
    have hkey := key_of_process hfor hsnd
    have hplain := Prepared.plain_process hzero event now
    rw [← (Prepared.process_snd hsnd).1] at hplain ⊢
    rw [hsnd, ← hkey] at hrow
    rw [← hkey]
    exact Store.resumed_of_progressRow hrow hplain

/-- The prepared triggers are those that the store would give back, for these schedules and for no
others. -/
structure Resumed (schedules : List Schedule) (p : Processor) (s : Store) : Prop where
  stands : ∀ schedule ∈ schedules,
    p.prepared.get? schedule.id = some (schedule.standing s.resumed)
  settled : ∀ schedule ∈ schedules, schedule.IsSettled s
  others : ∀ id, id ∉ schedules.map (·.id) → p.prepared.get? id = none
  rows : ∀ k, k.scheduleId ∉ schedules.map (·.id) → s.progressRow k = none
  zeros : s.tables.HasPlainZeros

variable {schedules : List Schedule} {p : Processor} {s : Store} {event : Event} {now : Instant}

/-- What is prepared is prepared for one of the schedules. -/
theorem Resumed.exists_schedule (h : Resumed schedules p s) {id : String} {ts : List Prepared}
    (hts : p.prepared.get? id = some ts) :
    ∃ schedule ∈ schedules, schedule.id = id ∧ ts = schedule.standing s.resumed := by
  by_cases hid : id ∈ schedules.map (·.id)
  · obtain ⟨schedule, hschedule, rfl⟩ := List.mem_map.mp hid
    rw [h.stands schedule hschedule] at hts
    exact ⟨schedule, hschedule, rfl, (Option.some.inj hts).symm⟩
  · rw [h.others id hid] at hts
    cases hts

/-- The rows are all that matters of the store. -/
theorem Resumed.of_tables (h : Resumed schedules p s) {s' : Store} (htables : s'.tables = s.tables) :
    Resumed schedules p s' := by
  have hrows : ∀ k, s'.progressRow k = s.progressRow k := fun k => by
    rw [Store.progressRow, Store.progressRow, htables]
  refine ⟨fun schedule hschedule => ?_, fun schedule hschedule => ?_, h.others, fun k hk => ?_, ?_⟩
  · rw [h.stands schedule hschedule]
    exact congrArg some (Schedule.standing_congr fun k _ => hrows k).symm
  · exact (h.settled schedule hschedule).congr fun k _ => hrows k
  · exact (hrows k).trans (h.rows k hk)
  · rw [htables]
    exact h.zeros

/-- What is prepared is determined by the progress that is stored. -/
theorem Resumed.prepared_eq (h : Resumed schedules p s) {p' : Processor} {s' : Store}
    (h' : Resumed schedules p' s') (hprogress : s'.tables.progress = s.tables.progress) :
    p'.prepared = p.prepared := by
  refine Table.eq_of_get?_eq fun id => ?_
  by_cases hid : id ∈ schedules.map (·.id)
  · obtain ⟨schedule, hschedule, rfl⟩ := List.mem_map.mp hid
    rw [h'.stands schedule hschedule, h.stands schedule hschedule]
    refine congrArg some (Schedule.standing_congr fun k _ => ?_)
    rw [Store.progressRow, Store.progressRow, hprogress]
  · rw [h'.others id hid, h.others id hid]

theorem Resumed.isProper (h : Resumed schedules p s) : p.IsProper := by
  intro id ts hts
  obtain ⟨schedule, hschedule, rfl, rfl⟩ := h.exists_schedule hts
  exact (h.settled schedule hschedule).isFor

theorem Resumed.triggersOf (h : Resumed schedules p s) {schedule : Schedule}
    (hschedule : schedule ∈ schedules) :
    p.triggersOf schedule.id = schedule.standing s.resumed := by
  rw [Processor.triggersOf, h.stands schedule hschedule]
  rfl

/-- Where an outcome of an event comes from. -/
theorem Resumed.exists_of_mem (h : Resumed schedules p s) {o : Int × Outcome}
    (ho : o ∈ p.prepared.values.flatMap (outcomes event now)) :
    ∃ schedule ∈ schedules, ∃ d ∈ schedule.definitions,
      ((schedule.stand s.resumed d).process event now).2 = some o.2 := by
  obtain ⟨ts, hts, ho⟩ := List.mem_flatMap.mp ho
  obtain ⟨e, he, rfl⟩ := List.mem_map.mp hts
  obtain ⟨schedule, hschedule, -, hstanding⟩ :=
    h.exists_schedule ((Table.get?_eq_some_iff _ _ _).mpr he)
  rw [hstanding] at ho
  obtain ⟨t, ht, hprocess, -⟩ := mem_outcomes.mp ho
  obtain ⟨d, hd, rfl⟩ := List.mem_map.mp ht
  exact ⟨schedule, hschedule, d, hd, hprocess⟩

/-- What an event leaves to be written is numbers. -/
theorem Resumed.numbers (h : Resumed schedules p s)
    (hresumable : ∀ schedule ∈ schedules, schedule.IsResumable) (hevent : event.IsFinite)
    (now : Instant) :
    ∀ o ∈ p.prepared.values.flatMap (outcomes event now), o.2.progress.count ≠ .nan := by
  intro o ho
  obtain ⟨schedule, hschedule, d, hd, hprocess⟩ := h.exists_of_mem ho
  rw [(Prepared.process_snd hprocess).1]
  exact Prepared.count_ne_nan (Prepared.settled_process ((hresumable schedule hschedule).goals d hd)
    hevent (h.settled schedule hschedule d hd) (h.zeros.resumed _) now).1

/-- After an event a trigger is the one that the store gives back then. -/
theorem Resumed.process_stand (h : Resumed schedules p s) (hs : s.Allows .writeProgress)
    (hresumable : ∀ schedule ∈ schedules, schedule.IsResumable) (hevent : event.IsFinite)
    {schedule : Schedule} (hschedule : schedule ∈ schedules) {d : Trigger × Execution}
    (hd : d ∈ schedule.definitions) (now : Instant) :
    ((schedule.stand s.resumed d).process event now).1 =
      schedule.stand (persist s ((p.prepared.values.flatMap (outcomes event now)).map
        (·.2.progress))).resumed d := by
  have hof := ofTrigger_flatMap h.isProper event now ⟨schedule.id, d.1.id⟩
  rw [h.triggersOf hschedule, ← withId,
    Schedule.withId_standing (hresumable schedule hschedule) hd] at hof
  have hresumed := resumed_persist (t := schedule.stand s.resumed d) hs
    (h.numbers hresumable hevent now) (Schedule.isFor_stand (h.settled schedule hschedule d hd)) rfl
    (h.zeros.resumed _) hof
  obtain ⟨progress, hprocess, -⟩ := (schedule.stand s.resumed d).process_fst event now
  rw [hprocess] at hresumed ⊢
  exact congrArg (fun progress => { schedule.stand s.resumed d with progress := progress })
    hresumed.symm

/-- An event keeps what is prepared what the store would give back. -/
theorem Resumed.processEvent (h : Resumed schedules p s) (hs : s.Allows .writeProgress)
    (hresumable : ∀ schedule ∈ schedules, schedule.IsResumable) (hevent : event.IsFinite)
    (now : Instant) :
    Resumed schedules (p.processEvent s event now).processor (p.processEvent s event now).store := by
  by_cases hpaused : p.paused = true
  · rw [processEvent_of_paused hpaused]
    have hprepared : (p.remember event).prepared = p.prepared := by cases event <;> rfl
    exact ⟨fun schedule hschedule => hprepared ▸ h.stands schedule hschedule, h.settled,
      fun id hid => hprepared ▸ h.others id hid, h.rows, h.zeros⟩
  · rw [processEvent_of_not_paused hpaused]
    have hstep : ∀ schedule ∈ schedules, ∀ d ∈ schedule.definitions,
        ((schedule.stand s.resumed d).process event now).1 =
          schedule.stand (persist s ((p.prepared.values.flatMap (outcomes event now)).map
            (·.2.progress))).resumed d := fun schedule hschedule d hd =>
      h.process_stand hs hresumable hevent hschedule hd now
    have hnumbers := h.numbers hresumable hevent now
    refine ⟨?_, ?_, ?_, ?_, ?_⟩
    · intro schedule hschedule
      show (p.prepared.map fun _ => feed event now).get? schedule.id = _
      rw [Table.get?_map, h.stands schedule hschedule, Option.map_some, feed, Schedule.standing,
        Schedule.standing, List.map_map]
      exact congrArg some (List.map_congr_left fun d hd => hstep schedule hschedule d hd)
    · intro schedule hschedule d hd
      show (schedule.stand (persist s _).resumed d).exceedsGoal = false
      rw [← hstep schedule hschedule d hd]
      exact (Prepared.settled_process ((hresumable schedule hschedule).goals d hd) hevent
        (h.settled schedule hschedule d hd) (h.zeros.resumed _) now).1
    · intro id hid
      show (p.prepared.map fun _ => feed event now).get? id = none
      rw [Table.get?_map, h.others id hid, Option.map_none]
    · intro k hk
      rw [← h.rows k hk]
      refine progressRow_persist_of_ne fun q hq hkey => hk ?_
      obtain ⟨o, ho, rfl⟩ := List.mem_map.mp hq
      obtain ⟨schedule, hschedule, d, hd, hprocess⟩ := h.exists_of_mem ho
      rw [key_of_process (Schedule.isFor_stand (h.settled schedule hschedule d hd)) hprocess] at hkey
      rw [← hkey]
      exact List.mem_map_of_mem hschedule
    · show (persist s _).tables.HasPlainZeros
      rw [tables_persist hs fun q hq => ?_]
      · exact h.zeros.foldl_putProgress _
      · obtain ⟨o, ho, rfl⟩ := List.mem_map.mp hq
        exact hnumbers o ho

end Processor
end Automation
