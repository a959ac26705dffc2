import Automation.Dispatch.Config
import Automation.Proofs.Wire.Schedules
import Automation.Wire.Limit

/-!
# The data model is read back

Every type of the data model decides by itself what it renames, leaves out, defaults or flattens,
and its encoder and its decoder have to agree about that.  `dataModel_roundTrips` says that they do:
whatever is accepted, in whatever form, is written as a value that is accepted and gives the same.

A record is taken apart into its fields and put together from them again, one line for each field.
Where more than that is needed it is because the written form holds less than the type does: a range
is written in whole milliseconds, a span in two bounded parts, an instant as text.  None of them
loses anything that was read.
-/

namespace Automation

open Json

/-! ## Spans -/

namespace Span

/-- A span is made of its parts. -/
theorem ofParts?_parts {s : Span} (h : s.nanos ≤ longest.nanos) :
    ofParts? s.seconds s.subsecond = some s := by
  have htotal : s.seconds * 1000000000 + s.subsecond = s.nanos := by
    rw [seconds, subsecond, Nat.mul_comm, Nat.div_add_mod]
  rw [ofParts?, htotal]
  exact if_pos h

theorem le_longest_of_ofParts? {seconds nanos : Nat} {s : Span}
    (h : ofParts? seconds nanos = some s) : s.nanos ≤ longest.nanos := by
  obtain ⟨hle, hs⟩ := Option.ite_none_right_eq_some.mp h
  cases hs
  exact hle

theorem le_longest_of_decode? {d : Draft} {s : Span} (h : decode? d = some s) :
    s.nanos ≤ longest.nanos := by
  obtain ⟨-, h⟩ := Option.ite_none_right_eq_some.mp h
  simp only [Option.bind_eq_bind, Option.bind_eq_some_iff] at h
  obtain ⟨fields, -, seconds, -, nanos, -, hs⟩ := h
  exact le_longest_of_ofParts? hs

/-- The parts of a span that can be read fit their fields. -/
theorem parts_lt {s : Span} (h : s.nanos ≤ longest.nanos) :
    s.seconds < 2 ^ 64 ∧ s.subsecond < 2 ^ 32 := by
  have hle : s.nanos ≤ 0x10000000000000000 * 1000000000 - 1 := h
  rw [seconds, subsecond]
  omega

/-- **A span is read back**, since one that was read is short enough for its two parts. -/
theorem roundTrips : RoundTrips json decode? decode? where
  same := by
    intro d s h
    have hle := le_longest_of_decode? h
    obtain ⟨hseconds, hnanos⟩ := parts_lt hle
    rw [decode?]
    refine Option.ite_none_right_eq_some.mpr ⟨rfl, ?_⟩
    simp only [json, Option.bind_eq_bind, Option.bind_eq_some_iff]
    exact ⟨_, record?_draft hasKeys_field.field (by decide),
      s.seconds, required_fieldsOf (by simp [List.lookup_append]) (RoundTrips.word_int hseconds),
      s.subsecond, required_fieldsOf (by simp [List.lookup_append]) (RoundTrips.word_int hnanos),
      ofParts?_parts hle⟩
  finite := by
    intro d s _ h
    obtain ⟨hseconds, hnanos⟩ := parts_lt (le_longest_of_decode? h)
    refine isFinite_draft_obj ?_
    simp only [List.forall_mem_append, forall_mem_field]
    exact ⟨RoundTrips.isFinite_natCast hseconds,
      RoundTrips.isFinite_natCast (Nat.lt_trans hnanos (by decide))⟩

end Span

/-! ## Limits -/

namespace Constraint

/-- **A constraint is read back**, since its range was read in whole milliseconds. -/
theorem roundTrips : RoundTrips json decode? decode? where
  same := by
    intro d c h
    simp only [decode?, Option.bind_eq_bind, Option.bind_eq_some_iff, Option.some.injEq] at h
    obtain ⟨fields, -, id, hid, millis, hmillis, count, hcount, rfl⟩ := h
    simp only [decode?, json, Span.toMillis_ofMillis, Option.bind_eq_bind, Option.bind_eq_some_iff]
    exact ⟨_, record?_draft hasKeys_field.field.field (by decide),
      id, RoundTrips.string.required hid (by simp [List.lookup_append]),
      millis, (RoundTrips.word (by decide)).required hmillis (by simp [List.lookup_append]),
      count, (RoundTrips.word (by decide)).required hcount (by simp [List.lookup_append]), rfl⟩
  finite := by
    intro d c hd h
    simp only [decode?, Option.bind_eq_bind, Option.bind_eq_some_iff, Option.some.injEq] at h
    obtain ⟨fields, hrecord, id, -, millis, hmillis, count, hcount, rfl⟩ := h
    have hfields := Decode.isFinite_of_record? hd hrecord
    refine isFinite_draft_obj ?_
    simp only [Span.toMillis_ofMillis, List.forall_mem_append, forall_mem_field]
    exact ⟨⟨.str id, (RoundTrips.word (by decide)).finite.required hfields hmillis⟩,
      (RoundTrips.word (by decide)).finite.required hfields hcount⟩

end Constraint

namespace Occurrence

/-- **An occurrence is read back.** -/
theorem roundTrips : RoundTrips json decode? decode? where
  same := by
    intro d o h
    simp only [decode?, Option.bind_eq_bind, Option.bind_eq_some_iff, Option.some.injEq] at h
    obtain ⟨fields, -, constraintId, hid, time, htime, rfl⟩ := h
    simp only [decode?, json, Option.bind_eq_bind, Option.bind_eq_some_iff]
    exact ⟨_, record?_draft hasKeys_field.field (by decide),
      constraintId, RoundTrips.string.required hid (by simp [List.lookup_append]),
      time, Instant.roundTrips.required htime (by simp [List.lookup_append]), rfl⟩
  finite := by
    intro _ o _ _
    refine isFinite_draft_obj ?_
    simp only [List.forall_mem_append, forall_mem_field]
    exact ⟨.str o.constraintId, .str o.time.text⟩

end Occurrence

namespace QueueConfig

/-- **The configuration of a queue is read back.** -/
theorem roundTrips : RoundTrips json decode? decode? where
  same := by
    intro d c h
    simp only [decode?, Option.bind_eq_bind, Option.bind_eq_some_iff, Option.some.injEq] at h
    obtain ⟨fields, -, maxConcurrent, hconcurrent, maxPending, hpending, initialBackoff, hinitial,
      maxBackoff, hmax, rfl⟩ := h
    simp only [decode?, json, Option.bind_eq_bind, Option.bind_eq_some_iff]
    exact ⟨_, record?_draft hasKeys_field.field.field.field (by decide), maxConcurrent,
      (RoundTrips.word (by decide)).required hconcurrent (by simp [List.lookup_append]), maxPending,
      (RoundTrips.word (by decide)).required hpending (by simp [List.lookup_append]),
      initialBackoff, Span.roundTrips.required hinitial (by simp [List.lookup_append]),
      maxBackoff, Span.roundTrips.required hmax (by simp [List.lookup_append]), rfl⟩
  finite := by
    intro d c hd h
    simp only [decode?, Option.bind_eq_bind, Option.bind_eq_some_iff, Option.some.injEq] at h
    obtain ⟨fields, hrecord, maxConcurrent, hconcurrent, maxPending, hpending, initialBackoff,
      hinitial, maxBackoff, hmax, rfl⟩ := h
    have hfields := Decode.isFinite_of_record? hd hrecord
    refine isFinite_draft_obj ?_
    simp only [List.forall_mem_append, forall_mem_field]
    exact ⟨⟨⟨(RoundTrips.word (by decide)).finite.required hfields hconcurrent,
      (RoundTrips.word (by decide)).finite.required hfields hpending⟩,
      Span.roundTrips.finite.required hfields hinitial⟩,
      Span.roundTrips.finite.required hfields hmax⟩

end QueueConfig

/-! ## Progress and firings -/

namespace Progress

/-- **Progress is read back.** -/
theorem roundTrips : RoundTrips json decode? decode? where
  same := by
    intro d p h
    simp only [decode?, Option.bind_eq_bind, Option.bind_eq_some_iff, Option.some.injEq] at h
    obtain ⟨fields, -, scheduleId, hschedule, triggerId, htrigger, count, hcount, lastState, hlast,
      rfl⟩ := h
    have hnull : ∀ d s, AppState.decode? d = some s → s.json.draft = .null → d = .null :=
      fun _ _ _ hs => Draft.noConfusion hs
    simp only [decode?, json, Option.bind_eq_bind, Option.bind_eq_some_iff]
    exact ⟨_, record?_draft hasKeys_field.field.field.fieldIfSome (by decide),
      scheduleId, RoundTrips.string.required hschedule (by simp [List.lookup_append]),
      triggerId, RoundTrips.string.required htrigger (by simp [List.lookup_append]),
      count, RoundTrips.double.required hcount (by simp [List.lookup_append]),
      lastState, AppState.roundTrips.optional hnull hlast (by simp [List.lookup_append]), rfl⟩
  finite := by
    intro d p hd h
    simp only [decode?, Option.bind_eq_bind, Option.bind_eq_some_iff, Option.some.injEq] at h
    obtain ⟨fields, hrecord, scheduleId, -, triggerId, -, count, hcount, lastState, hlast, rfl⟩ := h
    have hfields := Decode.isFinite_of_record? hd hrecord
    refine isFinite_draft_obj ?_
    simp only [List.forall_mem_append, forall_mem_field, forall_mem_fieldIfSome,
      Option.forall_mem_map]
    exact ⟨⟨⟨.str scheduleId, .str triggerId⟩, RoundTrips.double.finite.required hfields hcount⟩,
      AppState.roundTrips.finite.optional hfields hlast⟩

end Progress

theorem Execution.roundTrips : RoundTrips json decode? decode? :=
  .plainName (fun e => by cases e <;> rfl) Decode.isNothing

namespace FiringInfo

/-- **What a trigger looked like when it fired is read back.** -/
theorem roundTrips : RoundTrips json decode? decode? where
  same := by
    intro d i h
    simp only [decode?, Option.bind_eq_bind, Option.bind_eq_some_iff, Option.some.injEq] at h
    obtain ⟨fields, -, triggerId, htrigger, eventType, htype, goal, hgoal, count, hcount, payload,
      hpayload, date, hdate, rfl⟩ := h
    simp only [decode?, json, Option.bind_eq_bind, Option.bind_eq_some_iff]
    exact ⟨_, record?_draft hasKeys_field.field.field.field.fieldIfSome.field (by decide),
      triggerId, RoundTrips.string.required htrigger (by simp [List.lookup_append]),
      eventType, EventType.roundTrips.required htype (by simp [List.lookup_append]),
      goal, RoundTrips.double.required hgoal (by simp [List.lookup_append]),
      count, RoundTrips.double.required hcount (by simp [List.lookup_append]), payload,
      RoundTrips.any.optional RoundTrips.null_of_any hpayload (by simp [List.lookup_append]),
      date, Instant.roundTrips.required hdate (by simp [List.lookup_append]), rfl⟩
  finite := by
    intro d i hd h
    simp only [decode?, Option.bind_eq_bind, Option.bind_eq_some_iff, Option.some.injEq] at h
    obtain ⟨fields, hrecord, triggerId, -, eventType, -, goal, hgoal, count, hcount, payload,
      hpayload, date, -, rfl⟩ := h
    have hfields := Decode.isFinite_of_record? hd hrecord
    refine isFinite_draft_obj ?_
    simp only [List.forall_mem_append, forall_mem_field, forall_mem_fieldIfSome]
    exact ⟨⟨⟨⟨⟨.str triggerId, .str eventType.name⟩,
      RoundTrips.double.finite.required hfields hgoal⟩,
      RoundTrips.double.finite.required hfields hcount⟩,
      RoundTrips.any.finite.optional hfields hpayload⟩, .str date.text⟩

end FiringInfo

namespace Firing

/-- **A firing is read back.** -/
theorem roundTrips : RoundTrips json decode? decode? where
  same := by
    intro d f h
    simp only [decode?, Option.bind_eq_bind, Option.bind_eq_some_iff, Option.some.injEq] at h
    obtain ⟨fields, -, scheduleId, hschedule, kind, hkind, info, hinfo, rfl⟩ := h
    simp only [decode?, json, Option.bind_eq_bind, Option.bind_eq_some_iff]
    exact ⟨_, record?_draft hasKeys_field.field.field (by decide),
      scheduleId, RoundTrips.string.required hschedule (by simp [List.lookup_append]),
      kind, Execution.roundTrips.required hkind (by simp [List.lookup_append]),
      info, FiringInfo.roundTrips.required hinfo (by simp [List.lookup_append]), rfl⟩
  finite := by
    intro d f hd h
    simp only [decode?, Option.bind_eq_bind, Option.bind_eq_some_iff, Option.some.injEq] at h
    obtain ⟨fields, hrecord, scheduleId, -, kind, -, info, hinfo, rfl⟩ := h
    have hfields := Decode.isFinite_of_record? hd hrecord
    refine isFinite_draft_obj ?_
    simp only [List.forall_mem_append, forall_mem_field]
    exact ⟨⟨.str scheduleId, .str kind.name⟩, FiringInfo.roundTrips.finite.required hfields hinfo⟩

end Firing

/-! ## The data model -/

/-- **What is read is written so that it is read again.**  Whatever a draft of any type of the data
model gives, in any admitted form, is written as a value that is accepted and gives the same; and
the numbers of that value are finite if those of the draft were.  Matchers and what holds them may
be read again from another form than at first. -/
theorem dataModel_roundTrips (first again : LeafForm) :
    RoundTrips EventType.json EventType.decode? EventType.decode? ∧
    RoundTrips AppState.json AppState.decode? AppState.decode? ∧
    RoundTrips Event.json Event.decode? Event.decode? ∧
    RoundTrips Matcher.json (Matcher.decode? first) (Matcher.decode? again) ∧
    RoundTrips Trigger.json (Trigger.decode? first) (Trigger.decode? again) ∧
    RoundTrips ScheduleState.json ScheduleState.decode? ScheduleState.decode? ∧
    RoundTrips Schedule.json (Schedule.decode? first) (Schedule.decode? again) ∧
    RoundTrips Execution.json Execution.decode? Execution.decode? ∧
    RoundTrips Progress.json Progress.decode? Progress.decode? ∧
    RoundTrips Firing.json Firing.decode? Firing.decode? ∧
    RoundTrips Constraint.json Constraint.decode? Constraint.decode? ∧
    RoundTrips Occurrence.json Occurrence.decode? Occurrence.decode? ∧
    RoundTrips QueueConfig.json QueueConfig.decode? QueueConfig.decode? :=
  ⟨EventType.roundTrips, AppState.roundTrips, Event.roundTrips, Matcher.roundTrips,
    Trigger.roundTrips, ScheduleState.roundTrips, Schedule.roundTrips, Execution.roundTrips,
    Progress.roundTrips, Firing.roundTrips, Constraint.roundTrips, Occurrence.roundTrips,
    QueueConfig.roundTrips⟩

/-- A schedule with a trigger as an array, a second name of a type, a time at an offset inside a
leap second, a matcher of several levels and an unknown field that has no value. -/
def variedSchedule : Draft :=
  .obj [("later", .unreadable), ("id", .str "s"), ("group", .null),
    ("start", .str "2016-12-31 18:59:60.25-05:00"),
    ("triggers", .arr [.arr [.str "t", .obj [("custom_event_count", .null)], .int 2,
      .obj [("and", .arr [.obj [("not", .obj [("range", .arr [.str "a.b", .null, .int 7])])],
        .obj [("equals", .obj [("value",
          .obj [("y", .int 1), ("x", .null), ("y", .int 2)])])]])]]])]

/-- The schedule is accepted as a text, and what is written of it is accepted as a value. -/
theorem variedSchedule_roundTrips :
    ∃ s, Schedule.decode? .objectOrArray variedSchedule = some s ∧
      Schedule.decode? .objectOnly s.json.draft = some s := by
  have hsome : (Schedule.decode? .objectOrArray variedSchedule).isSome = true := by decide +kernel
  obtain ⟨s, hs⟩ := Option.isSome_iff_exists.mp hsome
  obtain ⟨-, -, -, -, -, -, hschedule, -⟩ := dataModel_roundTrips .objectOrArray .objectOnly
  exact ⟨s, hs, hschedule.same variedSchedule s hs⟩

end Automation
