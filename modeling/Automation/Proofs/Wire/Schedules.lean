import Automation.Proofs.Time.Rfc3339
import Automation.Proofs.Wire.Events
import Automation.Proofs.Wire.Matchers
import Automation.Wire.Schedule

/-!
# Triggers and schedules are read back

Both are records, and both are told by their fields: what is read from a field is written in a field
of that name.  Since a predicate is a matcher, each may be read again from another form than at
first.
-/

namespace Automation

open Json

/-! ## Times and names -/

theorem Instant.roundTrips : RoundTrips json decode? decode? where
  same := by
    intro _ t _
    rw [decode?, json, draft, Decode.string, Option.bind_some, ofText?_text]
  finite _ t _ _ := .str t.text

theorem ScheduleState.roundTrips : RoundTrips json decode? decode? :=
  .plainName (fun s => by cases s <;> rfl) Decode.isNothing

/-! ## Triggers and schedules -/

variable {first again : LeafForm}

namespace Trigger

/-- **A trigger is read back.** -/
theorem roundTrips : RoundTrips json (decode? first) (decode? again) where
  same := by
    intro d t h
    simp only [decode?, Option.bind_eq_bind, Option.bind_eq_some_iff, Option.some.injEq] at h
    obtain ⟨fields, -, id, hid, type, htype, goal, hgoal, predicate, hpredicate, rfl⟩ := h
    have hnull : ∀ d m, Matcher.decode? first d = some m → m.json.draft = .null → d = .null :=
      fun _ m _ hm => absurd hm m.json_draft_ne_null
    simp only [decode?, json, Option.bind_eq_bind, Option.bind_eq_some_iff]
    exact ⟨_, record?_draft hasKeys_field.field.field.fieldIfSome (by decide),
      id, RoundTrips.string.required hid (by simp [List.lookup_append]),
      type, EventType.roundTrips.required htype (by simp [List.lookup_append]),
      goal, RoundTrips.double.required hgoal (by simp [List.lookup_append]), predicate,
      Matcher.roundTrips.optional hnull hpredicate (by simp [List.lookup_append]), rfl⟩
  finite := by
    intro d t hd h
    simp only [decode?, Option.bind_eq_bind, Option.bind_eq_some_iff, Option.some.injEq] at h
    obtain ⟨fields, hrecord, id, -, type, -, goal, hgoal, predicate, hpredicate, rfl⟩ := h
    have hfields := Decode.isFinite_of_record? hd hrecord
    have hmatcher : RoundTrips Matcher.json (Matcher.decode? first) (Matcher.decode? again) :=
      Matcher.roundTrips
    refine isFinite_draft_obj ?_
    simp only [List.forall_mem_append, forall_mem_field, forall_mem_fieldIfSome,
      Option.forall_mem_map]
    exact ⟨⟨⟨.str id, .str type.name⟩, RoundTrips.double.finite.required hfields hgoal⟩,
      hmatcher.finite.optional hfields hpredicate⟩

end Trigger

namespace Schedule

/-- A schedule is read field by field. -/
theorem decode?_eq_some_iff {form : LeafForm} {d : Draft} {s : Schedule} :
    decode? form d = some s ↔ ∃ fields, Decode.record? fieldNames d = some fields ∧
      Decode.required fields "id" Decode.string = some s.id ∧
      Decode.optional fields "group" Decode.string = some s.group ∧
      Decode.defaulted fields "priority" Decode.int32 0 = some s.priority ∧
      Decode.optional fields "start" Instant.decode? = some s.window.start ∧
      Decode.optional fields "end" Instant.decode? = some s.window.stop ∧
      Decode.required fields "triggers" (Decode.list (Trigger.decode? form)) = some s.triggers ∧
      Decode.defaulted fields "cancellation_triggers" (Decode.list (Trigger.decode? form)) [] =
        some s.cancellationTriggers ∧
      Decode.defaulted fields "frequency_constraint_ids" (Decode.list Decode.string) [] =
        some s.constraintIds ∧
      Decode.defaulted fields "state" ScheduleState.decode? .idle = some s.state := by
  simp only [decode?, Option.bind_eq_bind, Option.bind_eq_some_iff, Option.some.injEq]
  constructor
  · rintro ⟨fields, hfields, id, hid, group, hgroup, priority, hpriority, start, hstart, stop,
      hstop, triggers, htriggers, cancellation, hcancellation, constraintIds, hconstraintIds, state,
      hstate, rfl⟩
    exact ⟨fields, hfields, hid, hgroup, hpriority, hstart, hstop, htriggers, hcancellation,
      hconstraintIds, hstate⟩
  · rintro ⟨fields, hfields, hid, hgroup, hpriority, hstart, hstop, htriggers, hcancellation,
      hconstraintIds, hstate⟩
    exact ⟨fields, hfields, _, hid, _, hgroup, _, hpriority, _, hstart, _, hstop, _, htriggers, _,
      hcancellation, _, hconstraintIds, _, hstate, rfl⟩

/-- **A schedule is read back.** -/
theorem roundTrips : RoundTrips json (decode? first) (decode? again) where
  same := by
    intro d s h
    obtain ⟨fields, -, hid, hgroup, hpriority, hstart, hstop, htriggers, hcancellation,
      hconstraintIds, hstate⟩ := decode?_eq_some_iff.mp h
    have hstr := RoundTrips.null_of_string
    have htime : ∀ d t, Instant.decode? d = some t → t.json.draft = .null → d = .null :=
      fun _ _ _ ht => Draft.noConfusion ht
    have hrecord : Decode.record? fieldNames s.json.draft = _ := record?_draft
      hasKeys_field.fieldIfSome.field.fieldIfSome.fieldIfSome.field.field.field.field (by decide)
    refine decode?_eq_some_iff.mpr ⟨_, hrecord, ?_⟩
    exact ⟨RoundTrips.string.required hid (by simp [List.lookup_append]),
      RoundTrips.string.optional hstr hgroup (by simp [List.lookup_append]),
      RoundTrips.int32.defaulted rfl hpriority (by simp [List.lookup_append]),
      Instant.roundTrips.optional htime hstart (by simp [List.lookup_append]),
      Instant.roundTrips.optional htime hstop (by simp [List.lookup_append]),
      Trigger.roundTrips.list.required htriggers (by simp [List.lookup_append]),
      Trigger.roundTrips.list.defaulted rfl hcancellation (by simp [List.lookup_append]),
      RoundTrips.string.list.defaulted rfl hconstraintIds (by simp [List.lookup_append]),
      ScheduleState.roundTrips.defaulted rfl hstate (by simp [List.lookup_append])⟩
  finite := by
    intro d s hd h
    obtain ⟨fields, hrecord, -, -, hpriority, -, -, htriggers, hcancellation, hconstraintIds, -⟩ :=
      decode?_eq_some_iff.mp h
    have hfields := Decode.isFinite_of_record? hd hrecord
    have htrigger : RoundTrips Trigger.json (Trigger.decode? first) (Trigger.decode? again) :=
      Trigger.roundTrips
    have hnone : ∀ {α : Type} (item : α → Json), (Json.list item []).draft.IsFinite :=
      fun _ => isFinite_draft_arr (List.forall_mem_nil _)
    refine isFinite_draft_obj ?_
    simp only [List.forall_mem_append, forall_mem_field, forall_mem_fieldIfSome,
      Option.forall_mem_map]
    refine ⟨⟨⟨⟨⟨⟨⟨⟨.str s.id, fun x _ => .str x⟩, ?_⟩, fun t _ => .str t.text⟩,
      fun t _ => .str t.text⟩, ?_⟩, ?_⟩, ?_⟩, .str s.state.name⟩
    · exact RoundTrips.int32.finite.defaulted hfields (.int rfl) hpriority
    · exact htrigger.list.finite.required hfields htriggers
    · exact htrigger.list.finite.defaulted hfields (hnone _) hcancellation
    · exact RoundTrips.string.list.finite.defaulted hfields (hnone _) hconstraintIds

end Schedule
end Automation
