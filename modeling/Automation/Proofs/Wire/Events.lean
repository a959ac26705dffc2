import Automation.Proofs.Json.RoundTrip
import Automation.Wire.Event

/-!
# Events are read back

A name of an enumeration is written plainly and read in either form.  An event is written as an
object with its kind first, and it is read by taking the kind out of whatever place it has, once
every field is known to be readable.  For a written event both go through
(`Event.isReadable_and_split?_draft`), and what is left is the record of its kind.
-/

namespace Automation

open Json

/-! ## Names -/

/-- A value that is known by a name is written as the name. -/
theorem Json.RoundTrips.plainName {α : Type} {name : α → String} {ofName? : String → Option α}
    (h : ∀ x, ofName? (name x) = some x) (nothing : Draft → Bool) :
    RoundTrips (fun x => .str (name x)) (fun d => (Decode.plainName? nothing d).bind ofName?)
      (fun d => (Decode.plainName? nothing d).bind ofName?) where
  same _ x _ := h x
  finite _ x _ _ := .str (name x)

theorem EventType.roundTrips : RoundTrips json decode? decode? :=
  .plainName ofName?_name Decode.isNothing

theorem Event.roundTrips_type : RoundTrips EventType.json decodeType? decodeType? :=
  .plainName EventType.ofName?_name Decode.isNothingBuffered

/-! ## States -/

namespace AppState

/-- The fields that a state is written with. -/
def members (s : AppState) : List (String × Json) :=
  fieldIfSome "app_session_id" (s.session.map .str) ++
    fieldIfSome "version_updated" (s.version.map .str)

/-- The fields of a state have values, and none of them is the kind of an event. -/
theorem isNormal_members (s : AppState) : ∀ m ∈ s.members, m.2.IsNormal ∧ m.1 ≠ "kind" := by
  simp only [members, List.forall_mem_append, forall_mem_fieldIfSome, Option.forall_mem_map]
  exact ⟨fun _ _ => ⟨rfl, by simp⟩, fun _ _ => ⟨rfl, by simp⟩⟩

theorem isFinite_members (s : AppState) : ∀ m ∈ s.members, m.2.draft.IsFinite := by
  simp only [members, List.forall_mem_append, forall_mem_fieldIfSome, Option.forall_mem_map]
  exact ⟨fun x _ => .str x, fun x _ => .str x⟩

/-- **A state is read back.** -/
theorem roundTrips : RoundTrips json decode? decode? where
  same := by
    intro d s h
    simp only [decode?, Option.bind_eq_bind, Option.bind_eq_some_iff, Option.some.injEq] at h
    obtain ⟨fields, -, session, hsession, version, hversion, rfl⟩ := h
    have hnull := RoundTrips.null_of_string
    simp only [decode?, json, Option.bind_eq_bind, Option.bind_eq_some_iff, Option.some.injEq]
    exact ⟨_, record?_draft hasKeys_fieldIfSome.fieldIfSome (by decide),
      session, RoundTrips.string.optional hnull hsession (by simp [List.lookup_append]),
      version, RoundTrips.string.optional hnull hversion (by simp [List.lookup_append]), rfl⟩
  finite _ s _ _ := isFinite_draft_obj s.isFinite_members

end AppState

/-! ## Events -/

namespace Event

/-- A written kind is taken out and leaves the fields beside it. -/
theorem split?_draft (kind : String) {members : List (String × Json)}
    (h : ∀ m ∈ members, m.1 ≠ "kind") :
    split? (Json.obj (field "kind" (.str kind) ++ members)).draft =
      some (kind, (Json.obj members).draft) := by
  have hnone : (draftMembers members).filter (fun m => m.1 = "kind") = [] := by
    rw [List.filter_eq_nil_iff, draftMembers_eq, List.forall_mem_map]
    intro m hm
    rw [decide_eq_true_eq]
    exact h m hm
  have hall : (draftMembers members).filter (fun m => m.1 ≠ "kind") = draftMembers members := by
    rw [List.filter_eq_self, draftMembers_eq, List.forall_mem_map]
    intro m hm
    rw [decide_eq_true_eq]
    exact h m hm
  have hkind : (draftMembers (field "kind" (.str kind) ++ members)).filter (fun m => m.1 = "kind") =
      [("kind", .str kind)] := by
    show List.filter _ (("kind", Draft.str kind) :: draftMembers members) = _
    rw [List.filter_cons_of_pos rfl, hnone]
  have hrest : (draftMembers (field "kind" (.str kind) ++ members)).filter (fun m => m.1 ≠ "kind") =
      draftMembers members := by
    show List.filter _ (("kind", Draft.str kind) :: draftMembers members) = _
    rw [List.filter_cons_of_neg (by simp), hall]
  rw [draft, split?, hkind]
  simp only
  rw [hrest, draft]

/-- Every part of a written object with values is readable. -/
theorem isReadable_draft {members : List (String × Json)} (h : ∀ m ∈ members, m.2.IsNormal) :
    (Json.obj members).draft.isReadable = true := by
  rw [Draft.isReadable, draft, Draft.value?, members?_draftMembers h]
  rfl

/-- A written event is readable, and its kind is found beside its fields. -/
theorem isReadable_and_split?_draft (kind : String) {members : List (String × Json)}
    (h : ∀ m ∈ members, m.2.IsNormal ∧ m.1 ≠ "kind") :
    (Json.obj (field "kind" (.str kind) ++ members)).draft.isReadable = true ∧
      split? (Json.obj (field "kind" (.str kind) ++ members)).draft =
        some (kind, (Json.obj members).draft) := by
  refine ⟨isReadable_draft ?_, split?_draft kind fun m hm => (h m hm).2⟩
  rw [List.forall_mem_append, forall_mem_field]
  exact ⟨rfl, fun m hm => (h m hm).1⟩

/-- An activity is read back from what it is written as. -/
theorem decode?_activity {rest : Draft} {e : Event} (h : decodeActivity? rest = some e) :
    decode? e.json.draft = some e := by
  simp only [decodeActivity?, Option.bind_eq_bind, Option.bind_eq_some_iff, Option.some.injEq] at h
  obtain ⟨fields, -, type, htype, data, hdata, value, hvalue, rfl⟩ := h
  have hmembers : ∀ m ∈ field "event_type" type.json ++ fieldIfSome "data" data ++
      field "value" (.float value), m.2.IsNormal ∧ m.1 ≠ "kind" := by
    simp only [List.forall_mem_append, forall_mem_field, forall_mem_fieldIfSome]
    refine ⟨⟨⟨rfl, by simp⟩, fun v hv => ?_⟩, ⟨rfl, by simp⟩⟩
    obtain ⟨d, hd⟩ := Decode.exists_of_optional hdata hv
    exact ⟨isNormal_of_value? hd, by simp⟩
  obtain ⟨hreadable, hsplit⟩ := isReadable_and_split?_draft "event" hmembers
  have hjson : json (.occurred type data value) =
      .obj (field "kind" (.str "event") ++ (field "event_type" type.json ++
        fieldIfSome "data" data ++ field "value" (.float value))) := by
    simp only [json, List.append_assoc]
  rw [hjson, decode?, if_pos hreadable, hsplit]
  simp only [decodeActivity?, Option.bind_eq_bind, Option.bind_eq_some_iff, Option.some.injEq]
  exact ⟨_, record?_draft hasKeys_field.fieldIfSome.field (by decide),
    type, roundTrips_type.required htype (by simp [List.lookup_append]),
    data, RoundTrips.any.optional RoundTrips.null_of_any hdata (by simp [List.lookup_append]),
    value, RoundTrips.double.defaulted rfl hvalue (by simp [List.lookup_append]), rfl⟩

/-- A change of state is read back from what it is written as. -/
theorem decode?_stateChanged {rest : Draft} {s : AppState} (h : AppState.decode? rest = some s) :
    decode? (json (.stateChanged s)).draft = some (.stateChanged s) := by
  obtain ⟨hreadable, hsplit⟩ := isReadable_and_split?_draft "state_changed" s.isNormal_members
  show decode? (Json.obj (field "kind" (.str "state_changed") ++ s.members)).draft = _
  rw [decode?, if_pos hreadable, hsplit]
  show (AppState.decode? s.json.draft).map Event.stateChanged = _
  rw [AppState.roundTrips.same rest s h, Option.map_some]

/-- What stands beside the kind of an event has finite numbers. -/
theorem isFinite_of_split? {d rest : Draft} {kind : String} (hd : d.IsFinite)
    (h : split? d = some (kind, rest)) : rest.IsFinite := by
  unfold split? at h
  split at h
  · split at h
    · cases h
      cases hd with
      | obj hmembers => exact .obj fun m hm => hmembers m (List.mem_filter.mp hm).1
    · cases h
  · cases h
    cases hd with
    | arr hitems => exact .arr fun e he => hitems e (List.mem_cons_of_mem _ he)
  · cases h

/-- An activity has finite numbers if what it is read from has. -/
theorem isFinite_activity {rest : Draft} {e : Event} (hrest : rest.IsFinite)
    (h : decodeActivity? rest = some e) : e.json.draft.IsFinite := by
  simp only [decodeActivity?, Option.bind_eq_bind, Option.bind_eq_some_iff, Option.some.injEq] at h
  obtain ⟨fields, hrecord, type, -, data, hdata, value, hvalue, rfl⟩ := h
  have hfields := Decode.isFinite_of_record? hrest hrecord
  refine isFinite_draft_obj ?_
  simp only [List.forall_mem_append, forall_mem_field, forall_mem_fieldIfSome]
  exact ⟨⟨⟨.str "event", .str type.name⟩, RoundTrips.any.finite.optional hfields hdata⟩,
    RoundTrips.double.finite.defaulted hfields (.float Binary64.isFinite_one) hvalue⟩

/-- A state has no numbers. -/
theorem isFinite_stateChanged (s : AppState) : (json (.stateChanged s)).draft.IsFinite := by
  refine isFinite_draft_obj (List.forall_mem_append.mpr ⟨?_, ?_⟩)
  · exact forall_mem_field.mpr (.str "state_changed")
  · exact s.isFinite_members

/-- **An event is read back.** -/
theorem roundTrips : RoundTrips json decode? decode? where
  same := by
    intro d e h
    unfold decode? at h
    split at h
    · split at h
      · exact decode?_activity h
      · obtain ⟨s, hs, rfl⟩ := Option.map_eq_some_iff.mp h
        exact decode?_stateChanged hs
      · cases h
    · cases h
  finite := by
    intro d e hd h
    unfold decode? at h
    split at h
    · split at h
      · next hsplit => exact isFinite_activity (isFinite_of_split? hd hsplit) h
      · obtain ⟨s, hs, rfl⟩ := Option.map_eq_some_iff.mp h
        exact isFinite_stateChanged s
      · cases h
    · cases h

end Event
end Automation
