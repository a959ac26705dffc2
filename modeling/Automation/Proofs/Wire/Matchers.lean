import Automation.Proofs.Json.RoundTrip
import Automation.Wire.Matcher

/-!
# Matchers are read back

A matcher may have any shape and a leaf may hold any value, so the argument follows the reading:
what a combinator joins has been read before the combinator is (`readsBack_of_decode?`).

In which form the record of a leaf was read does not matter.  It is written as an object, and an
object is admitted in both.
-/

namespace Automation

open Json

namespace Matcher

variable {first again : LeafForm} {m : Matcher} {ms : List Matcher} {content : Draft}

/-- A matcher is read back, and it has only finite numbers if the draft it was read from had. -/
def ReadsBack (again : LeafForm) (d : Draft) (m : Matcher) : Prop :=
  decode? again m.json.draft = some m ∧ (d.IsFinite → m.json.draft.IsFinite)

/-- What is under the only key of an object has finite numbers if the object has. -/
theorem isFinite_content {name : String} (h : (Draft.obj [(name, content)]).IsFinite) :
    content.IsFinite := by
  cases h with
  | obj hmembers => exact hmembers (name, content) List.mem_cons_self

theorem isFinite_field {name : String} {value : Json} (h : value.draft.IsFinite) :
    (Json.obj (field name value)).draft.IsFinite :=
  isFinite_draft_obj (forall_mem_field.mpr h)

/-! ## Leaves -/

theorem leafFields?_draft {names keys : List String} {members : List (String × Json)}
    (h : HasKeys members keys) (hkeys : keys.Nodup) :
    leafFields? again names (Json.obj members).draft = some (fieldsOf members) := by
  cases again with
  | objectOrArray => exact record?_draft h hkeys
  | objectOnly => exact objectFields?_draft h hkeys

theorem isFinite_of_leafFields? {names : List String} {d : Draft} {fields : Fields}
    (hd : d.IsFinite) (h : leafFields? first names d = some fields) :
    ∀ name e, fields name = some e → e.IsFinite := by
  cases first with
  | objectOrArray => exact Decode.isFinite_of_record? hd h
  | objectOnly => exact Decode.isFinite_of_objectFields? hd h

/-- A bound is written as `null` where there is none. -/
theorem roundTrips_bound :
    RoundTrips boundJson (Decode.nullable Decode.double) (Decode.nullable Decode.double) := by
  have hbound : boundJson = fun x? => (x?.map Json.float).getD .null := by
    funext x?
    cases x? <;> rfl
  rw [hbound]
  exact RoundTrips.double.nullable fun _ _ _ hnull => by cases hnull

theorem readsBack_equals (h : decodeLeaf? first "equals" content = some m) :
    ReadsBack again (.obj [("equals", content)]) m := by
  simp only [decodeLeaf?, Option.bind_eq_bind, Option.bind_eq_some_iff, Option.some.injEq] at h
  obtain ⟨fields, hfields, path, hpath, value, hvalue, rfl⟩ := h
  constructor
  · show decodeLeaf? again "equals"
      (Json.obj (field "path" (.str path) ++ field "value" value)).draft = _
    simp only [decodeLeaf?, Option.bind_eq_bind, Option.bind_eq_some_iff]
    exact ⟨_, leafFields?_draft hasKeys_field.field (by decide),
      path, RoundTrips.string.defaulted rfl hpath (by simp [List.lookup_append]),
      value, RoundTrips.any.required hvalue (by simp [List.lookup_append]), rfl⟩
  · intro hd
    have hfinite := isFinite_of_leafFields? (isFinite_content hd) hfields
    refine isFinite_field (isFinite_draft_obj ?_)
    rw [List.forall_mem_append, forall_mem_field, forall_mem_field]
    exact ⟨.str path, RoundTrips.any.finite.required hfinite hvalue⟩

theorem readsBack_present (h : decodeLeaf? first "exists" content = some m) :
    ReadsBack again (.obj [("exists", content)]) m := by
  simp only [decodeLeaf?, Option.bind_eq_bind, Option.bind_eq_some_iff, Option.some.injEq] at h
  obtain ⟨fields, -, path, hpath, rfl⟩ := h
  constructor
  · show decodeLeaf? again "exists" (Json.obj (field "path" (.str path))).draft = _
    simp only [decodeLeaf?, Option.bind_eq_bind, Option.bind_eq_some_iff]
    exact ⟨_, leafFields?_draft hasKeys_field (by decide),
      path, RoundTrips.string.defaulted rfl hpath (by simp), rfl⟩
  · intro _
    exact isFinite_field (isFinite_field (.str path))

theorem readsBack_within (h : decodeLeaf? first "range" content = some m) :
    ReadsBack again (.obj [("range", content)]) m := by
  simp only [decodeLeaf?, Option.bind_eq_bind, Option.bind_eq_some_iff, Option.some.injEq] at h
  obtain ⟨fields, hfields, path, hpath, min, hmin, max, hmax, rfl⟩ := h
  constructor
  · show decodeLeaf? again "range" (Json.obj (field "path" (.str path) ++
      field "min" (boundJson min) ++ field "max" (boundJson max))).draft = _
    simp only [decodeLeaf?, Option.bind_eq_bind, Option.bind_eq_some_iff]
    exact ⟨_, leafFields?_draft hasKeys_field.field.field (by decide),
      path, RoundTrips.string.defaulted rfl hpath (by simp [List.lookup_append]),
      min, roundTrips_bound.defaulted rfl hmin (by simp [List.lookup_append]),
      max, roundTrips_bound.defaulted rfl hmax (by simp [List.lookup_append]), rfl⟩
  · intro hd
    have hfinite := isFinite_of_leafFields? (isFinite_content hd) hfields
    refine isFinite_field (isFinite_draft_obj ?_)
    have hnone : (boundJson none).draft.IsFinite := .null
    simp only [List.forall_mem_append, forall_mem_field]
    exact ⟨⟨.str path, roundTrips_bound.finite.defaulted hfinite hnone hmin⟩,
      roundTrips_bound.finite.defaulted hfinite hnone hmax⟩

theorem readsBack_leaf {name : String} (h : decodeLeaf? first name content = some m) :
    ReadsBack again (.obj [(name, content)]) m := by
  have hname := h
  unfold decodeLeaf? at hname
  split at hname
  · exact readsBack_equals h
  · exact readsBack_present h
  · exact readsBack_within h
  · cases hname

/-! ## Combinators -/

theorem decodeItems?_draft (h : ∀ m ∈ ms, decode? again m.json.draft = some m) :
    decodeItems? again (draftItems (jsonItems ms)) = some ms := by
  induction ms with
  | nil => rfl
  | cons m rest ih =>
    rw [List.forall_mem_cons] at h
    rw [jsonItems, draftItems, decodeItems?, h.1, ih h.2]

theorem isFinite_jsonItems (h : ∀ m ∈ ms, m.json.draft.IsFinite) :
    (Json.arr (jsonItems ms)).draft.IsFinite := by
  refine isFinite_draft_arr ?_
  induction ms with
  | nil => exact List.forall_mem_nil _
  | cons m rest ih =>
    rw [List.forall_mem_cons] at h
    rw [jsonItems, List.forall_mem_cons]
    exact ⟨h.1, ih h.2⟩

/-- Matchers are read back one by one. -/
def ItemsReadBack (again : LeafForm) (items : List Draft) (ms : List Matcher) : Prop :=
  (∀ m ∈ ms, decode? again m.json.draft = some m) ∧
    ((∀ d ∈ items, d.IsFinite) → ∀ m ∈ ms, m.json.draft.IsFinite)

theorem isFinite_items {name : String} {items : List Draft}
    (h : (Draft.obj [(name, .arr items)]).IsFinite) : ∀ d ∈ items, d.IsFinite := by
  cases isFinite_content h with
  | arr hitems => exact hitems

theorem ItemsReadBack.all {items : List Draft} (h : ItemsReadBack again items ms) :
    ReadsBack again (.obj [("and", .arr items)]) (.all ms) := by
  constructor
  · show (decodeItems? again (draftItems (jsonItems ms))).map Matcher.all = _
    rw [decodeItems?_draft h.1, Option.map_some]
  · intro hd
    exact isFinite_field (isFinite_jsonItems (h.2 (isFinite_items hd)))

theorem ItemsReadBack.any {items : List Draft} (h : ItemsReadBack again items ms) :
    ReadsBack again (.obj [("or", .arr items)]) (.any ms) := by
  constructor
  · show (decodeItems? again (draftItems (jsonItems ms))).map Matcher.any = _
    rw [decodeItems?_draft h.1, Option.map_some]
  · intro hd
    exact isFinite_field (isFinite_jsonItems (h.2 (isFinite_items hd)))

theorem ReadsBack.negation (h : ReadsBack again content m) :
    ReadsBack again (.obj [("not", content)]) (.negation m) := by
  constructor
  · show (decode? again m.json.draft).map Matcher.negation = _
    rw [h.1, Option.map_some]
  · intro hd
    exact isFinite_field (h.2 (isFinite_content hd))

theorem ItemsReadBack.cons {d : Draft} {rest : List Draft} (hm : ReadsBack again d m)
    (hms : ItemsReadBack again rest ms) : ItemsReadBack again (d :: rest) (m :: ms) := by
  refine ⟨List.forall_mem_cons.mpr ⟨hm.1, hms.1⟩, fun h => ?_⟩
  rw [List.forall_mem_cons] at h ⊢
  exact ⟨hm.2 h.1, hms.2 h.2⟩

/-! ## Matchers of any shape -/

/-- Whatever is read is read back, by induction along the reading. -/
theorem readsBack_of_decode? (d : Draft) :
    ∀ m, decode? first d = some m → ReadsBack again d m := by
  refine Matcher.decode?.induct_unfolding first
    (fun d r => ∀ m, r = some m → ReadsBack again d m)
    (fun items r => ∀ ms, r = some ms → ItemsReadBack again items ms)
    ?all ?any ?negation ?leaf ?refused ?nil ?cons ?refusedItems d
  case all =>
    intro items ih m h
    obtain ⟨ms, hms, rfl⟩ := Option.map_eq_some_iff.mp h
    exact (ih ms hms).all
  case any =>
    intro items ih m h
    obtain ⟨ms, hms, rfl⟩ := Option.map_eq_some_iff.mp h
    exact (ih ms hms).any
  case negation =>
    intro inner ih m h
    obtain ⟨n, hn, rfl⟩ := Option.map_eq_some_iff.mp h
    exact (ih n hn).negation
  case leaf => exact fun name content _ _ _ m h => readsBack_leaf h
  case refused => exact fun _ _ _ _ _ m h => by cases h
  case nil =>
    intro ms h
    cases h
    exact ⟨List.forall_mem_nil _, fun _ => List.forall_mem_nil _⟩
  case cons =>
    intro d rest m ms hms hm ihm ihms all h
    cases h
    exact .cons (ihm m hm) (ihms ms hms)
  case refusedItems => exact fun _ _ _ _ _ ms h => by cases h

/-- **A matcher of any shape is read back.** -/
theorem roundTrips : RoundTrips json (decode? first) (decode? again) where
  same d m h := (readsBack_of_decode? d m h).1
  finite d m hd h :=
    have hreads : ReadsBack again d m := readsBack_of_decode? d m h
    hreads.2 hd

/-- No matcher is written as `null`. -/
theorem json_draft_ne_null (m : Matcher) : m.json.draft ≠ .null := by
  cases m <;> exact Draft.noConfusion

end Matcher
end Automation
