import Automation.Proofs.Json.Decoding
import Automation.Proofs.Json.Values
import Mathlib.Data.List.Nodup

/-!
# What is read is written so that it is read again

An encoder and a decoder belong together if whatever the decoder gives is written as a value that is
read as the same (`RoundTrips`).  Nothing is asked of values that no draft gives: a time beyond its
range or an object with keys out of order is never read, and need not be written well.

A record is written as an object, so one lemma finds its fields again (`record?_draft`) and one
lemma for each way of reading a field says that the field is read as it was.  An optional field is
left out when there is no value, and one that is `null` has none; so a value of an optional field
must not be written as `null`.
-/

namespace Automation
namespace Json

/-- What one decoder gives is written as a value that another one reads as the same, and that has
only finite numbers if the draft had. -/
structure RoundTrips {α : Type} (encode : α → Json) (first again : Decoder α) : Prop where
  same : ∀ d x, first d = some x → again (encode x).draft = some x
  finite : Decode.Gives first fun x => (encode x).draft.IsFinite

/-! ## Written records -/

/-- The fields of a written record. -/
def fieldsOf (members : List (String × Json)) : Fields := fun name =>
  (members.lookup name).map draft

section Members

variable {name key : String} {value : Json} {o : Option Json} {members : List (String × Json)}
  {P : String × Json → Prop}

theorem forall_mem_field : (∀ m ∈ field key value, P m) ↔ P (key, value) :=
  List.forall_mem_singleton

theorem forall_mem_fieldIfSome : (∀ m ∈ fieldIfSome key o, P m) ↔ ∀ v ∈ o, P (key, v) := by
  cases o <;> simp [fieldIfSome]

@[simp] theorem lookup_field :
    (field key value).lookup name = if name = key then some value else none := by
  by_cases h : name = key
  · rw [if_pos h, h, field, List.lookup_cons_self]
  · rw [if_neg h, field, List.lookup_cons, beq_false_of_ne h]
    rfl

@[simp] theorem lookup_fieldIfSome :
    (fieldIfSome key o).lookup name = if name = key then o else none := by
  cases o with
  | none => simp [fieldIfSome]
  | some value => exact lookup_field

/-- The keys of members are among some names and in their order. -/
def HasKeys (members : List (String × Json)) (names : List String) : Prop :=
  (members.map Prod.fst).Sublist names

theorem hasKeys_field : HasKeys (field key value) [key] := List.Sublist.refl _

theorem hasKeys_fieldIfSome : HasKeys (fieldIfSome key o) [key] := by
  cases o with
  | none => exact List.nil_sublist _
  | some _ => exact List.Sublist.refl _

theorem HasKeys.field {names : List String} (h : HasKeys members names) :
    HasKeys (members ++ field key value) (names ++ [key]) := by
  rw [HasKeys, List.map_append]
  exact h.append hasKeys_field

theorem HasKeys.fieldIfSome {names : List String} (h : HasKeys members names) :
    HasKeys (members ++ fieldIfSome key o) (names ++ [key]) := by
  rw [HasKeys, List.map_append]
  exact h.append hasKeys_fieldIfSome

end Members

theorem lookup_draftMembers (members : List (String × Json)) (name : String) :
    (draftMembers members).lookup name = fieldsOf members name := by
  rw [fieldsOf]
  induction members with
  | nil => rfl
  | cons m rest ih =>
    rw [draftMembers, List.lookup_cons, List.lookup_cons, ih]
    cases name == m.1 <;> rfl

/-- The fields of a record are those of the object it is written as. -/
theorem objectFields?_draft {names keys : List String} {members : List (String × Json)}
    (h : HasKeys members keys) (hkeys : keys.Nodup) :
    Decode.objectFields? names (Json.obj members).draft = some (fieldsOf members) := by
  have hdistinct : Decode.distinctFields names (draftMembers members) = true := by
    rw [Decode.distinctFields, List.all_eq_true]
    intro name _
    have hcount := List.nodup_iff_count_le_one.mp (hkeys.sublist h) name
    rw [List.count, List.countP_map, List.countP_eq_length_filter] at hcount
    rw [decide_eq_true_eq, draftMembers_eq, List.filter_map, List.length_map]
    exact hcount
  rw [draft, Decode.objectFields?, if_pos hdistinct]
  exact congrArg some (funext fun name => lookup_draftMembers members name)

theorem record?_draft {names keys : List String} {members : List (String × Json)}
    (h : HasKeys members keys) (hkeys : keys.Nodup) :
    Decode.record? names (Json.obj members).draft = some (fieldsOf members) :=
  objectFields?_draft h hkeys

/-- A written field is read from what it is written as. -/
theorem required_fieldsOf {α : Type} {value : Decoder α} {name : String} {v : Json} {x : α}
    {members : List (String × Json)} (hwritten : members.lookup name = some v)
    (h : value v.draft = some x) : Decode.required (fieldsOf members) name value = some x := by
  rw [Decode.required, fieldsOf, hwritten, Option.map_some, Option.bind_some, h]

theorem nullable_of_ne_null {α : Type} {value : Decoder α} {d : Draft} (h : d ≠ .null) :
    Decode.nullable value d = (value d).map some := by
  cases d with
  | null => exact absurd rfl h
  | _ => rfl

namespace RoundTrips

section Fields

variable {α : Type} {encode : α → Json} {first again : Decoder α} {fields : Fields} {name : String}
  {members : List (String × Json)}

theorem required (hvalue : RoundTrips encode first again) {x : α}
    (h : Decode.required fields name first = some x)
    (hwritten : members.lookup name = some (encode x)) :
    Decode.required (fieldsOf members) name again = some x := by
  obtain ⟨d, -, hd⟩ := Option.bind_eq_some_iff.mp h
  exact required_fieldsOf hwritten (hvalue.same d x hd)

theorem defaulted (hvalue : RoundTrips encode first again) {x default : α}
    (hdefault : again (encode default).draft = some default)
    (h : Decode.defaulted fields name first default = some x)
    (hwritten : members.lookup name = some (encode x)) :
    Decode.defaulted (fieldsOf members) name again default = some x := by
  rw [Decode.defaulted, fieldsOf, hwritten, Option.map_some]
  rw [Decode.defaulted] at h
  split at h
  · next d _ => exact hvalue.same d x h
  · cases h
    exact hdefault

/-- A value or nothing, where nothing is written as `null`. -/
theorem nullable (hvalue : RoundTrips encode first again)
    (hnull : ∀ d x, first d = some x → (encode x).draft = .null → d = .null) :
    RoundTrips (fun x? => (x?.map encode).getD .null) (Decode.nullable first)
      (Decode.nullable again) where
  same := by
    intro d x? h
    by_cases hd : d = .null
    · subst hd
      cases h
      rfl
    · rw [nullable_of_ne_null hd] at h
      obtain ⟨x, hx, rfl⟩ := Option.map_eq_some_iff.mp h
      rw [Option.map_some, Option.getD_some,
        nullable_of_ne_null fun hwritten => hd (hnull d x hx hwritten), hvalue.same d x hx,
        Option.map_some]
  finite := by
    intro d x? hd h
    have hfinite := hvalue.finite.nullable d x? hd h
    cases x? with
    | none => exact .null
    | some x => exact hfinite x rfl

/-- A field that is left out when there is no value. -/
theorem optional (hvalue : RoundTrips encode first again)
    (hnull : ∀ d x, first d = some x → (encode x).draft = .null → d = .null) {x? : Option α}
    (h : Decode.optional fields name first = some x?)
    (hwritten : members.lookup name = x?.map encode) :
    Decode.optional (fieldsOf members) name again = some x? := by
  cases x? with
  | none =>
    rw [Decode.optional, Decode.defaulted, fieldsOf, hwritten]
    rfl
  | some x => exact (hvalue.nullable hnull).defaulted rfl h hwritten

/-- The items of a list are written as they are written alone. -/
theorem list (hvalue : RoundTrips encode first again) :
    RoundTrips (Json.list encode) (Decode.list first) (Decode.list again) where
  same := by
    intro d xs h
    cases d with
    | arr items =>
      have hmap : items.mapM first = some xs := h
      show (draftItems (xs.map encode)).mapM again = some xs
      clear h
      induction items generalizing xs with
      | nil =>
        cases hmap
        rfl
      | cons d rest ih =>
        simp only [List.mapM_cons, Option.bind_eq_bind, Option.bind_eq_some_iff, Option.pure_def,
          Option.some.injEq] at hmap
        obtain ⟨x, hx, more, hmore, rfl⟩ := hmap
        rw [List.map_cons, draftItems, List.mapM_cons, hvalue.same d x hx, ih more hmore]
        rfl
    | _ => cases h
  finite := by
    intro d xs hd h
    have hfinite := hvalue.finite.list d xs hd h
    exact isFinite_draft_arr (List.forall_mem_map.mpr hfinite)

end Fields

/-! ## Simple types -/

theorem string : RoundTrips .str Decode.string Decode.string where
  same _ _ _ := rfl
  finite _ s _ _ := .str s

/-- No string is written as `null`. -/
theorem null_of_string (d : Draft) (s : String) (_ : Decode.string d = some s)
    (hnull : (Json.str s).draft = .null) : d = .null := by
  cases hnull

theorem double : RoundTrips .float Decode.double Decode.double where
  same _ _ _ := rfl
  finite d x hd h := .float (Decode.gives_double d x hd h)

theorem word_int {bits n : Nat} (h : n < 2 ^ bits) :
    Decode.word bits (Json.int n).draft = some n := by
  rw [draft, Decode.word, Nat.one_shiftLeft, if_pos ⟨Int.natCast_nonneg n, Int.ofNat_lt.mpr h⟩,
    Int.toNat_natCast]

theorem isFinite_natCast {n : Nat} (h : n < 2 ^ 64) : (Json.int n).draft.IsFinite := by
  refine .int ?_
  rw [fits, decide_eq_true_eq]
  omega

/-- A natural of no more than 64 bits. -/
theorem word {bits : Nat} (hbits : bits ≤ 64) :
    RoundTrips (fun n : Nat => .int n) (Decode.word bits) (Decode.word bits) where
  same d n h := word_int (Decode.lt_of_word h)
  finite d n _ h := isFinite_natCast
    (Nat.lt_of_lt_of_le (Decode.lt_of_word h) (Nat.pow_le_pow_right (by decide) hbits))

theorem int32 : RoundTrips .int Decode.int32 Decode.int32 where
  same := by
    intro d n h
    unfold Decode.int32 Decode.intWithin at h
    split at h
    · obtain ⟨hbounds, hn⟩ := Option.ite_none_right_eq_some.mp h
      cases hn
      exact if_pos hbounds
    · cases h
  finite := by
    intro d n hd h
    unfold Decode.int32 Decode.intWithin at h
    cases hd with
    | int hfits =>
      obtain ⟨-, hn⟩ := Option.ite_none_right_eq_some.mp h
      cases hn
      exact .int hfits
    | _ => cases h

/-- Any value at all. -/
theorem any : RoundTrips id Decode.any Decode.any where
  same _ _ h := isNormal_of_value? h
  finite _ _ hd h := isFinite_of_value? hd h

/-- Only `null` has the value `null`. -/
theorem null_of_any (d : Draft) (v : Json) (h : Decode.any d = some v)
    (hnull : (id v).draft = .null) : d = .null := by
  have hv : v = .null := by
    cases v with
    | null => rfl
    | _ => cases hnull
  subst hv
  cases d with
  | null => rfl
  | arr items =>
    obtain ⟨_, _, harr⟩ := Option.map_eq_some_iff.mp h
    cases harr
  | obj members =>
    obtain ⟨_, _, hobj⟩ := Option.map_eq_some_iff.mp h
    cases hobj
  | _ => cases h

end RoundTrips

end Json
end Automation
