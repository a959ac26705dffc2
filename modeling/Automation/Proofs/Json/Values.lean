import Automation.Json.Draft
import Automation.Proofs.Json.Numbers

/-!
# A value is read back as it is

The value of a draft is a normal form: no object in it repeats a key and every object has its keys
in order.  So written as a draft again it has a value, and that value is the same one
(`value?_draft`).

The only work is in objects.  Members put in one after another are in order whatever order they come
in (`isSorted_foldl_putMember`), and members in order are put where they already are
(`foldl_putMember_eq`).
-/

namespace Automation
namespace Json

variable {key : String} {value v : Json} {members more : List (String × Json)}

/-! ## Members in order -/

/-- The keys of members strictly increase. -/
def IsSorted (members : List (String × Json)) : Prop := members.Pairwise fun m n => m.1 < n.1

theorem mem_of_mem_putMember {m : String × Json} (h : m ∈ putMember key value members) :
    m = (key, value) ∨ m ∈ members := by
  induction members with
  | nil => exact .inl (List.mem_singleton.mp h)
  | cons first rest ih =>
    rw [putMember] at h
    split at h
    · rcases List.mem_cons.mp h with h | h
      · exact .inl h
      · exact .inr (List.mem_cons_of_mem _ h)
    split at h
    · exact List.mem_cons.mp h
    · rcases List.mem_cons.mp h with h | h
      · exact .inr (h ▸ List.mem_cons_self)
      · rcases ih h with h | h
        · exact .inl h
        · exact .inr (List.mem_cons_of_mem _ h)

theorem mem_of_mem_foldl_putMember {m : String × Json}
    (h : m ∈ more.foldl (fun ms m => putMember m.1 m.2 ms) members) : m ∈ members ∨ m ∈ more := by
  induction more generalizing members with
  | nil => exact .inl h
  | cons first rest ih =>
    rcases ih h with h | h
    · rcases mem_of_mem_putMember h with rfl | h
      · exact .inr List.mem_cons_self
      · exact .inl h
    · exact .inr (List.mem_cons_of_mem _ h)

/-- A member is put where the order wants it. -/
theorem IsSorted.putMember (h : IsSorted members) : IsSorted (putMember key value members) := by
  induction members with
  | nil => exact List.pairwise_singleton _ _
  | cons first rest ih =>
    obtain ⟨hfirst, hrest⟩ := List.pairwise_cons.mp h
    rw [Json.putMember]
    split
    · next heq => exact List.pairwise_cons.mpr ⟨fun m hm => heq ▸ hfirst m hm, hrest⟩
    · next hne =>
      split
      · next hlt =>
        refine List.pairwise_cons.mpr ⟨?_, h⟩
        rw [List.forall_mem_cons]
        exact ⟨hlt, fun m hm => String.lt_trans hlt (hfirst m hm)⟩
      · next hnlt =>
        refine List.pairwise_cons.mpr ⟨fun m hm => ?_, ih hrest⟩
        rcases mem_of_mem_putMember hm with rfl | hm
        · rcases Std.lt_trichotomy key first.1 with hlt | heq | hgt
          · exact absurd hlt hnlt
          · exact absurd heq hne
          · exact hgt
        · exact hfirst m hm

/-- Members that are put in one after another are in order. -/
theorem isSorted_foldl_putMember (more : List (String × Json)) (h : IsSorted members) :
    IsSorted (more.foldl (fun ms m => putMember m.1 m.2 ms) members) := by
  induction more generalizing members with
  | nil => exact h
  | cons first rest ih => exact ih h.putMember

/-- A member behind all others is put at the end. -/
theorem putMember_eq_append (h : ∀ m ∈ members, m.1 < key) :
    putMember key value members = members ++ [(key, value)] := by
  induction members with
  | nil => rfl
  | cons first rest ih =>
    rw [List.forall_mem_cons] at h
    rw [putMember, if_neg, if_neg, ih h.2, List.cons_append]
    · exact fun hlt => String.lt_irrefl _ (String.lt_trans hlt h.1)
    · exact fun heq => String.lt_irrefl _ (heq ▸ h.1)

/-- Members in order stay as they are. -/
theorem foldl_putMember_eq (h : IsSorted (members ++ more)) :
    more.foldl (fun ms m => putMember m.1 m.2 ms) members = members ++ more := by
  induction more generalizing members with
  | nil => exact (List.append_nil members).symm
  | cons first rest ih =>
    have hbefore : ∀ m ∈ members, m.1 < first.1 := fun m hm =>
      (List.pairwise_append.mp h).2.2 m hm first List.mem_cons_self
    rw [List.append_cons] at h
    rw [List.foldl_cons, putMember_eq_append hbefore, ih h, List.append_assoc,
      List.singleton_append]

theorem object_eq (h : IsSorted members) : object members = .obj members :=
  congrArg Json.obj (foldl_putMember_eq h)

/-! ## Values -/

/-- A value that comes back from its draft. -/
def IsNormal (v : Json) : Prop := v.draft.value? = some v

theorem items?_draftItems {vs : List Json} (h : ∀ v ∈ vs, v.IsNormal) :
    Draft.items? (draftItems vs) = some vs := by
  induction vs with
  | nil => rfl
  | cons v rest ih =>
    rw [List.forall_mem_cons] at h
    rw [draftItems, Draft.items?, h.1, ih h.2]

theorem members?_draftMembers (h : ∀ m ∈ members, m.2.IsNormal) :
    Draft.members? (draftMembers members) = some members := by
  induction members with
  | nil => rfl
  | cons first rest ih =>
    rw [List.forall_mem_cons] at h
    rw [draftMembers, Draft.members?, h.1, ih h.2]

theorem isNormal_arr {vs : List Json} (h : ∀ v ∈ vs, v.IsNormal) : (Json.arr vs).IsNormal := by
  rw [IsNormal, draft, Draft.value?, items?_draftItems h, Option.map_some]

theorem isNormal_object (h : ∀ m ∈ members, m.2.IsNormal) : (object members).IsNormal := by
  have hsorted := isSorted_foldl_putMember members (show IsSorted [] from List.Pairwise.nil)
  have hmem : ∀ m ∈ members.foldl (fun ms m => putMember m.1 m.2 ms) [], m.2.IsNormal := by
    intro m hm
    rcases mem_of_mem_foldl_putMember hm with hm | hm
    · exact absurd hm List.not_mem_nil
    · exact h m hm
  rw [object, IsNormal, draft, Draft.value?, members?_draftMembers hmem, Option.map_some,
    object_eq hsorted]

/-- A value in an array is that of an item. -/
theorem exists_of_mem_items? {items : List Draft} {vs : List Json}
    (h : Draft.items? items = some vs) (hv : v ∈ vs) : ∃ d ∈ items, d.value? = some v := by
  induction items generalizing vs with
  | nil =>
    cases h
    exact absurd hv List.not_mem_nil
  | cons d rest ih =>
    rw [Draft.items?] at h
    split at h
    · next hd hrest =>
      cases h
      rcases List.mem_cons.mp hv with rfl | hv
      · exact ⟨d, List.mem_cons_self, hd⟩
      · obtain ⟨e, he, hev⟩ := ih hrest hv
        exact ⟨e, List.mem_cons_of_mem _ he, hev⟩
    · cases h

/-- A value in an object is that of a member. -/
theorem exists_of_mem_members? {drafts : List (String × Draft)} {m : String × Json}
    (h : Draft.members? drafts = some members) (hm : m ∈ members) :
    ∃ e ∈ drafts, e.2.value? = some m.2 := by
  induction drafts generalizing members with
  | nil =>
    cases h
    exact absurd hm List.not_mem_nil
  | cons first rest ih =>
    rw [Draft.members?] at h
    split at h
    · next hd hrest =>
      cases h
      rcases List.mem_cons.mp hm with rfl | hm
      · exact ⟨first, List.mem_cons_self, hd⟩
      · obtain ⟨e, he, hem⟩ := ih hrest hm
        exact ⟨e, List.mem_cons_of_mem _ he, hem⟩
    · cases h

/-- **A value is read back.**  What a draft has as its value comes back from its own draft. -/
theorem isNormal_of_value? {d : Draft} {v : Json} (h : d.value? = some v) : v.IsNormal := by
  match d with
  | .null | .bool _ | .int _ | .float _ | .str _ => cases h; rfl
  | .arr items =>
    rw [Draft.value?] at h
    obtain ⟨vs, hvs, rfl⟩ := Option.map_eq_some_iff.mp h
    refine isNormal_arr fun w hw => ?_
    obtain ⟨e, he, hew⟩ := exists_of_mem_items? hvs hw
    exact isNormal_of_value? hew
  | .obj drafts =>
    rw [Draft.value?] at h
    obtain ⟨vs, hvs, rfl⟩ := Option.map_eq_some_iff.mp h
    refine isNormal_object fun m hm => ?_
    obtain ⟨e, he, hem⟩ := exists_of_mem_members? hvs hm
    exact isNormal_of_value? hem
  | .unreadable => cases h
termination_by sizeOf d
decreasing_by
  · have := List.sizeOf_lt_of_mem he
    simp only [Draft.arr.sizeOf_spec]
    omega
  · have := List.sizeOf_lt_of_mem he
    have : sizeOf e.2 < sizeOf e := by cases e; simp only [Prod.mk.sizeOf_spec]; omega
    simp only [Draft.obj.sizeOf_spec]
    omega

/-! ## Numbers and readability -/

theorem draftItems_eq (vs : List Json) : draftItems vs = vs.map draft := by
  induction vs with
  | nil => rfl
  | cons v rest ih => rw [draftItems, ih, List.map_cons]

theorem draftMembers_eq (members : List (String × Json)) :
    draftMembers members = members.map fun m => (m.1, m.2.draft) := by
  induction members with
  | nil => rfl
  | cons m rest ih => rw [draftMembers, ih, List.map_cons]

theorem isFinite_draft_arr {vs : List Json} (h : ∀ v ∈ vs, v.draft.IsFinite) :
    (Json.arr vs).draft.IsFinite := by
  rw [draft, draftItems_eq]
  exact .arr (List.forall_mem_map.mpr h)

theorem isFinite_draft_obj (h : ∀ m ∈ members, m.2.draft.IsFinite) :
    (Json.obj members).draft.IsFinite := by
  rw [draft, draftMembers_eq]
  exact .obj (List.forall_mem_map.mpr h)

/-- A value has no other numbers than its draft. -/
theorem isFinite_of_value? {d : Draft} (hd : d.IsFinite) :
    ∀ {v : Json}, d.value? = some v → v.draft.IsFinite := by
  induction hd with
  | null => intro v h; cases h; exact .null
  | bool b => intro v h; cases h; exact .bool b
  | int hfits => intro v h; cases h; exact .int hfits
  | float hx => intro v h; cases h; exact .float hx
  | str s => intro v h; cases h; exact .str s
  | arr _ ih =>
    intro v h
    rw [Draft.value?] at h
    obtain ⟨vs, hvs, rfl⟩ := Option.map_eq_some_iff.mp h
    refine isFinite_draft_arr fun w hw => ?_
    obtain ⟨e, he, hew⟩ := exists_of_mem_items? hvs hw
    exact ih e he hew
  | obj _ ih =>
    intro v h
    rw [Draft.value?] at h
    obtain ⟨vs, hvs, rfl⟩ := Option.map_eq_some_iff.mp h
    refine isFinite_draft_obj fun m hm => ?_
    rcases mem_of_mem_foldl_putMember hm with hm | hm
    · exact absurd hm List.not_mem_nil
    · obtain ⟨e, he, hem⟩ := exists_of_mem_members? hvs hm
      exact ih e he hem
  | unreadable => intro v h; cases h

end Json
end Automation
