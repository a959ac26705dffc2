import Automation.Json.Decode
import Automation.Proofs.Json.Numbers

/-!
# What decoders give

A decoder is told by what it gives from a draft with finite numbers (`Gives`).  The parts of a
record are put together in the way its decoder puts them together, so there is one lemma for each
way in which a field may be read.
-/

namespace Automation
namespace Json
namespace Decode

/-- From a draft with finite numbers a decoder gives only what has a property. -/
def Gives {α : Type} (value : Decoder α) (P : α → Prop) : Prop :=
  ∀ d x, d.IsFinite → value d = some x → P x

variable {α : Type} {value : Decoder α} {P : α → Prop} {names : List String} {d : Draft}
  {fields : Fields}

/-- The fields of an object have finite numbers if the object has. -/
theorem isFinite_of_objectFields? (hd : d.IsFinite) (h : objectFields? names d = some fields) :
    ∀ name e, fields name = some e → e.IsFinite := by
  intro name e he
  cases hd with
  | obj hmembers =>
    simp only [objectFields?, Option.ite_none_right_eq_some, Option.some.injEq] at h
    obtain ⟨-, rfl⟩ := h
    obtain ⟨l₁, l₂, hmem, -⟩ := List.lookup_eq_some_iff.mp he
    exact hmembers (name, e) (hmem ▸ List.mem_append_right l₁ List.mem_cons_self)
  | _ => cases h

/-- The fields of a record have finite numbers if the record has. -/
theorem isFinite_of_record? (hd : d.IsFinite) (h : record? names d = some fields) :
    ∀ name e, fields name = some e → e.IsFinite := by
  cases hd with
  | arr hitems =>
    intro name e he
    simp only [record?, Option.ite_none_right_eq_some, Option.some.injEq] at h
    obtain ⟨-, rfl⟩ := h
    obtain ⟨l₁, l₂, hzip, -⟩ := List.lookup_eq_some_iff.mp he
    have hmem : (name, e) ∈ names.zip _ := hzip ▸ List.mem_append_right l₁ List.mem_cons_self
    exact hitems e (List.of_mem_zip hmem).2
  | obj hmembers => exact isFinite_of_objectFields? (.obj hmembers) h
  | _ => cases h

theorem Gives.required (hvalue : Gives value P)
    (hfields : ∀ name e, fields name = some e → e.IsFinite) {name : String} {x : α}
    (h : required fields name value = some x) : P x := by
  obtain ⟨e, he, hx⟩ := Option.bind_eq_some_iff.mp h
  exact hvalue e x (hfields name e he) hx

theorem Gives.defaulted (hvalue : Gives value P)
    (hfields : ∀ name e, fields name = some e → e.IsFinite) {name : String} {x default : α}
    (hdefault : P default) (h : defaulted fields name value default = some x) : P x := by
  unfold Decode.defaulted at h
  split at h
  · next e he => exact hvalue e x (hfields name e he) h
  · cases h
    exact hdefault

theorem Gives.nullable (hvalue : Gives value P) : Gives (nullable value) fun o => ∀ x ∈ o, P x := by
  intro d o hd h
  unfold Decode.nullable at h
  split at h
  · cases h
    exact fun x hx => by cases hx
  · obtain ⟨x, hx, rfl⟩ := Option.map_eq_some_iff.mp h
    intro y hy
    cases hy
    exact hvalue d x hd hx

theorem Gives.optional (hvalue : Gives value P)
    (hfields : ∀ name e, fields name = some e → e.IsFinite) {name : String} {o : Option α}
    (h : optional fields name value = some o) : ∀ x ∈ o, P x :=
  hvalue.nullable.defaulted hfields (fun x hx => by cases hx) h

/-- The value of an optional field has been read from something. -/
theorem exists_of_optional {name : String} {o : Option α} {x : α}
    (h : optional fields name value = some o) (hx : o = some x) : ∃ e, value e = some x := by
  subst hx
  unfold optional defaulted at h
  split at h
  · next e _ =>
    unfold Decode.nullable at h
    split at h
    · cases h
    · obtain ⟨y, hy, heq⟩ := Option.map_eq_some_iff.mp h
      cases heq
      exact ⟨_, hy⟩
  · cases h

theorem Gives.list (hvalue : Gives value P) : Gives (list value) fun xs => ∀ x ∈ xs, P x := by
  intro d xs hd h
  cases hd with
  | @arr items hitems =>
    have hmap : items.mapM value = some xs := h
    clear h
    induction items generalizing xs with
    | nil =>
      cases hmap
      exact List.forall_mem_nil _
    | cons first rest ih =>
      rw [List.forall_mem_cons] at hitems
      simp only [List.mapM_cons, Option.bind_eq_bind, Option.bind_eq_some_iff, Option.pure_def,
        Option.some.injEq] at hmap
      obtain ⟨x, hx, more, hmore, rfl⟩ := hmap
      rw [List.forall_mem_cons]
      exact ⟨hvalue first x hitems.1 hx, ih more hitems.2 hmore⟩
  | _ => cases h

theorem gives_double : Gives double fun x => x.isFinite = true := by
  intro d x hd h
  cases hd with
  | @int n hfits =>
    cases h
    unfold fits at hfits
    rw [decide_eq_true_eq] at hfits
    exact Binary64.isFinite_ofInt (by omega)
  | float hx =>
    cases h
    exact hx
  | _ => cases h

theorem lt_of_word {bits n : Nat} (h : word bits d = some n) : n < 2 ^ bits := by
  unfold word at h
  split at h
  · obtain ⟨hbounds, hn⟩ := Option.ite_none_right_eq_some.mp h
    cases hn
    rw [Nat.one_shiftLeft] at hbounds
    omega
  · cases h

theorem gives_word (bits : Nat) : Gives (word bits) fun n => n < 2 ^ bits :=
  fun _ _ _ h => lt_of_word h

end Decode
end Json
end Automation
