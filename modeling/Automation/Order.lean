/-!
# Stable sorting by an integer

Results are ordered by priority and occurrences by time.  Both orders are ties most of the time,
and what ties must stay as it was, so sorting here is insertion from the right: an element is put
in front of everything that is not smaller.  On a list that is already in order each insertion is
one step.
-/

namespace Automation

variable {α : Type}

/-- Puts an element in front of the first one that is not smaller. -/
def insertBy (key : α → Int) (x : α) : List α → List α
  | [] => [x]
  | y :: ys => if key x ≤ key y then x :: y :: ys else y :: insertBy key x ys

/-- The list in increasing order of the key, ties in the order they had. -/
def sortBy (key : α → Int) (xs : List α) : List α := xs.foldr (insertBy key) []

theorem perm_insertBy (key : α → Int) (x : α) (ys : List α) :
    (insertBy key x ys).Perm (x :: ys) := by
  induction ys with
  | nil => exact List.Perm.refl _
  | cons y ys ih =>
    unfold insertBy
    split
    · exact List.Perm.refl _
    · exact (ih.cons y).trans (List.Perm.swap x y ys)

/-- Sorting loses nothing and adds nothing. -/
theorem perm_sortBy (key : α → Int) (xs : List α) : (sortBy key xs).Perm xs := by
  induction xs with
  | nil => exact List.Perm.refl _
  | cons x xs ih => exact (perm_insertBy key x _).trans (ih.cons x)

theorem sorted_insertBy {key : α → Int} {x : α} {ys : List α}
    (h : ys.Pairwise fun a b => key a ≤ key b) :
    (insertBy key x ys).Pairwise fun a b => key a ≤ key b := by
  induction ys with
  | nil => simp [insertBy]
  | cons y ys ih =>
    obtain ⟨hy, hys⟩ := List.pairwise_cons.mp h
    unfold insertBy
    split
    · next hle =>
      refine List.pairwise_cons.mpr ⟨fun z hz => ?_, h⟩
      rcases List.mem_cons.mp hz with hz | hz
      · exact hz ▸ hle
      · exact Int.le_trans hle (hy z hz)
    · next hgt =>
      refine List.pairwise_cons.mpr ⟨fun z hz => ?_, ih hys⟩
      rcases List.mem_cons.mp ((perm_insertBy key x ys).mem_iff.mp hz) with hz | hz
      · exact hz ▸ Int.le_of_lt (Int.not_le.mp hgt)
      · exact hy z hz

/-- Sorting sorts. -/
theorem sorted_sortBy (key : α → Int) (xs : List α) :
    (sortBy key xs).Pairwise fun a b => key a ≤ key b := by
  induction xs with
  | nil => exact List.Pairwise.nil
  | cons x xs ih => exact sorted_insertBy ih

/-! ## Sorting a part -/

theorem insertBy_of_le {key : α → Int} {x : α} {ys : List α} (h : ∀ y ∈ ys, key x ≤ key y) :
    insertBy key x ys = x :: ys := by
  cases ys with
  | nil => rfl
  | cons y ys => rw [insertBy, if_pos (h y List.mem_cons_self)]

theorem filter_insertBy (keep : α → Bool) {key : α → Int} {x : α} {ys : List α}
    (h : ys.Pairwise fun a b => key a ≤ key b) :
    (insertBy key x ys).filter keep =
      if keep x then insertBy key x (ys.filter keep) else ys.filter keep := by
  induction ys with
  | nil => rw [insertBy, List.filter_cons, List.filter_nil, insertBy]
  | cons y ys ih =>
    obtain ⟨hy, hys⟩ := List.pairwise_cons.mp h
    by_cases hle : key x ≤ key y
    · -- what is kept of a sorted list is not smaller either
      have hall : ∀ z ∈ y :: ys, key x ≤ key z := fun z hz =>
        (List.mem_cons.mp hz).elim (fun hzy => hzy ▸ hle) fun hz => Int.le_trans hle (hy z hz)
      rw [insertBy_of_le hall, insertBy_of_le fun z hz => hall z (List.mem_filter.mp hz).1,
        List.filter_cons]
    · rw [insertBy, if_neg hle, List.filter_cons, ih hys, List.filter_cons]
      by_cases hkeep : keep y = true
      · rw [if_pos hkeep, if_pos hkeep, insertBy, if_neg hle]
        split <;> rfl
      · rw [if_neg hkeep, if_neg hkeep]

/-- Sorting is stable, so a part of a list is sorted as it is within the whole. -/
theorem filter_sortBy (keep : α → Bool) (key : α → Int) (xs : List α) :
    (sortBy key xs).filter keep = sortBy key (xs.filter keep) := by
  induction xs with
  | nil => rfl
  | cons x xs ih =>
    show (insertBy key x (sortBy key xs)).filter keep = _
    rw [filter_insertBy keep (sorted_sortBy key xs), ih, List.filter_cons]
    split <;> rfl

/-! ## Ties -/

theorem map_insertBy {β : Type} (f : α → β) (key : β → Int) (x : α) (ys : List α) :
    insertBy key (f x) (ys.map f) = (insertBy (fun a => key (f a)) x ys).map f := by
  induction ys with
  | nil => rfl
  | cons y ys ih =>
    rw [List.map_cons, insertBy, insertBy]
    split
    · rfl
    · rw [ih, List.map_cons]

/-- What is sorted by may be a part of what is sorted. -/
theorem map_sortBy {β : Type} (f : α → β) (key : β → Int) (xs : List α) :
    sortBy key (xs.map f) = (sortBy (fun a => key (f a)) xs).map f := by
  induction xs with
  | nil => rfl
  | cons x xs ih =>
    show insertBy key (f x) (sortBy key (xs.map f)) = _
    rw [ih, map_insertBy]
    rfl

theorem pairwise_insertBy {key : α → Int} {before : α → α → Prop} {x : α} {ys : List α}
    (hx : ∀ y ∈ ys, before x y)
    (h : ys.Pairwise fun a b => key a < key b ∨ key a = key b ∧ before a b) :
    (insertBy key x ys).Pairwise fun a b => key a < key b ∨ key a = key b ∧ before a b := by
  induction ys with
  | nil => simp [insertBy]
  | cons y ys ih =>
    obtain ⟨hy, hys⟩ := List.pairwise_cons.mp h
    unfold insertBy
    split
    · next hle =>
      refine List.pairwise_cons.mpr ⟨fun z hz => ?_, h⟩
      -- nothing in the list is smaller than its first element
      have hyz : key y ≤ key z := by
        rcases List.mem_cons.mp hz with rfl | hz
        · exact Int.le_refl _
        · exact (hy z hz).elim Int.le_of_lt fun htie => Int.le_of_eq htie.1
      rcases Int.lt_or_eq_of_le (Int.le_trans hle hyz) with hlt | heq
      · exact Or.inl hlt
      · exact Or.inr ⟨heq, hx z hz⟩
    · next hgt =>
      refine List.pairwise_cons.mpr
        ⟨fun z hz => ?_, ih (fun z hz => hx z (List.mem_cons_of_mem _ hz)) hys⟩
      rcases List.mem_cons.mp ((perm_insertBy key x ys).mem_iff.mp hz) with rfl | hz
      · exact Or.inl (Int.not_le.mp hgt)
      · exact hy z hz

/-- Ties stay in the order they had. -/
theorem pairwise_sortBy (key : α → Int) {before : α → α → Prop} {xs : List α}
    (h : xs.Pairwise before) :
    (sortBy key xs).Pairwise fun a b => key a < key b ∨ key a = key b ∧ before a b := by
  induction xs with
  | nil => exact List.Pairwise.nil
  | cons x xs ih =>
    obtain ⟨hx, hxs⟩ := List.pairwise_cons.mp h
    exact pairwise_insertBy (fun y hy => hx y ((perm_sortBy key xs).mem_iff.mp hy)) (ih hxs)

end Automation
