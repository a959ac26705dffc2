import Automation.Table
import Mathlib.Data.List.Sort

/-!
# Tables are their look-ups

What a table holds is what it looks up, and since its keys are in order there is one table for every
way to look up (`Table.eq_of_get?_eq`).  So to say what an operation on tables does it is enough to
say what it does to one key.

A list with distinct keys is a table in all but its order: `filter_eq_singleton` looks up in it.
-/

namespace Automation

/-- In a list with distinct keys the key of an element is that of no other. -/
theorem filter_eq_singleton {α β : Type} [DecidableEq β] {f : α → β} {l : List α}
    (h : (l.map f).Nodup) {a : α} (ha : a ∈ l) : (l.filter fun b => f b = f a) = [a] := by
  induction l with
  | nil => cases ha
  | cons b rest ih =>
    rw [List.map_cons, List.nodup_cons] at h
    rcases List.mem_cons.mp ha with rfl | hmem
    · rw [List.filter_cons_of_pos (by simp), List.filter_eq_nil_iff.mpr]
      intro c hc hsame
      exact h.1 (List.mem_map.mpr ⟨c, hc, of_decide_eq_true hsame⟩)
    · have hne : ¬ f b = f a := fun hsame => h.1 (List.mem_map.mpr ⟨a, hmem, hsame.symm⟩)
      rw [List.filter_cons_of_neg (by simpa using hne), ih h.2 hmem]

namespace Table

variable {κ α : Type} [LT κ] [DecidableEq κ] [KeyOrder κ]

/-- Tables that look up the same are the same. -/
theorem eq_of_get?_eq {t t' : Table κ α} (h : ∀ k, t.get? k = t'.get? k) : t = t' := by
  have hirrefl : Std.Irrefl fun a b : κ × α => a.1 < b.1 := ⟨fun a => KeyOrder.irrefl a.1⟩
  have hantisymm : Std.Antisymm fun a b : κ × α => a.1 < b.1 :=
    ⟨fun _ _ hab hba => absurd (KeyOrder.trans hab hba) (KeyOrder.irrefl _)⟩
  have hentries : t.entries = t'.entries := by
    refine t.sorted.eq_of_mem_iff t'.sorted fun e => ?_
    rw [← get?_eq_some_iff t, ← get?_eq_some_iff t', h]
  cases t
  cases t'
  cases hentries
  rfl

/-- What a table looks up when only some entries are kept. -/
theorem get?_filter_eq_some_iff (t : Table κ α) (keep : κ → α → Bool) (k : κ) (v : α) :
    (t.filter keep).get? k = some v ↔ t.get? k = some v ∧ keep k v = true := by
  rw [get?_eq_some_iff, get?_eq_some_iff, filter, List.mem_filter]

/-- The values of a table are what it looks up. -/
theorem mem_values_iff (t : Table κ α) (v : α) : v ∈ t.values ↔ ∃ k, t.get? k = some v := by
  rw [values, List.mem_map]
  constructor
  · rintro ⟨e, he, rfl⟩
    exact ⟨e.1, (get?_eq_some_iff t e.1 e.2).mpr he⟩
  · rintro ⟨k, hk⟩
    exact ⟨(k, v), (get?_eq_some_iff t k v).mp hk, rfl⟩

/-- The keys of a table are those under which it looks something up. -/
theorem mem_keys_iff (t : Table κ α) (k : κ) : k ∈ t.keys ↔ (t.get? k).isSome = true := by
  rw [keys, List.mem_map, Option.isSome_iff_exists]
  constructor
  · rintro ⟨e, he, rfl⟩
    exact ⟨e.2, (get?_eq_some_iff t e.1 e.2).mpr he⟩
  · rintro ⟨v, hv⟩
    exact ⟨(k, v), (get?_eq_some_iff t k v).mp hv, rfl⟩

omit [DecidableEq κ] in
/-- The keys of a table are distinct. -/
theorem nodup_keys (t : Table κ α) : t.keys.Nodup := by
  rw [keys, List.Nodup, List.pairwise_map]
  refine t.sorted.imp fun {a b} hlt heq => ?_
  rw [heq] at hlt
  exact KeyOrder.irrefl _ hlt

variable [DecidableLT κ]

/-- Of the pairs put into a table under one key the last one stays. -/
theorem get?_foldl_insert (pairs : List (κ × α)) (t : Table κ α) (k : κ) :
    (pairs.foldl (fun t p => t.insert p.1 p.2) t).get? k =
      (((pairs.filter fun p => p.1 = k).getLast?).map (·.2)).or (t.get? k) := by
  induction pairs generalizing t with
  | nil => rfl
  | cons p rest ih =>
    rw [List.foldl_cons, ih, get?_insert]
    by_cases hk : k = p.1
    · rw [if_pos hk, List.filter_cons_of_pos (by simpa using hk.symm)]
      cases hrest : rest.filter fun p => p.1 = k with
      | nil => rfl
      | cons q more =>
        rw [List.getLast?_cons_cons]
        cases hlast : (q :: more).getLast? with
        | none => simp at hlast
        | some last => rfl
    · rw [if_neg hk, List.filter_cons_of_neg (by simpa using Ne.symm hk)]

theorem get?_modify (t : Table κ α) (k j : κ) (f : α → α) :
    (t.modify k f).get? j = if j = k then (t.get? j).map f else t.get? j := by
  rw [modify]
  cases hentry : t.get? k with
  | none =>
    by_cases hj : j = k
    · rw [if_pos hj, hj, hentry]
      rfl
    · rw [if_neg hj]
  | some v =>
    show (t.insert k (f v)).get? j = _
    rw [get?_insert]
    by_cases hj : j = k
    · rw [if_pos hj, if_pos hj, hj, hentry]
      rfl
    · rw [if_neg hj, if_neg hj]

end Table
end Automation
