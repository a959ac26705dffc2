import Automation.Limit.Limiter
import Automation.Proofs.Time.Line
import Mathlib.Data.List.Perm.Subperm
import Mathlib.Data.List.Count
import Mathlib.Data.List.TakeWhile
import Mathlib.Logic.Function.Iterate

/-!
# The history of one constraint

A cached constraint keeps its history in ascending order and prunes it whenever it records.  What
it answers is read off one element of that list, the one whose place from the end is the count.

* `sorted_record`, `record_perm`: recording keeps the order, drops what is out of range and adds
  the new occurrence.
* `exists_of_isOver_eq_false`: what an answer "not over" says about the one element.
* `countP_le_of_getElem?_lt`: in an ascending list that element bounds how much can lie behind it.
* `isOver_iff_count`: where the whole history lies outside leap seconds, looking at one element is
  the same as counting.
-/

namespace Automation
namespace CacheEntry

variable {e : CacheEntry} {now : Instant}

/-! ## Recording -/

@[simp] theorem record_constraint : (e.record now).constraint = e.constraint := rfl

theorem isWithinRange_iff {time : Instant} :
    e.isWithinRange now time = true ↔ now.elapsed time ≤ e.constraint.range.nanos := by
  rw [isWithinRange, decide_eq_true_eq]

@[simp] theorem isWithinRange_record {now' time : Instant} :
    (e.record now).isWithinRange now' time = e.isWithinRange now' time := rfl

/-- Recording drops what is out of range and adds the new occurrence. -/
theorem record_perm :
    (e.record now).times.Perm (now :: e.times.filter fun t => e.isWithinRange now t) := by
  refine List.perm_middle.trans (List.Perm.cons now ?_)
  rw [List.takeWhile_append_dropWhile]

/-- In an ascending history, what stands behind the past is later. -/
theorem lt_of_mem_dropWhile (now : Instant) {times : List Instant} (h : times.Pairwise (· ≤ ·)) :
    ∀ t ∈ times.dropWhile (fun t => decide (t ≤ now)), now < t := by
  induction times with
  | nil =>
    intro t ht
    cases ht
  | cons first rest ih =>
    obtain ⟨hfirst, hrest⟩ := List.pairwise_cons.mp h
    intro t ht
    by_cases hpast : first ≤ now
    · rw [List.dropWhile_cons, decide_eq_true hpast, if_pos rfl] at ht
      exact ih hrest t ht
    · rw [List.dropWhile_cons, decide_eq_false hpast, if_neg Bool.false_ne_true] at ht
      rcases List.mem_cons.mp ht with rfl | hmem
      · exact not_le.mp hpast
      · exact (not_le.mp hpast).trans_le (hfirst t hmem)

/-- A time put between the past and the rest of an ascending history keeps it ascending. -/
theorem sorted_insert {times : List Instant} (h : times.Pairwise (· ≤ ·)) :
    (times.takeWhile (fun t => decide (t ≤ now)) ++
      now :: times.dropWhile (fun t => decide (t ≤ now))).Pairwise (· ≤ ·) := by
  have hfuture := lt_of_mem_dropWhile now h
  rw [← List.takeWhile_append_dropWhile (p := fun t => decide (t ≤ now)) (l := times),
    List.pairwise_append] at h
  obtain ⟨hbefore, hafter, hcross⟩ := h
  rw [List.pairwise_append, List.pairwise_cons]
  refine ⟨hbefore, ⟨fun t ht => le_of_lt (hfuture t ht), hafter⟩, ?_⟩
  intro t ht t' ht'
  rcases List.mem_cons.mp ht' with rfl | ht'
  · have hpast := List.mem_takeWhile_imp ht
    exact of_decide_eq_true hpast
  · exact hcross t ht t' ht'

/-- Recording keeps the history in ascending order. -/
theorem sorted_record (h : e.times.Pairwise (· ≤ ·)) : (e.record now).times.Pairwise (· ≤ ·) :=
  sorted_insert (h.filter _)

/-! ## Recording several times at once -/

/-- An entry after so many occurrences at one time. -/
def recordTimes (now : Instant) (n : Nat) (e : CacheEntry) : CacheEntry :=
  (fun e => e.record now)^[n] e

@[simp] theorem recordTimes_zero : e.recordTimes now 0 = e := rfl

theorem recordTimes_succ {n : Nat} :
    e.recordTimes now (n + 1) = (e.recordTimes now n).record now := by
  rw [recordTimes, Function.iterate_succ_apply']
  rfl

@[simp] theorem recordTimes_constraint {n : Nat} :
    (e.recordTimes now n).constraint = e.constraint := by
  induction n with
  | zero => rfl
  | succ n ih => rw [recordTimes_succ, record_constraint, ih]

theorem isWithinRange_recordTimes {n : Nat} {now' time : Instant} :
    (e.recordTimes now n).isWithinRange now' time = e.isWithinRange now' time := by
  rw [isWithinRange, isWithinRange, recordTimes_constraint]

theorem sorted_recordTimes {n : Nat} (h : e.times.Pairwise (· ≤ ·)) :
    (e.recordTimes now n).times.Pairwise (· ≤ ·) := by
  induction n with
  | zero => exact h
  | succ n ih =>
    rw [recordTimes_succ]
    exact sorted_record ih

/-- Nothing that has just happened is out of range. -/
theorem isWithinRange_self : e.isWithinRange now now = true := by
  rw [isWithinRange_iff, Instant.elapsed_self]
  exact Nat.zero_le _

/-- All that has just happened is in range. -/
theorem filter_replicate (n : Nat) :
    (List.replicate n now).filter (fun t => e.isWithinRange now t) = List.replicate n now := by
  rw [List.filter_eq_self]
  intro t ht
  rw [List.eq_of_mem_replicate ht]
  exact isWithinRange_self

/-- Dropping again what was dropped already changes nothing. -/
theorem filter_perm {times : List Instant} {n : Nat}
    (h : times.Perm (List.replicate n now ++ e.times.filter fun t => e.isWithinRange now t)) :
    (times.filter fun t => e.isWithinRange now t).Perm
      (List.replicate n now ++ e.times.filter fun t => e.isWithinRange now t) := by
  refine (h.filter _).trans ?_
  rw [List.filter_append, filter_replicate, List.filter_filter]
  simp only [Bool.and_self]
  exact List.Perm.refl _

/-- Recording several times drops once and adds as often. -/
theorem recordTimes_perm (n : Nat) :
    (e.recordTimes now (n + 1)).times.Perm
      (List.replicate (n + 1) now ++ e.times.filter fun t => e.isWithinRange now t) := by
  induction n with
  | zero => exact record_perm
  | succ n ih =>
    rw [recordTimes_succ]
    refine record_perm.trans ?_
    rw [List.replicate_succ (n := n + 1), List.cons_append]
    refine List.Perm.cons now ?_
    have hsame : (fun t => (e.recordTimes now (n + 1)).isWithinRange now t) =
        fun t => e.isWithinRange now t := funext fun t => isWithinRange_recordTimes
    rw [hsame]
    exact filter_perm ih

/-- What is in range after recording is new or was in range. -/
theorem filter_recordTimes_perm (n : Nat) :
    ((e.recordTimes now n).times.filter fun t => e.isWithinRange now t).Perm
      (List.replicate n now ++ e.times.filter fun t => e.isWithinRange now t) := by
  cases n with
  | zero => exact List.Perm.refl _
  | succ n => exact filter_perm (recordTimes_perm n)

/-- What is in a history after recording is new or was there. -/
theorem mem_recordTimes {n : Nat} {t : Instant} (h : t ∈ (e.recordTimes now n).times) :
    t = now ∨ t ∈ e.times := by
  cases n with
  | zero => exact Or.inr h
  | succ n =>
    rcases List.mem_append.mp ((recordTimes_perm n).mem_iff.mp h) with hmem | hmem
    · exact Or.inl (List.eq_of_mem_replicate hmem)
    · exact Or.inr (List.mem_filter.mp hmem).1

/-! ## Looking at one element -/

/-- An entry that is not over has an element out of range at the place of the count, or fewer
elements than that. -/
theorem exists_of_isOver_eq_false (h : e.isOver now = false) :
    e.constraint.count ≠ 0 ∧ (e.times.length < e.constraint.count ∨
      ∃ time, e.times[e.times.length - e.constraint.count]? = some time ∧
        e.isWithinRange now time = false) := by
  simp only [isOver] at h
  split at h
  · cases h
  · next hcount =>
    refine ⟨hcount, ?_⟩
    split at h
    · next hshort => exact Or.inl hshort
    · next hlong =>
      have hplace : e.times.length - e.constraint.count < e.times.length := by omega
      rw [List.getElem?_eq_getElem hplace, Option.any_some] at h
      exact Or.inr ⟨_, List.getElem?_eq_getElem hplace, h⟩

/-- In an ascending list fewer than `n` elements can be later than the `n`-th from the end. -/
theorem countP_le_of_getElem?_lt {times : List Instant} {n : Nat} {t y : Instant}
    (hs : times.Pairwise (· ≤ ·)) (hn : n ≠ 0) (hlen : n ≤ times.length)
    (hy : times[times.length - n]? = some y) (hlt : y < t) :
    times.countP (fun x => t ≤ x) < n := by
  have hplace : times.length - n < times.length := by omega
  have hsplit := List.take_append_drop (times.length - n + 1) times
  have hzero : (times.take (times.length - n + 1)).countP (fun x => t ≤ x) = 0 := by
    rw [List.countP_eq_zero]
    intro x hx
    obtain ⟨i, hi, rfl⟩ := List.mem_iff_getElem.mp hx
    rw [List.length_take] at hi
    rw [List.getElem_take, decide_eq_true_eq, not_le]
    have hle : times[i] ≤ times[times.length - n] := by
      rcases Nat.lt_or_ge i (times.length - n) with hlt | hge
      · exact List.pairwise_iff_getElem.mp hs i _ (by omega) hplace hlt
      · have hi : i = times.length - n := by omega
        subst hi
        exact le_rfl
    rw [List.getElem?_eq_getElem hplace, Option.some.injEq] at hy
    rw [hy] at hle
    exact hle.trans_lt hlt
  calc times.countP (fun x => t ≤ x)
      = (times.take (times.length - n + 1)).countP (fun x => t ≤ x) +
          (times.drop (times.length - n + 1)).countP (fun x => t ≤ x) := by
        rw [← List.countP_append, hsplit]
    _ ≤ (times.drop (times.length - n + 1)).length := by
        rw [hzero, Nat.zero_add]
        exact List.countP_le_length
    _ < n := by
        rw [List.length_drop]
        omega

/-- In a list in which a property stays once it holds, one element says how many have it at least. -/
theorem le_countP_iff {α : Type} {p : α → Bool} {l : List α}
    (hp : ∀ i j (hi : i < l.length) (hj : j < l.length), i ≤ j → p l[i] = true → p l[j] = true)
    {n : Nat} (hn : n < l.length) : l.length - n ≤ l.countP p ↔ p l[n] = true := by
  have hsplit : l.countP p = (l.take n).countP p + (l.drop n).countP p := by
    rw [← List.countP_append, List.take_append_drop]
  rw [hsplit]
  cases hwithin : p l[n] with
  | true =>
    have hall : (l.drop n).countP p = l.length - n := by
      rw [List.countP_eq_length.mpr, List.length_drop]
      intro a ha
      obtain ⟨i, hi, rfl⟩ := List.mem_iff_getElem.mp ha
      rw [List.getElem_drop]
      exact hp _ _ hn _ (Nat.le_add_right _ _) hwithin
    rw [hall]
    simp
  | false =>
    have hnone : (l.take n).countP p = 0 := by
      rw [List.countP_eq_zero]
      intro a ha hin
      obtain ⟨i, hi, rfl⟩ := List.mem_iff_getElem.mp ha
      rw [List.length_take] at hi
      rw [List.getElem_take] at hin
      rw [hp i _ (by omega) hn (by omega) hin] at hwithin
      cases hwithin
    have hrest : (l.drop n).countP p < l.length - n := by
      rw [List.drop_eq_getElem_cons hn, List.countP_cons_of_neg (by rw [hwithin]; decide)]
      refine Nat.lt_of_le_of_lt List.countP_le_length ?_
      rw [List.length_drop]
      omega
    rw [hnone, Nat.zero_add]
    simp only [Bool.false_eq_true, iff_false, Nat.not_le]
    exact hrest

/-- In ascending order the ages descend, so once an occurrence is in range the later ones are. -/
theorem isWithinRange_getElem (hs : e.times.Pairwise (· ≤ ·)) (hnow : now.IsPlain)
    (hplain : ∀ t ∈ e.times, t.IsPlain) (i j : Nat) (hi : i < e.times.length)
    (hj : j < e.times.length) (hij : i ≤ j) (hwithin : e.isWithinRange now e.times[i] = true) :
    e.isWithinRange now e.times[j] = true := by
  rw [isWithinRange_iff] at hwithin ⊢
  rcases Nat.eq_or_lt_of_le hij with rfl | hlt
  · exact hwithin
  · exact (Instant.elapsed_anti hnow (hplain _ (List.getElem_mem hi))
      (hplain _ (List.getElem_mem hj)) (List.pairwise_iff_getElem.mp hs i j hi hj hlt)).trans hwithin

/-- Where no occurrence lies inside a leap second, looking at one element is the same as counting: a
constraint allows nothing more when as many occurrences as it allows are in range. -/
theorem isOver_iff_count (hs : e.times.Pairwise (· ≤ ·)) (hnow : now.IsPlain)
    (hplain : ∀ t ∈ e.times, t.IsPlain) :
    e.isOver now = true ↔ e.constraint.count ≤ e.times.countP (fun t => e.isWithinRange now t) := by
  simp only [isOver]
  split
  · next hzero => simp [hzero]
  · next hcount =>
    split
    · next hshort =>
      have hle : e.times.countP (fun t => e.isWithinRange now t) ≤ e.times.length :=
        List.countP_le_length
      simp only [Bool.false_eq_true, false_iff, Nat.not_le]
      omega
    · next hlong =>
      have hplace : e.times.length - e.constraint.count < e.times.length := by omega
      have hback : e.times.length - (e.times.length - e.constraint.count) = e.constraint.count := by
        omega
      have hone := le_countP_iff (isWithinRange_getElem hs hnow hplain) hplace
      rw [hback] at hone
      rw [List.getElem?_eq_getElem hplace, Option.any_some]
      exact hone.symm

end CacheEntry
end Automation
