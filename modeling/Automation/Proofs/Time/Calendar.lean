import Automation.Time.Calendar
import Automation.Time.Instant
import Mathlib.Algebra.Ring.Nat

/-!
# Days and dates

Every day has a date, and the date leads back to the day (`dayOf?_dateOf`).  That a day lies in its
year is `daysBeforeYear_yearOf`, so what is left is to follow a day of the year through the months.

The range of instants is a range of years, which `year_of_range` states: it bounds the digits that a
written year needs.
-/

namespace Automation
namespace Calendar

/-! ## Months -/

/-- A day of the year lies in one month: what the months before it take is gone, and what is left is
a day of that month. -/
theorem monthOf_eq (first : Nat) :
    ∀ (lengths : List Nat) (dayOfYear : Nat), dayOfYear < lengths.sum →
      ∃ i length rest, lengths[i]? = some length ∧ rest < length ∧
        dayOfYear = (lengths.take i).sum + rest ∧
        monthOf first dayOfYear lengths = (first + i, rest + 1)
  | [], dayOfYear, h => by simp at h
  | length :: more, dayOfYear, h => by
    rw [List.sum_cons] at h
    rw [monthOf]
    split
    · next hlt => exact ⟨0, length, dayOfYear, rfl, hlt, by simp, rfl⟩
    · next hge =>
      obtain ⟨i, l, rest, hi, hrest, hsum, hmonth⟩ :=
        monthOf_eq (first + 1) more (dayOfYear - length) (by omega)
      refine ⟨i + 1, l, rest, hi, hrest, ?_, ?_⟩
      · rw [List.take_succ_cons, List.sum_cons]
        omega
      · rw [hmonth, Nat.add_right_comm, Nat.add_assoc]

theorem sum_monthLengths (leap : Bool) :
    (monthLengths leap).sum = if leap then 366 else 365 := by
  cases leap <;> rfl

theorem length_monthLengths (leap : Bool) : (monthLengths leap).length = 12 := rfl

theorem le_of_mem_monthLengths {leap : Bool} {length : Nat} (h : length ∈ monthLengths leap) :
    length ≤ 31 := by
  revert length
  cases leap <;> decide

/-- The days of a year are those of its months. -/
theorem daysBeforeYear_succ (year : Int) :
    daysBeforeYear (year + 1) = daysBeforeYear year + (monthLengths (isLeap year)).sum := by
  rw [sum_monthLengths, daysBeforeYear, daysBeforeYear, isLeap]
  split
  · next h =>
    rw [decide_eq_true_eq] at h
    omega
  · next h =>
    rw [decide_eq_true_eq] at h
    omega

/-- What is known of a month from its place in the list of lengths. -/
theorem monthSpan?_add_one {leap : Bool} {i length : Nat}
    (h : (monthLengths leap)[i]? = some length) :
    monthSpan? leap (1 + i) = some (((monthLengths leap).take i).sum, length) := by
  rw [monthSpan?, if_neg (by omega)]
  dsimp only
  rw [Nat.add_sub_cancel_left, h, Option.map_some, List.sum_eq_foldl]

/-! ## Dates -/

/-- The date of a day, by the month and what is left of the year in it. -/
theorem dateOf_eq (day : Int) :
    ∃ i length rest, (monthLengths (isLeap (yearOf (day + epoch))))[i]? = some length ∧
      rest < length ∧ dateOf day = ⟨yearOf (day + epoch), 1 + i, rest + 1⟩ ∧
      day + epoch = daysBeforeYear (yearOf (day + epoch)) +
        ((monthLengths (isLeap (yearOf (day + epoch)))).take i).sum + rest := by
  obtain ⟨hfrom, hto⟩ := daysBeforeYear_yearOf (day + epoch)
  rw [daysBeforeYear_succ] at hto
  rw [dateOf]
  generalize yearOf (day + epoch) = year at hfrom hto
  obtain ⟨i, length, rest, hi, hrest, hsum, hmonth⟩ :=
    monthOf_eq 1 (monthLengths (isLeap year)) (day + epoch - daysBeforeYear year).toNat (by omega)
  refine ⟨i, length, rest, hi, hrest, ?_, by omega⟩
  dsimp only
  rw [hmonth]

/-- **A date leads back to its day.** -/
theorem dayOf?_dateOf (day : Int) : dayOf? (dateOf day) = some day := by
  obtain ⟨i, length, rest, hi, hrest, hdate, hday⟩ := dateOf_eq day
  rw [hdate, dayOf?]
  simp only [monthSpan?_add_one hi]
  rw [if_pos (by omega)]
  congr 1
  omega

/-- Two digits are enough for a month and for a day of a month. -/
theorem dateOf_lt (day : Int) : (dateOf day).month < 100 ∧ (dateOf day).day < 100 := by
  obtain ⟨i, length, rest, hi, hrest, hdate, -⟩ := dateOf_eq day
  obtain ⟨hlt, -⟩ := List.getElem?_eq_some_iff.mp hi
  have hle := le_of_mem_monthLengths (List.mem_of_getElem? hi)
  rw [length_monthLengths] at hlt
  rw [hdate]
  exact ⟨by simp only; omega, by simp only; omega⟩

/-- Later years begin later. -/
theorem daysBeforeYear_mono {year later : Int} (h : year ≤ later) :
    daysBeforeYear year ≤ daysBeforeYear later := by
  obtain ⟨n, rfl⟩ := Int.le.dest h
  induction n with
  | zero => simp
  | succ n ih =>
    rw [Int.natCast_succ, ← Int.add_assoc, daysBeforeYear_succ]
    have := ih (by omega)
    omega

/-- The years of the days that instants may have. -/
theorem year_of_range {day : Int} (hfrom : -96465292 ≤ day) (hto : day ≤ 95026236) :
    -262143 ≤ (dateOf day).year ∧ (dateOf day).year ≤ 262142 := by
  obtain ⟨hge, hlt⟩ := daysBeforeYear_yearOf (day + epoch)
  have hyear : (dateOf day).year = yearOf (day + epoch) := rfl
  have hfirst : daysBeforeYear (-262143) = -96465292 + epoch := by decide
  have hlast : daysBeforeYear 262143 = 95026236 + 1 + epoch := by decide
  rw [hyear]
  constructor
  · refine Int.not_lt.mp fun hbefore => ?_
    have := daysBeforeYear_mono (show yearOf (day + epoch) + 1 ≤ -262143 by omega)
    omega
  · refine Int.not_lt.mp fun hafter => ?_
    have := daysBeforeYear_mono (show 262143 ≤ yearOf (day + epoch) by omega)
    omega

end Calendar
end Automation
