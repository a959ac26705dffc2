/-!
# The calendar

A day is counted from 1970-01-01.  Dates of the Gregorian calendar, extended to all years, are only
needed where times are read and written, so this module converts between the two and nothing else
knows about months.

The calendar repeats after 400 years.  Counted from the first of January of year 1, the odd day of a
leap year is the last day of four years, the missing one is in the last four years of a century, and
the regained one in the last century of 400 years.  So a day is split by four divisions, from long
periods to short ones, and a period that is a day too long only shows in the last of its kind: the
quotient is then one too many, which `min` takes back.
-/

namespace Automation

/-- A date of the Gregorian calendar. -/
structure Date where
  year : Int
  month : Nat
  day : Nat
  deriving DecidableEq, Repr

namespace Calendar

/-- Whether a year has a 29th of February. -/
def isLeap (year : Int) : Bool :=
  decide (year % 4 = 0 ∧ (year % 100 ≠ 0 ∨ year % 400 = 0))

/-- The lengths of the months, in order. -/
def monthLengths (leap : Bool) : List Nat :=
  [31, if leap then 29 else 28, 31, 30, 31, 30, 31, 31, 30, 31, 30, 31]

/-- The days from the first of January of year 1 to that of another year. -/
def daysBeforeYear (year : Int) : Int :=
  let last := year - 1
  365 * last + last / 4 - last / 100 + last / 400

/-- The days from the first of January of year 1 to 1970-01-01. -/
def epoch : Int := 719162

/-- The days before a month, and how long the month is. -/
def monthSpan? (leap : Bool) (month : Nat) : Option (Nat × Nat) :=
  if month = 0 then none
  else
    let lengths := monthLengths leap
    lengths[month - 1]?.map fun length => ((lengths.take (month - 1)).foldl (· + ·) 0, length)

/-- The day of a date, if there is such a date. -/
def dayOf? (d : Date) : Option Int :=
  match monthSpan? (isLeap d.year) d.month with
  | none => none
  | some (before, length) =>
    if 1 ≤ d.day ∧ d.day ≤ length then
      some (daysBeforeYear d.year - epoch + before + (d.day - 1))
    else none

/-- The year of a day counted from the first of January of year 1. -/
def yearOf (day : Int) : Int :=
  let inCycle := day % 146097
  let century := min (inCycle / 36524) 3
  let inCentury := inCycle - century * 36524
  let inFour := inCentury % 1461
  day / 146097 * 400 + century * 100 + inCentury / 1461 * 4 + min (inFour / 365) 3 + 1

theorem daysBeforeYear_split (cycle century four year : Int) (hc : 0 ≤ century ∧ century ≤ 3)
    (hf : 0 ≤ four ∧ four ≤ 24) (hy : 0 ≤ year ∧ year ≤ 3) :
    daysBeforeYear (cycle * 400 + century * 100 + four * 4 + year + 1) =
      cycle * 146097 + century * 36524 + four * 1461 + year * 365 := by
  have h4 : (cycle * 400 + century * 100 + four * 4 + year) / 4 =
      cycle * 100 + century * 25 + four := by omega
  have h100 : (cycle * 400 + century * 100 + four * 4 + year) / 100 = cycle * 4 + century := by
    omega
  have h400 : (cycle * 400 + century * 100 + four * 4 + year) / 400 = cycle := by omega
  unfold daysBeforeYear
  dsimp only
  rw [Int.add_sub_cancel, h4, h100, h400]
  omega

/-- **A day lies in its year.**  It is not before the first day of the year that `yearOf` gives, and
before the first day of the next. -/
theorem daysBeforeYear_yearOf (day : Int) :
    daysBeforeYear (yearOf day) ≤ day ∧ day < daysBeforeYear (yearOf day + 1) := by
  unfold yearOf
  dsimp only
  generalize hcycle : day / 146097 = cycle
  generalize hcentury : min (day % 146097 / 36524) 3 = century
  generalize hrest : day % 146097 - century * 36524 = rest
  generalize hfour : rest / 1461 = four
  generalize hyear : min (rest % 1461 / 365) 3 = year
  have hc : 0 ≤ century ∧ century ≤ 3 := by omega
  have hr : 0 ≤ rest ∧ rest < 36525 := by omega
  have hf : 0 ≤ four ∧ four ≤ 24 := by omega
  have hy : 0 ≤ year ∧ year ≤ 3 := by omega
  have hday : day = cycle * 146097 + century * 36524 + rest := by omega
  refine ⟨by rw [daysBeforeYear_split cycle century four year hc hf hy]; omega, ?_⟩
  by_cases hlast : year = 3
  · by_cases hlastFour : four = 24
    · by_cases hlastCentury : century = 3
      · have := daysBeforeYear_split (cycle + 1) 0 0 0
          (by decide) (by decide) (by decide)
        rw [show cycle * 400 + century * 100 + four * 4 + year + 1 + 1 =
          (cycle + 1) * 400 + 0 * 100 + 0 * 4 + 0 + 1 by omega, this]
        omega
      · have := daysBeforeYear_split cycle (century + 1) 0 0
          (by omega) (by decide) (by decide)
        rw [show cycle * 400 + century * 100 + four * 4 + year + 1 + 1 =
          cycle * 400 + (century + 1) * 100 + 0 * 4 + 0 + 1 by omega, this]
        omega
    · have := daysBeforeYear_split cycle century (four + 1) 0
        hc (by omega) (by decide)
      rw [show cycle * 400 + century * 100 + four * 4 + year + 1 + 1 =
        cycle * 400 + century * 100 + (four + 1) * 4 + 0 + 1 by omega, this]
      omega
  · have := daysBeforeYear_split cycle century four (year + 1)
      hc hf (by omega)
    rw [show cycle * 400 + century * 100 + four * 4 + year + 1 + 1 =
      cycle * 400 + century * 100 + four * 4 + (year + 1) + 1 by omega, this]
    omega

/-- The month and day of month, both from 1, of a day of the year counted from 0. -/
def monthOf (month : Nat) (dayOfYear : Nat) : List Nat → Nat × Nat
  | [] => (month, dayOfYear + 1)
  | length :: rest =>
    if dayOfYear < length then (month, dayOfYear + 1)
    else monthOf (month + 1) (dayOfYear - length) rest

/-- The date of a day. -/
def dateOf (day : Int) : Date :=
  let absolute := day + epoch
  let year := yearOf absolute
  let (month, dayOfMonth) :=
    monthOf 1 (absolute - daysBeforeYear year).toNat (monthLengths (isLeap year))
  ⟨year, month, dayOfMonth⟩

end Calendar
end Automation
