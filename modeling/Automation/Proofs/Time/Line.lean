import Automation.Time.Clock
import Mathlib.Order.Defs.LinearOrder
import Mathlib.Tactic.Ring

/-!
# Instants on a line

Outside leap seconds an instant is a place on a line: so many nanoseconds after the epoch.  There
the order of instants is the order of places and a span is a difference of places, so an argument
about windows of time is an argument about integers.

## What a leap second does to it

An instant inside a leap second shares its place with one in the second that follows, and the span
from it to later instants is longer than the difference of places says.  So "later" does not mean
"at least as long ago" there.  One half survives for every occurrence, inside a leap second or not:
what has not happened yet, by a clock outside leap seconds, has age zero
(`elapsed_eq_zero_of_le`).
-/

namespace Automation
namespace Instant

/-- Nanoseconds since the epoch.  Inside a leap second they run on into the next second. -/
def position (t : Instant) : Int := (t.day * 86400 + t.second) * 1000000000 + t.nano

/-- An instant outside leap seconds. -/
def IsPlain (t : Instant) : Prop := t.isLeap = false

instance (t : Instant) : Decidable t.IsPlain := inferInstanceAs (Decidable (t.isLeap = false))

theorem isPlain_iff {t : Instant} : t.IsPlain ↔ t.nano < 1000000000 := by
  rw [IsPlain, isLeap, decide_eq_false_iff_not, Nat.not_le]

/-! ## Order -/

theorem rank_injective {a b : Instant} (h : a.rank = b.rank) : a = b := by
  obtain ⟨da, sa, na, _, _, hsa, hna, _⟩ := a
  obtain ⟨db, sb, nb, _, _, hsb, hnb, _⟩ := b
  simp only [rank] at h
  have hday : da = db := by omega
  have hsecond : sa = sb := by omega
  have hnano : na = nb := by omega
  subst hday hsecond hnano
  rfl

/-- The order forgets nothing about an instant. -/
instance : LinearOrder Instant where
  le_refl a := Int.le_refl a.rank
  le_trans _ _ _ := Int.le_trans
  lt_iff_le_not_ge _ _ := Int.lt_iff_le_and_not_ge
  le_antisymm _ _ hab hba := rank_injective (Int.le_antisymm hab hba)
  le_total a b := Int.le_total a.rank b.rank
  toDecidableLE a b := inferInstanceAs (Decidable (a.rank ≤ b.rank))
  toDecidableLT a b := inferInstanceAs (Decidable (a.rank < b.rank))

/-- Outside leap seconds the order is the order on the line. -/
theorem le_iff_position {a b : Instant} (ha : a.IsPlain) (hb : b.IsPlain) :
    a ≤ b ↔ a.position ≤ b.position := by
  rw [isPlain_iff] at ha hb
  rw [le_iff_rank, rank, rank, position, position]
  have hsa := a.second_lt
  have hsb := b.second_lt
  constructor
  · intro h
    omega
  · intro h
    omega

/-! ## Spans -/

/-- Outside leap seconds a span is a difference of places. -/
theorem since_eq {t earlier : Instant} (ht : t.IsPlain) (he : earlier.IsPlain) :
    t.since earlier = t.position - earlier.position := by
  rw [IsPlain] at ht he
  rw [since, ht, he, position, position]
  simp only [Bool.false_eq_true, and_false, if_false]
  ring

theorem elapsed_eq {t earlier : Instant} (ht : t.IsPlain) (he : earlier.IsPlain) :
    t.elapsed earlier = (t.position - earlier.position).toNat := by
  rw [elapsed, since_eq ht he]

theorem elapsed_self (t : Instant) : t.elapsed t = 0 := by
  rw [elapsed, Int.toNat_eq_zero, since]
  simp

/-- An occurrence that the clock has not reached has age zero, whatever instant it is at. -/
theorem elapsed_eq_zero_of_le {now time : Instant} (hnow : now.IsPlain) (h : now ≤ time) :
    now.elapsed time = 0 := by
  have hn := isPlain_iff.mp hnow
  have hst := time.second_lt
  have hsn := now.second_lt
  have hminute := time.leap
  rw [le_iff_rank, rank, rank] at h
  rw [IsPlain] at hnow
  rw [elapsed, Int.toNat_eq_zero, since, hnow]
  simp only [Bool.false_eq_true, and_false, if_false]
  split
  · next hlater =>
    -- a leap second that is still to come lies in a later day, and its minute is nearly a minute off
    have hin : 1000000000 ≤ time.nano := of_decide_eq_true hlater.2
    have hend := hminute hin
    omega
  · omega

/-- Between two places of an interval there is no more time than the interval is long. -/
theorem elapsed_le_of_between {u v t t' : Instant} {n : Nat} (hu : u.IsPlain) (hv : v.IsPlain)
    (ht : t.IsPlain) (ht' : t'.IsPlain) (hlen : v.since u ≤ n) (hut : u ≤ t) (htv : t' ≤ v) :
    t'.elapsed t ≤ n := by
  rw [since_eq hv hu] at hlen
  rw [le_iff_position hu ht] at hut
  rw [le_iff_position ht' hv] at htv
  rw [elapsed_eq ht' ht]
  omega

/-- As the clock goes on, ages only grow. -/
theorem elapsed_mono {now later time : Instant} (hnow : now.IsPlain) (hlater : later.IsPlain)
    (ht : time.IsPlain) (h : now ≤ later) : now.elapsed time ≤ later.elapsed time := by
  rw [le_iff_position hnow hlater] at h
  rw [elapsed_eq hnow ht, elapsed_eq hlater ht]
  omega

/-- Of two occurrences the later one is the younger. -/
theorem elapsed_anti {now time later : Instant} (hnow : now.IsPlain) (ht : time.IsPlain)
    (hl : later.IsPlain) (h : time ≤ later) : now.elapsed later ≤ now.elapsed time := by
  rw [le_iff_position ht hl] at h
  rw [elapsed_eq hnow hl, elapsed_eq hnow ht]
  omega

end Instant
end Automation
