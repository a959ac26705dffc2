/-!
# Instants

An instant is a day, a second of the day and a fraction of the second.  Instants are in UTC.

## Leap seconds

A leap second has no number of its own.  It is the last second of its minute going on: the second
stays and the fraction counts past a whole one, up to two.  Nothing announces such a second in
advance, so arithmetic treats every minute as having sixty seconds and makes exceptions only for an
instant that is itself inside one:

* moving from inside a leap second by less than a second may stay inside it, and moving further
  leaves it as if from the second it belongs to;
* a span that starts inside a leap second and ends in a later second of the day counts the leap
  second, and one that ends inside it counts as if ending after it.

So spans are not differences of positions on a line: of two instants in one second, the later may
have the longer span to the next second.  The order of instants does not care and is the order of
day, second and fraction.

## Range

Instants reach from the first day of the year -262143 to the last of 262142.  What would leave that
range has no result.
-/

namespace Automation

/-- A point in time, in UTC. -/
structure Instant where
  /-- Days since 1970-01-01. -/
  day : Int
  /-- Seconds of the day. -/
  second : Nat
  /-- Nanoseconds of the second; from a whole second on, the instant is inside a leap second. -/
  nano : Nat
  day_ge : -96465292 ≤ day
  day_le : day ≤ 95026236
  second_lt : second < 86400
  nano_lt : nano < 2000000000
  leap : 1000000000 ≤ nano → second % 60 = 59
  deriving DecidableEq, Repr

namespace Instant

/-- The instant of these parts, if it is in range. -/
def ofParts? (day : Int) (second nano : Nat) : Option Instant :=
  if h : -96465292 ≤ day ∧ day ≤ 95026236 ∧ second < 86400 ∧ nano < 2000000000 ∧
      (1000000000 ≤ nano → second % 60 = 59) then
    some ⟨day, second, nano, h.1, h.2.1, h.2.2.1, h.2.2.2.1, h.2.2.2.2⟩
  else none

/-- The start of 1970. -/
def epoch : Instant := ⟨0, 0, 0, by decide, by decide, by decide, by decide, by decide⟩

instance : Inhabited Instant := ⟨epoch⟩

/-- Whether an instant is inside a leap second. -/
def isLeap (t : Instant) : Bool := decide (1000000000 ≤ t.nano)

/-! ## Order -/

/-- Where an instant stands in the order: day, second and fraction as the digits of one number. -/
def rank (t : Instant) : Int := (t.day * 86400 + t.second) * 2000000000 + t.nano

instance : LE Instant := ⟨fun a b => a.rank ≤ b.rank⟩
instance : LT Instant := ⟨fun a b => a.rank < b.rank⟩
instance (a b : Instant) : Decidable (a ≤ b) := inferInstanceAs (Decidable (a.rank ≤ b.rank))
instance (a b : Instant) : Decidable (a < b) := inferInstanceAs (Decidable (a.rank < b.rank))

theorem le_iff_rank {a b : Instant} : a ≤ b ↔ a.rank ≤ b.rank := Iff.rfl

/-! ## Milliseconds -/

/-- The instant so many milliseconds after the epoch, if it is in range. -/
def ofMillis? (millis : Int) : Option Instant :=
  ofParts? (millis / 86400000) ((millis % 86400000) / 1000).toNat
    ((millis % 1000) * 1000000).toNat

/-- The instant so many milliseconds after the epoch; the epoch itself if that is out of range. -/
def ofMillis (millis : Int) : Instant := (ofMillis? millis).getD epoch

/-- Whole milliseconds since the epoch, rounded down.  Inside a leap second they run on into the
next second. -/
def toMillis (t : Instant) : Int := (t.day * 86400 + t.second) * 1000 + t.nano / 1000000

/-! ## Spans -/

/-- The nanoseconds from `earlier` to `t`, negative if `t` is the earlier one. -/
def since (t earlier : Instant) : Int :=
  let leaps : Int :=
    if earlier.second < t.second ∧ earlier.isLeap then 1
    else if t.second < earlier.second ∧ t.isLeap then -1
    else 0
  ((t.day - earlier.day) * 86400 + (t.second - earlier.second) + leaps) * 1000000000 +
    (t.nano - earlier.nano)

/-- The nanoseconds that have passed from `earlier` to `t`, none if `earlier` is still to come. -/
def elapsed (t earlier : Instant) : Nat := (t.since earlier).toNat

/-- Whether a span stays inside the leap second that an instant is in. -/
def staysInLeap (t : Instant) (nanos : Int) : Bool :=
  let seconds := nanos.tdiv 1000000000
  let fraction := nanos.tmod 1000000000
  t.isLeap && decide (seconds = 0 ∧ (fraction ≤ 0 ∨ t.nano + fraction < 2000000000))

/-- The instant so many nanoseconds later, if it is in range. -/
def add? (t : Instant) (nanos : Int) : Option Instant :=
  if t.staysInLeap nanos then ofParts? t.day t.second (t.nano + nanos).toNat
  else
    -- a move back leaves the leap second at its end, a move on leaves it at its start
    let second : Int := if t.isLeap ∧ nanos.tdiv 1000000000 < 0 then t.second + 1 else t.second
    let nano : Int := if t.isLeap then t.nano - 1000000000 else t.nano
    let total := second * 1000000000 + nano + nanos
    let seconds := total / 1000000000
    ofParts? (t.day + seconds / 86400) (seconds % 86400).toNat (total % 1000000000).toNat

end Instant
end Automation
