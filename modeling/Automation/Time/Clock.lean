import Automation.Time.Instant

/-!
# A clock moved by hand

Windows, limits and the dates of what fires are all judged against one clock, and the clock stands
still until it is told to move.  It may be set to any instant, also an earlier one.  Moving it by a
span fails when the result would be out of range, and then it stays where it was.
-/

namespace Automation

/-- A clock that shows one instant until it is moved. -/
structure Clock where
  now : Instant
  deriving DecidableEq, Repr, Inhabited

namespace Clock

/-- A clock showing so many milliseconds after the epoch, or the epoch if that is out of range. -/
def ofMillis (millis : Int) : Clock := ⟨Instant.ofMillis millis⟩

/-- Sets the clock to so many milliseconds after the epoch, or to the epoch. -/
def setMillis (_ : Clock) (millis : Int) : Clock := ofMillis millis

/-- Sets the clock to an instant. -/
def set (_ : Clock) (t : Instant) : Clock := ⟨t⟩

/-- Moves the clock by nanoseconds. -/
def advanceNanos? (c : Clock) (nanos : Int) : Option Clock := (c.now.add? nanos).map Clock.mk

/-- Moves the clock by microseconds. -/
def advanceMicros? (c : Clock) (micros : Int) : Option Clock := c.advanceNanos? (micros * 1000)

/-- Moves the clock by milliseconds.  The smallest integer of 64 bits has no opposite and is no
span. -/
def advanceMillis? (c : Clock) (millis : Int) : Option Clock :=
  if millis = -0x8000000000000000 then none else c.advanceNanos? (millis * 1000000)

end Clock
end Automation
