/-!
# Spans

A span is a length of time without direction, in nanoseconds.  Seconds are counted in 64 bits, so
there is a longest span, and what would be longer is cut to it.
-/

namespace Automation

/-- A length of time. -/
structure Span where
  nanos : Nat
  deriving DecidableEq, Repr, Inhabited

namespace Span

instance : LE Span := ⟨fun a b => a.nanos ≤ b.nanos⟩
instance : LT Span := ⟨fun a b => a.nanos < b.nanos⟩
instance (a b : Span) : Decidable (a ≤ b) := inferInstanceAs (Decidable (a.nanos ≤ b.nanos))
instance (a b : Span) : Decidable (a < b) := inferInstanceAs (Decidable (a.nanos < b.nanos))

/-- The longest span. -/
def longest : Span := ⟨0x10000000000000000 * 1000000000 - 1⟩

/-- So many seconds. -/
def ofSeconds (n : Nat) : Span := ⟨n * 1000000000⟩

/-- So many milliseconds. -/
def ofMillis (n : Nat) : Span := ⟨n * 1000000⟩

/-- Whole seconds. -/
def seconds (s : Span) : Nat := s.nanos / 1000000000

/-- The nanoseconds beyond the whole seconds. -/
def subsecond (s : Span) : Nat := s.nanos % 1000000000

/-- Whole milliseconds. -/
def toMillis (s : Span) : Nat := s.nanos / 1000000

theorem toMillis_ofMillis (millis : Nat) : (ofMillis millis).toMillis = millis :=
  Nat.mul_div_cancel _ (by decide)

/-- The span of seconds and nanoseconds, if it is not too long. -/
def ofParts? (seconds nanos : Nat) : Option Span :=
  let total := seconds * 1000000000 + nanos
  if total ≤ longest.nanos then some ⟨total⟩ else none

/-- The shorter of two spans. -/
def min (a b : Span) : Span := if a ≤ b then a else b

/-- The longer of two spans. -/
def max (a b : Span) : Span := if a ≤ b then b else a

/-- Twice a span, but no longer than the longest. -/
def double (s : Span) : Span := min ⟨s.nanos * 2⟩ longest

end Span
end Automation
