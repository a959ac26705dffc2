import Automation.Number.Decimal

/-!
# Decimal digits in one word

A number in a text may have any number of digits, and a reader that goes through a text once should
not have to remember them all.  So the digits are collected in one word of 64 bits, with a power of
ten beside it, and the double is made of these two at the end.

## Which digits count

A digit counts as long as the word can take it.  The first whole digit that does not fit, and every
whole digit behind it, only raises the power of ten.  The point lowers the power by one for every
digit that is still taken behind it, and from the first that does not fit the rest is dropped.

Nineteen digits always fit, so nothing that a double can show is lost here.

## Two roundings instead of one

The word is rounded to a double, and that is multiplied or divided by the double of the power of
ten.  Each step rounds, so the result is near the number that is written but need not be the nearest
double: it is the price for arithmetic of fixed size.  Where the nearest double is wanted there is
`Binary64.ofDecimal`.

The largest power of ten that is a double is the 308th.  A number that has to be made smaller than
that allows is divided by it first, as often as needed.
-/

namespace Automation

namespace Binary64

/-! ## Scaling by a power of ten -/

/-- The greatest exponent of a power of ten that is a finite double. -/
def maxTenPow : Nat := 308

/-- The steps of the double nearest to a power of ten. -/
def tenPowSteps (n : Nat) : Nat := nearest (tenPow n * one) 1

/-- The steps of a number times a power of ten, rounded. -/
def raiseByTen (steps n : Nat) : Nat := nearest (steps * tenPowSteps n) one

/-- The steps of a number divided by a power of ten, rounded. -/
def lowerByTen (steps n : Nat) : Nat := nearest (steps * one) (tenPowSteps n)

/-- The steps of a number scaled by a power of ten, unless that is beyond every double.  Zero stays
what it is by any power. -/
def scaleByTen? (steps : Nat) (exponent : Int) : Option Nat :=
  if 0 ≤ exponent then
    if exponent ≤ maxTenPow then
      let raised := raiseByTen steps exponent.toNat
      if raised < limit then some raised else none
    else if steps = 0 then some 0
    else none
  else if -(maxTenPow : Int) ≤ exponent then some (lowerByTen steps (-exponent).toNat)
  else if steps = 0 then some 0
  else scaleByTen? (lowerByTen steps maxTenPow) (exponent + maxTenPow)
termination_by (-exponent).toNat
decreasing_by simp only [maxTenPow] at *; omega

end Binary64

/-- The digits of a number as far as a word holds them, and the power of ten of the last one.
`isFull` says that a digit did not fit, on this side of the point. -/
structure Significand where
  word : Nat
  exponent : Int
  isFull : Bool
  deriving DecidableEq, Repr

namespace Significand

/-- The first word that is too large. -/
def wordLimit : Nat := 1 <<< 64

/-- No digits. -/
def empty : Significand := ⟨0, 0, false⟩

/-- Whether a digit fits. -/
def takes (s : Significand) (digit : Nat) : Bool := !s.isFull && s.word * 10 + digit < wordLimit

/-- One more digit before the point. -/
def pushWhole (s : Significand) (digit : Nat) : Significand :=
  if s.takes digit then { s with word := s.word * 10 + digit }
  else { s with exponent := s.exponent + 1, isFull := true }

/-- The point.  Behind it a smaller digit may fit where a whole one did not. -/
def point (s : Significand) : Significand := { s with isFull := false }

/-- One more digit behind the point. -/
def pushPlace (s : Significand) (digit : Nat) : Significand :=
  if s.takes digit then
    { s with word := s.word * 10 + digit, exponent := s.exponent - 1 }
  else { s with isFull := true }

/-- The natural that whole digits stand for, if all of them fit. -/
def natural? (s : Significand) : Option Nat := if s.isFull then none else some s.word

/-- The double of the digits with a sign and an exponent, unless it is beyond every double. -/
def double? (s : Significand) (negative : Bool) (exponent : Int) : Option Binary64 :=
  (Binary64.scaleByTen? (Binary64.nearest (s.word * Binary64.one) 1) (s.exponent + exponent)).map
    (Binary64.finite negative)

end Significand
end Automation
