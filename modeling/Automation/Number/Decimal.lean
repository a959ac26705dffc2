import Automation.Number.Binary64

/-!
# Decimal text of a double

A number in a text is decimal, and a double is a count of steps of `2^-1074`.  This module goes both
ways.

Reading is one rounding of an exact fraction: the digits are a natural, the exponent says which
power of ten divides or multiplies it, and `Binary64.ofFraction` rounds the quotient.  The exponent
may be absurd, so it is looked at first: a number beyond any power of ten a double can hold is
infinite, one below half the smallest step is zero, and neither is ever computed.

Writing takes the fewest digits that read back.  For one digit, two digits, and so on, the two
neighbours of the value on that decimal grid are read back, and the first grid with a hit wins.
Both neighbours are needed: at a power of two the numbers that round to a double reach further up
than down, so the nearer neighbour may miss where the farther one hits.
-/

namespace Automation
namespace Binary64

/-- A power of ten. -/
def tenPow (n : Nat) : Nat := Nat.pow 10 n

/-! ## Reading -/

/-- The number nearest to `digits * 10 ^ exponent`. -/
def ofDecimal (negative : Bool) (digits : Nat) (exponent : Int) : Binary64 :=
  if digits = 0 then .finite negative 0
  else if 400 < exponent then .infinite negative
  else if exponent < -(401 + (digits.log2 : Int)) then .finite negative 0
  else if 0 ≤ exponent then ofFraction negative (digits * tenPow exponent.toNat) 1
  else ofFraction negative digits (tenPow (-exponent).toNat)

/-! ## Writing -/

/-- Decimal digits and the power of ten of the last one. -/
structure Decimal where
  digits : Nat
  scale : Int
  deriving DecidableEq, Repr

/-- A count of steps as a quotient in units of `10 ^ scale`. -/
def onGrid (steps : Nat) (scale : Int) : Nat × Nat :=
  if scale < 0 then (steps * tenPow (-scale).toNat, one) else (steps, one * tenPow scale.toNat)

/-- The power of ten of the leading digit.  Adding 400 places makes the smallest step a number of
many digits, so counting digits is enough. -/
def leadingScale (steps : Nat) : Int :=
  ((toString (steps * tenPow 400 / one)).length : Int) - 401

/-- The neighbour on the grid of `scale` that reads back, the nearer one if both do. -/
def readsBack? (steps : Nat) (scale : Int) : Option Decimal :=
  let (num, den) := onGrid steps scale
  let below := num / den
  let hit (digits : Nat) : Bool := ofDecimal false digits scale = .finite false steps
  let upper := 2 * (num % den) > den ∨ (2 * (num % den) = den ∧ below % 2 = 1)
  match hit below, hit (below + 1) with
  | true, true => some ⟨if upper then below + 1 else below, scale⟩
  | true, false => some ⟨below, scale⟩
  | false, true => some ⟨below + 1, scale⟩
  | false, false => none

/-- The decimal with the fewest digits that reads back.  The first grid is one place above the
leading digit, for a power of ten just above the value.  Seventeen digits always read back, so the
last resort is never taken. -/
def shortest (steps : Nat) : Decimal :=
  let above := leadingScale steps + 1
  let grids := (List.range 18).map fun (n : Nat) => above - (n : Int)
  (grids.findSome? (readsBack? steps)).getD ⟨steps, -1074⟩

/-- Digits with the point where it belongs.  Numbers from `10^-5` to below `10^16` are written in
full and always show a fraction; all others have one digit before the point and an exponent. -/
def Decimal.text (d : Decimal) : String :=
  let digits := toString d.digits
  let point : Int := (digits.length : Int) + d.scale
  if 0 ≤ d.scale ∧ point ≤ 16 then
    digits ++ String.ofList (List.replicate d.scale.toNat '0') ++ ".0"
  else if 0 < point ∧ point ≤ 16 then
    String.ofList (digits.toList.take point.toNat) ++ "." ++
      String.ofList (digits.toList.drop point.toNat)
  else if -5 < point ∧ point ≤ 0 then
    "0." ++ String.ofList (List.replicate (-point).toNat '0') ++ digits
  else
    let mantissa := match digits.toList with
      | [] | [_] => digits
      | lead :: rest => String.ofList (lead :: '.' :: rest)
    mantissa ++ "e" ++ toString (point - 1)

/-- The decimal text of a finite number; there is none for the others. -/
def text? : Binary64 → Option String
  | .finite negative steps =>
    let magnitude := if steps = 0 then "0.0" else (shortest steps).text
    some (if negative then "-" ++ magnitude else magnitude)
  | .infinite _ => none
  | .nan => none

end Binary64
end Automation
