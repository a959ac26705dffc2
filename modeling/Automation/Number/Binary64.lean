/-!
# Double precision numbers, counted exactly

Progress counts, goals, bounds and event values are double precision numbers.  What the engine does
with them is little: it adds, it compares, and it reads them from decimal or integer text.  All of
it has to be exact, since a trigger that fires one event late is a wrong answer.

## Why a count of the smallest step

Every finite double is a whole multiple of `2^-1074`, the smallest positive one.  So a finite
number is kept here as a sign and a natural number of such steps.  Comparing two numbers is then
comparing two integers, and adding two numbers is adding two integers and rounding once.  No
exponent has to be aligned and no mantissa shifted, and a proof about counting events is a proof
about integers.

The sign is kept beside the magnitude because zero has two of them, and a payload shows which one it
was given.

## Rounding

There is one rounding rule, to nearest with ties to the even neighbour, and it is stated once: for a
quotient of naturals (`nearest`).  Sums, integers and decimals are all quotients, so all of them
round by the same definition.  Whatever reaches `2^1024` is infinite.
-/

namespace Automation

/-- A double precision number.  A finite one is a sign and a count of steps of size `2^-1074`. -/
inductive Binary64 where
  | finite (negative : Bool) (steps : Nat)
  | infinite (negative : Bool)
  | nan
  deriving DecidableEq, Repr, Inhabited

namespace Binary64

/-! ## Rounding to 53 significant bits -/

/-- The quotient rounded to the nearest natural, a tie to the even one. -/
def divEven (num den : Nat) : Nat :=
  let q := num / den
  let r := num % den
  if 2 * r < den ∨ (2 * r = den ∧ q % 2 = 0) then q else q + 1

/-- How many low bits a count of steps has to give up to keep 53. -/
def excess (steps : Nat) : Nat := steps.log2 + 1 - 53

/-- The representable count of steps nearest to `num / den`.  A carry into the next power of two
needs no care: that power is representable as well. -/
def nearest (num den : Nat) : Nat :=
  let unit := 1 <<< excess (num / den)
  divEven num (den * unit) * unit

/-- The first count of steps that is too large for a finite number: `2^1024` in steps. -/
def limit : Nat := 1 <<< 2098

/-- The number nearest to `num / den` steps, infinite from `limit` on. -/
def ofSteps (negative : Bool) (num den : Nat) : Binary64 :=
  let steps := nearest num den
  if steps < limit then .finite negative steps else .infinite negative

/-- Steps in one unit. -/
def one : Nat := 1 <<< 1074

/-! ## Numbers from integers and fractions -/

/-- The positive zero, where every count starts. -/
def zero : Binary64 := .finite false 0

instance : OfNat Binary64 0 := ⟨zero⟩

/-- The number nearest to an integer. -/
def ofInt (n : Int) : Binary64 := ofSteps (decide (n < 0)) (n.natAbs * one) 1

instance : OfNat Binary64 1 := ⟨ofInt 1⟩

/-- The number nearest to a fraction of naturals with a sign. -/
def ofFraction (negative : Bool) (num den : Nat) : Binary64 := ofSteps negative (num * one) den

/-! ## The value as an integer, and what follows from it -/

/-- The signed count of steps; both zeros count 0. -/
def signed (negative : Bool) (steps : Nat) : Int := if negative then -(steps : Int) else steps

/-- Whether a number is finite. -/
def isFinite : Binary64 → Bool
  | .finite _ _ => true
  | _ => false

/-- Addition: exact in steps, then rounded once.  An exact zero is negative only if both summands
are. -/
def add : Binary64 → Binary64 → Binary64
  | .nan, _ => .nan
  | _, .nan => .nan
  | .infinite s, .infinite t => if s = t then .infinite s else .nan
  | .infinite s, .finite _ _ => .infinite s
  | .finite _ _, .infinite t => .infinite t
  | .finite s m, .finite t n =>
    let sum := signed s m + signed t n
    if sum = 0 then .finite (s && t) 0
    else ofSteps (decide (sum < 0)) sum.natAbs 1

instance : Add Binary64 := ⟨add⟩

/-- Strictly below.  Nothing is below or above a number that is not one. -/
def lt : Binary64 → Binary64 → Bool
  | .nan, _ => false
  | _, .nan => false
  | .infinite s, .infinite t => s && !t
  | .infinite s, .finite _ _ => s
  | .finite _ _, .infinite t => !t
  | .finite s m, .finite t n => decide (signed s m < signed t n)

/-- Equal as numbers: both zeros are equal, and what is not a number equals nothing. -/
def eq : Binary64 → Binary64 → Bool
  | .infinite s, .infinite t => s == t
  | .finite s m, .finite t n => decide (signed s m = signed t n)
  | _, _ => false

/-- Below or equal. -/
def le (x y : Binary64) : Bool := x.lt y || x.eq y

/-- Whether a number is a zero of either sign. -/
def isZero (x : Binary64) : Bool := x.eq zero

/-- The same number with the sign of zero forgotten, which is how a table column keeps it. -/
def dropZeroSign : Binary64 → Binary64
  | .finite true 0 => .finite false 0
  | x => x

/-- The integer a number stands for, if it is integral. -/
def toInt? : Binary64 → Option Int
  | .finite s m => if m % one = 0 then some (signed s (m / one)) else none
  | _ => none

/-! ## The interchange bits -/

/-- The 64 bits of a number: sign, eleven bits of exponent, 52 bits of fraction. -/
def toBits : Binary64 → Nat
  | .nan => 0x7ff8000000000000
  | .infinite s => signBit s + 0x7ff0000000000000
  | .finite s m =>
    if m < 1 <<< 52 then signBit s + m
    else
      let exponent := m.log2 - 52
      signBit s + ((exponent <<< 52) + (m >>> exponent))
where
  /-- The place of the sign. -/
  signBit (negative : Bool) : Nat := if negative then 1 <<< 63 else 0

/-- The number of a pattern of 64 bits. -/
def ofBits (bits : Nat) : Binary64 :=
  let negative := decide ((bits >>> 63) % 2 = 1)
  let exponent := (bits >>> 52) % 2048
  let fraction := bits % (1 <<< 52)
  if exponent = 0 then .finite negative fraction
  else if exponent < 2047 then .finite negative (((1 <<< 52) + fraction) <<< (exponent - 1))
  else if fraction = 0 then .infinite negative
  else .nan

end Binary64

end Automation
