import Automation.Number.Decimal

/-!
# JSON values

Payloads are arbitrary JSON, matchers look into them, and everything the engine is told or tells is
JSON.  This module is the value alone; reading and writing text are elsewhere.

## Two kinds of number

A number is an integer or a double, and the two are kept apart, since an echoed payload shows which
one it was.  An integer has to fit 64 bits, signed or unsigned; what does not fit is read as a
double.

Equality of values respects the distinction: `1` and `1.0` are different values, while `0.0` and
`-0.0` are the same one.  Where a matcher wants numbers compared across representations it converts
both with `Json.number?` first.

## Objects

Members are kept with strictly increasing keys.  `Json.object` builds such a list from members in
any order, the last one of a repeated key winning.
-/

namespace Automation

/-- A JSON value. -/
inductive Json where
  | null
  | bool (b : Bool)
  | int (n : Int)
  | float (x : Binary64)
  | str (s : String)
  | arr (items : List Json)
  | obj (members : List (String × Json))
  deriving Repr, Inhabited

namespace Json

/-! ## Equality -/

mutual

/-- Equality of values.  Integers equal integers, doubles equal doubles as numbers, and nothing else
crosses a kind. -/
def same : Json → Json → Bool
  | .null, .null => true
  | .bool a, .bool b => a == b
  | .int m, .int n => m == n
  | .float x, .float y => x.eq y
  | .str s, .str t => s == t
  | .arr xs, .arr ys => sameItems xs ys
  | .obj ms, .obj ns => sameMembers ms ns
  | _, _ => false

/-- Equality of two lists of items. -/
def sameItems : List Json → List Json → Bool
  | [], [] => true
  | x :: xs, y :: ys => same x y && sameItems xs ys
  | _, _ => false

/-- Equality of two lists of members with increasing keys. -/
def sameMembers : List (String × Json) → List (String × Json) → Bool
  | [], [] => true
  | (j, x) :: ms, (k, y) :: ns => j == k && same x y && sameMembers ms ns
  | _, _ => false

end

/-! ## Members -/

/-- Puts a member in its place, replacing one with the same key. -/
def putMember (key : String) (value : Json) : List (String × Json) → List (String × Json)
  | [] => [(key, value)]
  | (k, v) :: rest =>
    if key = k then (key, value) :: rest
    else if key < k then (key, value) :: (k, v) :: rest
    else (k, v) :: putMember key value rest

/-- The object with these members; of two with one key the later wins. -/
def object (members : List (String × Json)) : Json :=
  .obj (members.foldl (fun ms m => putMember m.1 m.2 ms) [])

/-- The value of a member of an object. -/
def member? (key : String) : Json → Option Json
  | .obj members => members.lookup key
  | _ => none

/-- The number a value stands for, if it is one. -/
def number? : Json → Option Binary64
  | .int n => some (Binary64.ofInt n)
  | .float x => some x
  | _ => none

/-- Whether a value is `null`. -/
def isNull : Json → Bool
  | .null => true
  | _ => false

/-! ## The integers that stay integers -/

/-- Whether an integer fits 64 bits, signed or unsigned. -/
def fits (n : Int) : Bool := decide (-0x8000000000000000 ≤ n ∧ n ≤ 0xffffffffffffffff)

end Json
end Automation
