import Automation.Number.Decimal

/-!
# What a text is taken for

A setting that comes as a text is first taken for what it looks like: a truth value, an integer, a
decimal number, and otherwise a text.  Then it is made into what is wanted, as far as that goes.
Numbers are truth values, truth values are numbers, a decimal number is rounded to an integer, and
a text can be had of everything, in the spelling of what it was taken for, so that `007` becomes
`7`.
-/

namespace Automation

/-- What the text of a variable is taken for. -/
inductive Reading where
  | truth (b : Bool)
  | integer (n : Int)
  | decimal (x : Binary64)
  | text (s : String)
  deriving Repr

namespace Reading

/-! ## Taking a text for a value -/

/-- The natural of a text of decimal digits, at least one. -/
def natural? (cs : List Char) : Option Nat :=
  if cs.isEmpty then none
  else cs.foldlM (fun n c => if c.isDigit then some (n * 10 + (c.toNat - '0'.toNat)) else none) 0

/-- A sign in front, and what follows it. -/
def splitSign : List Char → Bool × List Char
  | '-' :: rest => (true, rest)
  | '+' :: rest => (false, rest)
  | cs => (false, cs)

/-- The integer of a text, if it fits 64 bits with a sign. -/
def integer? (cs : List Char) : Option Int := do
  let (negative, rest) := splitSign cs
  let n ← natural? rest
  let value : Int := if negative then -(n : Int) else n
  if -0x8000000000000000 ≤ value ∧ value ≤ 0x7fffffffffffffff then some value else none

/-- The exponent of a text behind the letter, or none at all. -/
def exponent? : List Char → Option Int
  | [] => some 0
  | c :: rest =>
    if c = 'e' ∨ c = 'E' then do
      let (negative, digits) := splitSign rest
      let n ← natural? digits
      some (if negative then -(n : Int) else n)
    else none

/-- The decimal number of a text, infinities and the absence of a number included. -/
def decimal? (cs : List Char) : Option Binary64 :=
  let (negative, rest) := splitSign cs
  let word := String.ofList (rest.map Char.toLower)
  if word = "inf" ∨ word = "infinity" then some (.infinite negative)
  else if word = "nan" then some .nan
  else do
    let whole := rest.takeWhile Char.isDigit
    let (places, rest) := match rest.dropWhile Char.isDigit with
      | '.' :: rest => (rest.takeWhile Char.isDigit, rest.dropWhile Char.isDigit)
      | rest => ([], rest)
    let digits ← natural? (whole ++ places)
    let exponent ← exponent? rest
    some (Binary64.ofDecimal negative digits (exponent - places.length))

/-- What a text is taken for. -/
def ofText (s : String) : Reading :=
  match s.toLower with
  | "true" => .truth true
  | "false" => .truth false
  | _ =>
    match integer? s.toList with
    | some n => .integer n
    | none =>
      match decimal? s.toList with
      | some x => .decimal x
      | none => .text s

/-! ## Making it what is wanted -/

/-- A truth value. -/
def truth? : Reading → Option Bool
  | .truth b => some b
  | .integer n => some (n ≠ 0)
  | .decimal x => some !x.isZero
  | .text s =>
    match s.toLower with
    | "1" | "true" | "on" | "yes" => some true
    | "0" | "false" | "off" | "no" => some false
    | _ => none

/-- A number rounded to a natural of 64 bits, a half away from zero, and cut to what fits. -/
def roundToWord : Binary64 → Nat
  | .nan => 0
  | .infinite negative => if negative then 0 else 0xffffffffffffffff
  | .finite negative steps =>
    if negative then 0
    else min ((2 * steps + Binary64.one) / (2 * Binary64.one)) 0xffffffffffffffff

/-- A natural of 64 bits. -/
def word? : Reading → Option Nat
  | .truth b => some (if b then 1 else 0)
  | .integer n => if 0 ≤ n then some n.toNat else none
  | .decimal x => some (roundToWord x)
  | .text s =>
    match s.toLower with
    | "true" | "on" | "yes" => some 1
    | "false" | "off" | "no" => some 0
    | _ => none

/-- A decimal number written in full, without exponent and without an empty fraction. -/
def plainText : Binary64 → String
  | .nan => "NaN"
  | .infinite negative => if negative then "-inf" else "inf"
  | .finite negative steps =>
    let d := if steps = 0 then ⟨0, 0⟩ else Binary64.shortest steps
    let digits := (toString d.digits).toList
    let magnitude :=
      if 0 ≤ d.scale then digits ++ List.replicate d.scale.toNat '0'
      else
        let places := (-d.scale).toNat
        let padded := List.replicate (places + 1 - digits.length) '0' ++ digits
        padded.take (padded.length - places) ++ '.' :: padded.drop (padded.length - places)
    String.ofList (if negative then '-' :: magnitude else magnitude)

/-- A text, in the spelling of what it was taken for. -/
def spelling : Reading → String
  | .truth b => if b then "true" else "false"
  | .integer n => toString n
  | .decimal x => plainText x
  | .text s => s

end Reading
end Automation
