import Automation.Time.Calendar
import Automation.Time.Instant

/-!
# Instants as text

Written, an instant is `2024-02-29T12:30:45.120Z`: always in UTC, with the fewest of 0, 3, 6 or 9
places of fraction that lose nothing, a leap second as second 60, and a year outside four digits
with its sign.

Reading accepts more than writing produces.  The offset may be any below a day, blanks may stand
between the parts, a part may have fewer digits than two, the year carries a sign if it wants more
than four, places beyond the ninth are cut off, and `UTC` may stand for `Z`.  What is read is
moved to UTC; second 60 is a leap second of the minute it is given in.
-/

namespace Automation
namespace Instant

/-! ## Writing -/

/-- The character of a decimal digit. -/
def digitChar (n : Nat) : Char := Char.ofNat ('0'.toNat + n % 10)

/-- The last `width` decimal digits of a number. -/
def digits : Nat → Nat → List Char
  | 0, _ => []
  | width + 1, n => digits width (n / 10) ++ [digitChar n]

/-- A year: four digits if they suffice, otherwise a sign and at least four. -/
def yearText (year : Int) : List Char :=
  let n := year.natAbs
  let wide := if n < 10000 then digits 4 n else if n < 100000 then digits 5 n else digits 6 n
  if 0 ≤ year ∧ year ≤ 9999 then digits 4 n
  else (if year < 0 then '-' else '+') :: wide

/-- A fraction of a second in the fewest of 0, 3, 6 or 9 places. -/
def fractionText (nano : Nat) : List Char :=
  if nano = 0 then []
  else if nano % 1000000 = 0 then '.' :: digits 3 (nano / 1000000)
  else if nano % 1000 = 0 then '.' :: digits 6 (nano / 1000)
  else '.' :: digits 9 nano

/-- The text of an instant. -/
def chars (t : Instant) : List Char :=
  let date := Calendar.dateOf t.day
  let nano := if t.isLeap then t.nano - 1000000000 else t.nano
  let second := if t.isLeap then t.second % 60 + 1 else t.second % 60
  yearText date.year ++ '-' :: digits 2 date.month ++ '-' :: digits 2 date.day ++
    'T' :: digits 2 (t.second / 3600) ++ ':' :: digits 2 (t.second / 60 % 60) ++
    ':' :: digits 2 second ++ fractionText nano ++ ['Z']

/-- The text of an instant as a string. -/
def text (t : Instant) : String := String.ofList t.chars

/-! ## Reading -/

/-- The blanks that may stand between the parts of a time. -/
def isBlank (c : Char) : Bool :=
  let n := c.toNat
  (9 ≤ n && n ≤ 13) || n == 0x20 || n == 0x85 || n == 0xa0 || n == 0x1680 ||
    (0x2000 ≤ n && n ≤ 0x200a) || n == 0x2028 || n == 0x2029 || n == 0x202f || n == 0x205f ||
    n == 0x3000

/-- What follows the blanks at the front. -/
def skipBlanks (cs : List Char) : List Char := cs.dropWhile isBlank

/-- The value of a decimal digit. -/
def digit? (c : Char) : Option Nat :=
  if '0' ≤ c ∧ c ≤ '9' then some (c.toNat - '0'.toNat) else none

/-- Reads at most `limit` digits: their value on top of `value`, how many there were, and what
follows. -/
def takeDigits : Nat → Nat → List Char → Nat × Nat × List Char
  | 0, value, cs => (value, 0, cs)
  | _, value, [] => (value, 0, [])
  | limit + 1, value, c :: cs =>
    match digit? c with
    | some d =>
      let (v, n, rest) := takeDigits limit (value * 10 + d) cs
      (v, n + 1, rest)
    | none => (value, 0, c :: cs)

/-- A number of at least one and at most `limit` digits. -/
def number? (limit : Nat) (cs : List Char) : Option (Nat × List Char) :=
  match takeDigits limit 0 cs with
  | (_, 0, _) => none
  | (v, _, rest) => some (v, rest)

/-- A number behind blanks. -/
def part? (limit : Nat) (cs : List Char) : Option (Nat × List Char) := number? limit (skipBlanks cs)

/-- What follows a character that has to come, perhaps behind blanks. -/
def expect? (c : Char) (cs : List Char) : Option (List Char) :=
  match skipBlanks cs with
  | d :: rest => if d = c then some rest else none
  | [] => none

/-- A year, with more than four digits only behind a sign. -/
def year? (cs : List Char) : Option (Int × List Char) :=
  match skipBlanks cs with
  | '-' :: rest => (number? rest.length rest).map fun p => (-(p.1 : Int), p.2)
  | '+' :: rest => (number? rest.length rest).map fun p => ((p.1 : Int), p.2)
  | rest => (number? 4 rest).map fun p => ((p.1 : Int), p.2)

/-- A fraction of a second in nanoseconds, if there is one.  A point needs a digit behind it. -/
def fraction? (cs : List Char) : Option (Nat × List Char) :=
  match cs with
  | '.' :: rest =>
    match takeDigits 9 0 rest with
    | (_, 0, _) => none
    | (v, n, rest) => some (v * Nat.pow 10 (9 - n), rest.dropWhile fun c => (digit? c).isSome)
  | _ => some (0, cs)

/-- Exactly two digits. -/
def twoDigits? : List Char → Option (Nat × List Char)
  | a :: b :: rest =>
    match digit? a, digit? b with
    | some m, some n => some (m * 10 + n, rest)
    | _, _ => none
  | _ => none

/-- The offset from UTC in minutes. -/
def offset? (cs : List Char) : Option (Int × List Char) :=
  let signed (sign : Int) (rest : List Char) : Option (Int × List Char) := do
    let (hours, rest) ← twoDigits? rest
    let (minutes, rest) ← twoDigits? (rest.dropWhile fun c => c = ':' || isBlank c)
    if minutes < 60 ∧ hours < 24 then some (sign * (hours * 60 + minutes), rest) else none
  match skipBlanks cs with
  | u :: t :: c :: rest =>
    if u.toUpper = 'U' ∧ t.toUpper = 'T' ∧ c.toUpper = 'C' then some (0, rest)
    else if u = 'Z' ∨ u = 'z' then some (0, t :: c :: rest)
    else if u = '+' then signed 1 (t :: c :: rest)
    else if u = '-' ∨ u = '−' then signed (-1) (t :: c :: rest)
    else none
  | u :: rest => if u = 'Z' ∨ u = 'z' then some (0, rest) else none
  | [] => none

/-- The instant of a date and a time of day at an offset, if there is one in range.  The date has to
be in range before it is moved to UTC as well as after. -/
def assemble? (date : Date) (hour minute second nano : Nat) (offset : Int) : Option Instant := do
  let day ← Calendar.dayOf? date
  let (second, nano) := if second = 60 then (59, nano + 1000000000) else (second, nano)
  if hour < 24 ∧ minute < 60 ∧ second < 60 then
    let ofDay := hour * 3600 + minute * 60 + second
    let _ ← ofParts? day ofDay nano
    let moved : Int := ofDay - offset * 60
    ofParts? (day + moved / 86400) (moved % 86400).toNat nano
  else none

/-- The instant that a text gives. -/
def ofChars? (cs : List Char) : Option Instant := do
  let (year, cs) ← year? cs
  let cs ← expect? '-' cs
  let (month, cs) ← part? 2 cs
  let cs ← expect? '-' cs
  let (day, cs) ← part? 2 cs
  let cs ← match cs with
    | c :: rest => if c = 'T' ∨ c = 't' ∨ c = ' ' then some rest else none
    | [] => none
  let (hour, cs) ← part? 2 cs
  let cs ← expect? ':' cs
  let (minute, cs) ← part? 2 cs
  let cs ← expect? ':' cs
  let (second, cs) ← part? 2 cs
  let (nano, cs) ← fraction? cs
  let (offset, cs) ← offset? cs
  match skipBlanks cs with
  | [] => assemble? ⟨year, month, day⟩ hour minute second nano offset
  | _ => none

/-- The instant that a string gives. -/
def ofText? (text : String) : Option Instant := ofChars? text.toList

end Instant
end Automation
