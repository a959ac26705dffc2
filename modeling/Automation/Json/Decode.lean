import Automation.Json.Reader

/-!
# Decoding drafts

A decoder turns a draft into a value of a domain type, or refuses it.  Why it refuses is nowhere
told, so a decoder is a function into `Option`.

## Records

A record is given as an object of its fields or as an array of them in their declared order.  In
both forms a field may be absent: a missing member, or the end of the array.  `record?` turns either
form into the same thing, a function from field names to drafts, and everything after it is one
definition for both.  It refuses an object that gives a known field twice and an array with more
items than fields; a field it does not know is skipped, unread.

## Absent and null

For an optional field both mean that there is no value.  A field with a default takes it when
absent, and refuses `null` unless its own type accepts it.

## Plain names

A value of an enumeration is its name as a string, or an object with the name as its only key and
nothing under it.  What counts as nothing depends on where it stands, so it is a parameter.
-/

namespace Automation
namespace Json

/-- Reads a draft as a value of some type. -/
abbrev Decoder (α : Type) := Draft → Option α

/-- The fields of a record by name. -/
abbrev Fields := String → Option Draft

namespace Decode

/-! ## Simple types -/

/-- A string. -/
def string : Decoder String
  | .str s => some s
  | _ => none

/-- A truth value. -/
def bool : Decoder Bool
  | .bool b => some b
  | _ => none

/-- An integer between two bounds. -/
def intWithin (low high : Int) : Decoder Int
  | .int n => if low ≤ n ∧ n ≤ high then some n else none
  | _ => none

/-- A natural of so many bits. -/
def word (bits : Nat) : Decoder Nat
  | .int n => if 0 ≤ n ∧ n < (1 <<< bits : Nat) then some n.toNat else none
  | _ => none

/-- An integer of 64 bits. -/
def int64 : Decoder Int := intWithin (-0x8000000000000000) 0x7fffffffffffffff

/-- An integer of 32 bits. -/
def int32 : Decoder Int := intWithin (-0x80000000) 0x7fffffff

/-- A double, which may be written as an integer. -/
def double : Decoder Binary64
  | .int n => some (Binary64.ofInt n)
  | .float x => some x
  | _ => none

/-- Any value at all. -/
def any : Decoder Json := Draft.value?

/-- A list of values of one type. -/
def list {α : Type} (item : Decoder α) : Decoder (List α)
  | .arr items => items.mapM item
  | _ => none

/-- A value or nothing. -/
def nullable {α : Type} (value : Decoder α) : Decoder (Option α)
  | .null => some none
  | d => (value d).map some

/-! ## Records -/

/-- Whether no known field is given twice. -/
def distinctFields (names : List String) (members : List (String × Draft)) : Bool :=
  names.all fun name => (members.filter fun m => m.1 = name).length ≤ 1

/-- The fields of a record given as an object. -/
def objectFields? (names : List String) : Draft → Option Fields
  | .obj members =>
    if distinctFields names members then some fun name => members.lookup name else none
  | _ => none

/-- The fields of a record given as an object or as an array. -/
def record? (names : List String) : Draft → Option Fields
  | .arr items =>
    if items.length ≤ names.length then some fun name => (names.zip items).lookup name else none
  | d => objectFields? names d

/-- A field that has to be there. -/
def required {α : Type} (fields : Fields) (name : String) (value : Decoder α) : Option α :=
  (fields name).bind value

/-- A field with a default. -/
def defaulted {α : Type} (fields : Fields) (name : String) (value : Decoder α) (default : α) :
    Option α :=
  match fields name with
  | some d => value d
  | none => some default

/-- A field that may be absent or `null`. -/
def optional {α : Type} (fields : Fields) (name : String) (value : Decoder α) :
    Option (Option α) :=
  defaulted fields name (nullable value) none

/-! ## Enumerations -/

/-- Whether a draft stands for nothing under a plain name. -/
def isNothing : Draft → Bool
  | .null => true
  | _ => false

/-- The laxer reading inside a tagged record, where an empty object stands for nothing as well. -/
def isNothingBuffered : Draft → Bool
  | .null => true
  | .obj [] => true
  | _ => false

/-- The plain name that a draft gives. -/
def plainName? (nothing : Draft → Bool) : Draft → Option String
  | .str s => some s
  | .obj [(name, d)] => if nothing d then some name else none
  | _ => none

end Decode

/-! ## Encoding records -/

/-- A member that is always written. -/
def field (name : String) (value : Json) : List (String × Json) := [(name, value)]

/-- A member that is written only if there is a value. -/
def fieldIfSome (name : String) : Option Json → List (String × Json)
  | some value => [(name, value)]
  | none => []

/-- A list as an array. -/
def list {α : Type} (item : α → Json) (values : List α) : Json := .arr (values.map item)

end Json
end Automation
