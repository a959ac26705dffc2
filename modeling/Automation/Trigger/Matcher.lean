import Automation.Json.Value

/-!
# Matchers

A matcher is a condition on a payload.  Its leaves look at one place of the payload, named by a
path, and combinators join conditions.

A path is a text of object keys with points between them, and the empty path names the payload
itself.  Splitting is literal: `a..b` has an empty key in the middle, and no key can contain a
point.  The text is kept as given, since it is echoed as given; `Path.keys` says what it means.
-/

namespace Automation

/-! ## Paths -/

namespace Path

/-- The pieces of a text between marks.  There is always one more piece than marks. -/
def cut (mark : Char) : List Char → List (List Char)
  | [] => [[]]
  | c :: rest =>
    if c = mark then [] :: cut mark rest
    else
      match cut mark rest with
      | [] => [[c]]
      | piece :: more => (c :: piece) :: more

/-- The pieces of a text between points. -/
def pieces (text : List Char) : List (List Char) := cut '.' text

/-- The keys that a path goes through. -/
def keys (path : String) : List String :=
  if path.isEmpty then [] else (pieces path.toList).map String.ofList

end Path

/-- The part of a value that a list of keys leads to. -/
def Json.follow? : Json → List String → Option Json
  | v, [] => some v
  | v, key :: rest =>
    match v.member? key with
    | some w => w.follow? rest
    | none => none

/-- The part of a value that a path names. -/
def Json.at? (v : Json) (path : String) : Option Json := v.follow? (Path.keys path)

/-! ## Matchers -/

/-- A condition on a payload. -/
inductive Matcher where
  /-- What the path names equals a value. -/
  | equals (path : String) (value : Json)
  /-- The path names something other than `null`. -/
  | present (path : String)
  /-- The path names a number within bounds, both included. -/
  | within (path : String) (min max : Option Binary64)
  /-- All conditions hold. -/
  | all (matchers : List Matcher)
  /-- Some condition holds. -/
  | any (matchers : List Matcher)
  /-- The condition does not hold. -/
  | negation (matcher : Matcher)
  deriving Repr, Inhabited

namespace Matcher

/-- Equality as matchers mean it: two numbers are compared as numbers whatever their representation,
anything else as values. -/
def valuesEqual (actual expected : Json) : Bool :=
  match actual.number?, expected.number? with
  | some x, some y => x.eq y
  | _, _ => actual.same expected

/-- Whether a number lies within bounds, where an absent bound bounds nothing. -/
def withinBounds (min max : Option Binary64) (x : Binary64) : Bool :=
  min.all (fun low => low.le x) && max.all (fun high => x.le high)

mutual

/-- Whether a payload meets a condition. -/
def accepts : Matcher → Json → Bool
  | .equals path value, v => (v.at? path).any fun w => valuesEqual w value
  | .present path, v => (v.at? path).any fun w => !w.isNull
  | .within path min max, v => ((v.at? path).bind Json.number?).any (withinBounds min max)
  | .all ms, v => allAccept ms v
  | .any ms, v => anyAccepts ms v
  | .negation m, v => !m.accepts v

/-- Whether a payload meets all conditions of a list. -/
def allAccept : List Matcher → Json → Bool
  | [], _ => true
  | m :: ms, v => m.accepts v && allAccept ms v

/-- Whether a payload meets some condition of a list. -/
def anyAccepts : List Matcher → Json → Bool
  | [], _ => false
  | m :: ms, v => m.accepts v || anyAccepts ms v

end

end Matcher
end Automation
