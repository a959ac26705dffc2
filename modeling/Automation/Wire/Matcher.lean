import Automation.Trigger.Matcher
import Automation.Wire.Basic

/-!
# The written form of matchers

A matcher is an object with one member: the name of the condition and what the condition consists
of.  A leaf consists of a record.  In a text that record may be an array like every other one; in a
value that is already at hand it has to be an object, so the admitted forms are a parameter.
-/

namespace Automation

open Json

/-- Which forms the record of a leaf may have. -/
inductive LeafForm where
  | objectOrArray
  | objectOnly
  deriving DecidableEq, Repr

namespace Matcher

/-- A bound, or `null` where there is none. -/
def boundJson : Option Binary64 → Json
  | some x => .float x
  | none => .null

mutual

/-- A matcher as a value. -/
def json : Matcher → Json
  | .equals path value =>
    .obj (field "equals" (.obj (field "path" (.str path) ++ field "value" value)))
  | .present path => .obj (field "exists" (.obj (field "path" (.str path))))
  | .within path min max =>
    .obj (field "range" (.obj (field "path" (.str path) ++ field "min" (boundJson min) ++
      field "max" (boundJson max))))
  | .all ms => .obj (field "and" (.arr (jsonItems ms)))
  | .any ms => .obj (field "or" (.arr (jsonItems ms)))
  | .negation m => .obj (field "not" m.json)

/-- A list of matchers as items. -/
def jsonItems : List Matcher → List Json
  | [] => []
  | m :: ms => m.json :: jsonItems ms

end

/-- The fields of a leaf. -/
def leafFields? (form : LeafForm) (names : List String) (d : Draft) : Option Fields :=
  match form with
  | .objectOrArray => Decode.record? names d
  | .objectOnly => Decode.objectFields? names d

/-- Reads a condition that looks at one place of the payload. -/
def decodeLeaf? (form : LeafForm) (name : String) (d : Draft) : Option Matcher :=
  match name with
  | "equals" => do
    let fields ← leafFields? form ["path", "value"] d
    let path ← Decode.defaulted fields "path" Decode.string ""
    let value ← Decode.required fields "value" Decode.any
    some (.equals path value)
  | "exists" => do
    let fields ← leafFields? form ["path"] d
    let path ← Decode.defaulted fields "path" Decode.string ""
    some (.present path)
  | "range" => do
    let fields ← leafFields? form ["path", "min", "max"] d
    let path ← Decode.defaulted fields "path" Decode.string ""
    let min ← Decode.optional fields "min" Decode.double
    let max ← Decode.optional fields "max" Decode.double
    some (.within path min max)
  | _ => none

mutual

/-- Reads a matcher. -/
def decode? (form : LeafForm) : Draft → Option Matcher
  | .obj [("and", .arr items)] => (decodeItems? form items).map .all
  | .obj [("or", .arr items)] => (decodeItems? form items).map .any
  | .obj [("not", inner)] => (decode? form inner).map .negation
  | .obj [(name, content)] => decodeLeaf? form name content
  | _ => none

/-- Reads a list of matchers. -/
def decodeItems? (form : LeafForm) : List Draft → Option (List Matcher)
  | [] => some []
  | d :: rest =>
    match decode? form d, decodeItems? form rest with
    | some m, some ms => some (m :: ms)
    | _, _ => none

end

end Matcher
end Automation
