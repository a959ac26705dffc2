import Automation.Json.Decode
import Automation.Time.Rfc3339
import Automation.Time.Span

/-!
# The written form of simple types

Each type of the data model has one written form, and reading accepts it and its admitted variants.
An encoder and the decoder beside it agree: what the encoder writes, the decoder reads as the same
value.
-/

namespace Automation

open Json

/-- An instant as text. -/
def Instant.json (t : Instant) : Json := .str t.text

/-- Reads an instant. -/
def Instant.decode? : Decoder Instant := fun d => (Decode.string d).bind Instant.ofText?

/-- A span as its whole seconds and what is left of a second. -/
def Span.json (s : Span) : Json :=
  .obj (field "secs" (.int s.seconds) ++ field "nanos" (.int s.subsecond))

/-- Whether an object has no member beside the named ones. -/
def hasOnly (names : List String) : Draft → Bool
  | .obj members => members.all fun m => names.contains m.1
  | _ => true

/-- Reads a span.  It has exactly two fields, and more nanoseconds than a second holds are
carried. -/
def Span.decode? : Decoder Span := fun d => do
  let names := ["secs", "nanos"]
  if hasOnly names d then
    let fields ← Decode.record? names d
    let seconds ← Decode.required fields "secs" (Decode.word 64)
    let nanos ← Decode.required fields "nanos" (Decode.word 32)
    Span.ofParts? seconds nanos
  else none

end Automation
