import Automation.Wire.Basic

/-!
# Limits and delays of the queue

How much may run at once, how much may wait finished, and how long to wait between attempts.  A
delay doubles from attempt to attempt and stays between the first delay and the ceiling; where the
two contradict each other the first delay wins.
-/

namespace Automation

/-- The configuration of a queue. -/
structure QueueConfig where
  /-- Operations that may execute at once. -/
  maxConcurrent : Nat
  /-- Finished operations that may wait for their turn to return. -/
  maxPending : Nat
  initialBackoff : Span
  maxBackoff : Span
  deriving DecidableEq, Repr, Inhabited

namespace QueueConfig

/-- The configuration where none is given. -/
def standard : QueueConfig := ⟨3, 2, Span.ofSeconds 15, Span.ofSeconds 60⟩

/-- The delay that follows a delay. -/
def nextBackoff (c : QueueConfig) (current : Span) : Span :=
  Span.max (Span.min current.double c.maxBackoff) c.initialBackoff

/-- The names of the fields, in order. -/
def fieldNames : List String :=
  ["max_concurrent_operations", "max_pending_results", "initial_backoff", "max_backoff"]

open Json in
/-- A configuration as a value. -/
def json (c : QueueConfig) : Json :=
  .obj (field "max_concurrent_operations" (.int c.maxConcurrent) ++
    field "max_pending_results" (.int c.maxPending) ++
    field "initial_backoff" c.initialBackoff.json ++ field "max_backoff" c.maxBackoff.json)

open Json in
/-- Reads a configuration. -/
def decode? : Decoder QueueConfig := fun d => do
  let fields ← Decode.record? fieldNames d
  let maxConcurrent ← Decode.required fields "max_concurrent_operations" (Decode.word 64)
  let maxPending ← Decode.required fields "max_pending_results" (Decode.word 64)
  let initialBackoff ← Decode.required fields "initial_backoff" Span.decode?
  let maxBackoff ← Decode.required fields "max_backoff" Span.decode?
  some ⟨maxConcurrent, maxPending, initialBackoff, maxBackoff⟩

end QueueConfig
end Automation
