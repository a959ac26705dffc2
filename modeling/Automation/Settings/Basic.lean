import Automation.Dispatch.Config

/-!
# Settings

What a run of the program can be told beforehand: where the store is, how operations are retried,
and whether trigger processing starts paused.  Every part has a default.

The limits of retrying are checked when a queue is made from them and not when they are read, so
that settings can be shown, and stored, that no queue would accept.
-/

namespace Automation

/-- How operations are retried, as it is configured.  Delays are in seconds. -/
structure RetrySettings where
  maxConcurrent : Nat
  maxPending : Nat
  initialSeconds : Nat
  maxSeconds : Nat
  deriving DecidableEq, Repr

/-- The settings of a run. -/
structure Settings where
  storePath : Option String
  retry : RetrySettings
  paused : Bool
  deriving DecidableEq, Repr

/-- Why settings cannot be used. -/
inductive SettingsError where
  | limitZero
  | maxBelowInitial (max initial : Nat)
  deriving DecidableEq, Repr

/-- What an error says. -/
def SettingsError.message : SettingsError → String
  | .limitZero => "retry limits must be at least 1"
  | .maxBelowInitial max initial =>
    s!"max_backoff_secs ({max}) below initial_backoff_secs ({initial})"

open Json

namespace RetrySettings

/-- Retrying where nothing is configured. -/
def standard : RetrySettings := ⟨3, 2, 15, 60⟩

/-- The configuration of a queue.  Both limits have to leave room for one, and the ceiling of the
delay must not be below the first delay. -/
def queueConfig (r : RetrySettings) : Except SettingsError QueueConfig :=
  if r.maxConcurrent = 0 ∨ r.maxPending = 0 then .error .limitZero
  else if r.maxSeconds < r.initialSeconds then
    .error (.maxBelowInitial r.maxSeconds r.initialSeconds)
  else
    .ok ⟨r.maxConcurrent, r.maxPending, Span.ofSeconds r.initialSeconds,
      Span.ofSeconds r.maxSeconds⟩

/-- Settings that are accepted leave room for one attempt and for one result. -/
theorem limits_pos {r : RetrySettings} {config : QueueConfig} (h : r.queueConfig = .ok config) :
    0 < config.maxConcurrent ∧ 0 < config.maxPending := by
  unfold queueConfig at h
  split at h
  · cases h
  · next hroom =>
    split at h
    · cases h
    · cases h
      dsimp only
      omega

/-- The names of the fields, in order. -/
def fieldNames : List String :=
  ["max_concurrent_operations", "max_pending_results", "initial_backoff_secs", "max_backoff_secs"]

/-- Retry settings as a value. -/
def json (r : RetrySettings) : Json :=
  .obj (field "max_concurrent_operations" (.int r.maxConcurrent) ++
    field "max_pending_results" (.int r.maxPending) ++
    field "initial_backoff_secs" (.int r.initialSeconds) ++
    field "max_backoff_secs" (.int r.maxSeconds))

/-- Reads retry settings. -/
def decode? : Decoder RetrySettings := fun d => do
  let fields ← Decode.record? fieldNames d
  let word := Decode.word 64
  let maxConcurrent ← Decode.defaulted fields "max_concurrent_operations" word 3
  let maxPending ← Decode.defaulted fields "max_pending_results" word 2
  let initialSeconds ← Decode.defaulted fields "initial_backoff_secs" word 15
  let maxSeconds ← Decode.defaulted fields "max_backoff_secs" word 60
  some ⟨maxConcurrent, maxPending, initialSeconds, maxSeconds⟩

end RetrySettings

namespace Settings

/-- Settings where nothing is configured. -/
def standard : Settings := ⟨none, .standard, false⟩

instance : Inhabited Settings := ⟨standard⟩

/-- Settings as a value. -/
def json (s : Settings) : Json :=
  .obj (field "storage" (.obj (field "path" ((s.storePath.map Json.str).getD .null))) ++
    field "retry" s.retry.json ++ field "triggers" (.obj (field "paused" (.bool s.paused))))

/-- Reads where the store is. -/
def decodeStorePath? : Decoder (Option String) := fun d => do
  let fields ← Decode.record? ["path"] d
  Decode.optional fields "path" Decode.string

/-- Reads whether processing starts paused. -/
def decodePaused? : Decoder Bool := fun d => do
  let fields ← Decode.record? ["paused"] d
  Decode.defaulted fields "paused" Decode.bool false

/-- Reads settings. -/
def decode? : Decoder Settings := fun d => do
  let fields ← Decode.record? ["storage", "retry", "triggers"] d
  let storePath ← Decode.defaulted fields "storage" decodeStorePath? none
  let retry ← Decode.defaulted fields "retry" RetrySettings.decode? .standard
  let paused ← Decode.defaulted fields "triggers" decodePaused? false
  some ⟨storePath, retry, paused⟩

end Settings
end Automation
