import Automation.Dispatch.Config
import Automation.Order

/-!
# The retrying queue

A queue runs operations with bounded parallelism, tries them again when they do not succeed, and
hands their results back in the order in which they were submitted.

## Calls and the ledger

Each submitted operation is a call with a sequence number, and a call is always in one of four
phases: waiting to start, executing, finished and waiting for its turn to return, or asleep before
its next attempt.  The gates do not look at the calls.  They look at a ledger: which numbers wait,
which have started, how many execute, how many results wait.  The ledger is kept by small changes
at each transition, and that it always agrees with the calls is the main thing to be proved about
it.

## Gates

* A call may start when its number is the smallest that waits, fewer calls execute than may, and
  fewer results wait than may.
* A finished call returns when its number is the smallest that has started.

A call that is tried again leaves the started ones while it sleeps, so it does not hold back the
results behind it.

## Transitions

Every transition is a function that gives the queue afterwards, or nothing if the call is not in
the phase or the gate is closed.  Time is not part of it: when an attempt ends and when a sleep is
over is decided by whoever drives the queue.
-/

namespace Automation

/-- Where a call is. -/
inductive CallPhase where
  | waiting
  | executing
  | finished
  | asleep
  deriving DecidableEq, Repr

/-- A live call, the delay of its next plain retry, and how often it has started. -/
structure Call where
  seq : Nat
  phase : CallPhase
  backoff : Span
  starts : Nat
  deriving DecidableEq, Repr

/-- How an attempt ends. -/
inductive AttemptEnd where
  /-- Success, to be returned in the order of submission. -/
  | success
  /-- Success, to be returned at once. -/
  | successUnordered
  /-- No success yet, with a delay of the operation's own or without. -/
  | retry (after : Option Span)
  /-- An error, or a panic while the attempt was set up or ran. -/
  | failure
  deriving DecidableEq, Repr

/-- What the gates look at.  Both lists of numbers are in increasing order. -/
structure Ledger where
  nextSeq : Nat
  waiting : List Nat
  started : List Nat
  executing : Nat
  pendingResults : Nat
  deriving DecidableEq, Repr

/-- A queue: its configuration, the ledger, the live calls in the order of submission, and whether
it has been cancelled.  Nothing depends on how often a call has been tried: a counter of attempts in
32 bits only feeds the log and is left out, and `Call.starts` counts without end. -/
structure Queue where
  config : QueueConfig
  ledger : Ledger
  calls : List Call
  cancelled : Bool
  deriving Repr

/-- What becomes of a call when an attempt ends. -/
inductive AfterAttempt where
  | returned
  | awaitsTurn
  | sleeps (delay : Span)
  deriving DecidableEq, Repr

namespace Ledger

/-- The ledger of a queue without calls. -/
def empty : Ledger := ⟨0, [], [], 0, 0⟩

/-- Adds a number to an increasing list. -/
def add (seq : Nat) (seqs : List Nat) : List Nat :=
  if seqs.contains seq then seqs else insertBy (fun n => (n : Int)) seq seqs

/-- A number is given out and waits. -/
def submit (l : Ledger) : Ledger :=
  { l with nextSeq := l.nextSeq + 1, waiting := add l.nextSeq l.waiting }

/-- Whether the start gate is open for a number. -/
def canStart (c : QueueConfig) (l : Ledger) (seq : Nat) : Bool :=
  l.waiting.head? = some seq && l.executing < c.maxConcurrent && l.pendingResults < c.maxPending

/-- A call starts. -/
def start (l : Ledger) (seq : Nat) : Ledger :=
  { l with
    waiting := l.waiting.erase seq
    started := add seq l.started
    executing := l.executing + 1 }

/-- An attempt ends. -/
def endAttempt (l : Ledger) : Ledger := { l with executing := l.executing - 1 }

/-- A result begins to wait for its turn. -/
def holdResult (l : Ledger) : Ledger := { l with pendingResults := l.pendingResults + 1 }

/-- Whether the return gate is open for a number. -/
def canReturn (l : Ledger) (seq : Nat) : Bool := l.started.head? = some seq

/-- A call that will be tried again is no longer a started one. -/
def suspend (l : Ledger) (seq : Nat) : Ledger := { l with started := l.started.erase seq }

/-- A sleep is over and the call waits again. -/
def requeue (l : Ledger) (seq : Nat) : Ledger := { l with waiting := add seq l.waiting }

/-- A call is over: whatever the ledger holds for it in its phase is released. -/
def release (l : Ledger) (seq : Nat) (phase : CallPhase) : Ledger where
  nextSeq := l.nextSeq
  waiting := l.waiting.erase seq
  started := l.started.erase seq
  executing := if phase = .executing then l.executing - 1 else l.executing
  pendingResults := if phase = .finished then l.pendingResults - 1 else l.pendingResults

end Ledger

namespace Queue

/-- A queue without calls. -/
def empty (config : QueueConfig) : Queue := ⟨config, .empty, [], false⟩

/-- A live call by its number. -/
def call? (q : Queue) (seq : Nat) : Option Call := q.calls.find? fun c => c.seq = seq

/-- A live call by its number, if it is in a phase. -/
def callIn? (q : Queue) (phase : CallPhase) (seq : Nat) : Option Call :=
  (q.call? seq).filter fun c => c.phase = phase

/-- The calls with one of them changed. -/
def withCall (q : Queue) (c : Call) : List Call :=
  q.calls.map fun d => if d.seq = c.seq then c else d

/-- The calls without one of them. -/
def withoutCall (q : Queue) (seq : Nat) : List Call := q.calls.filter fun d => d.seq ≠ seq

/-! ## Transitions -/

/-- Submits an operation. -/
def submit (q : Queue) : Nat × Queue :=
  let seq := q.ledger.nextSeq
  (seq, { q with
    ledger := q.ledger.submit
    calls := q.calls ++ [⟨seq, .waiting, q.config.initialBackoff, 0⟩] })

/-- Starts a waiting call, if the start gate is open for it. -/
def start? (q : Queue) (seq : Nat) : Option Queue :=
  match q.callIn? .waiting seq with
  | some c =>
    if q.ledger.canStart q.config seq then
      some { q with
        ledger := q.ledger.start seq
        calls := q.withCall { c with phase := .executing, starts := c.starts + 1 } }
    else none
  | none => none

/-- Ends a call in whatever phase it is. -/
def discard (q : Queue) (c : Call) : Queue :=
  { q with ledger := q.ledger.release c.seq c.phase, calls := q.withoutCall c.seq }

/-- Puts a call to sleep after an attempt. -/
def sleep (q : Queue) (c : Call) (after : Option Span) : AfterAttempt × Queue :=
  let delay := after.getD c.backoff
  let rested := { c with phase := .asleep, backoff := q.config.nextBackoff c.backoff }
  (.sleeps delay, { q with
    ledger := q.ledger.endAttempt.suspend c.seq
    calls := q.withCall rested })

/-- Ends the attempt of an executing call. -/
def endAttempt? (q : Queue) (seq : Nat) (outcome : AttemptEnd) : Option (AfterAttempt × Queue) :=
  match q.callIn? .executing seq with
  | none => none
  | some c =>
    match outcome with
    | .successUnordered => some (.returned, q.discard c)
    | .success =>
      some (.awaitsTurn, { q with
        ledger := q.ledger.endAttempt.holdResult
        calls := q.withCall { c with phase := .finished } })
    | .retry after => some (q.sleep c after)
    | .failure => some (q.sleep c none)

/-- Returns a finished call, if the return gate is open for it. -/
def return? (q : Queue) (seq : Nat) : Option Queue :=
  match q.callIn? .finished seq with
  | some c => if q.ledger.canReturn seq then some (q.discard c) else none
  | none => none

/-- Wakes a sleeping call. -/
def wake? (q : Queue) (seq : Nat) : Option Queue :=
  match q.callIn? .asleep seq with
  | some c =>
    some { q with
      ledger := q.ledger.requeue seq
      calls := q.withCall { c with phase := .waiting } }
  | none => none

/-- Abandons a call in whatever phase it is. -/
def abandon? (q : Queue) (seq : Nat) : Option Queue := (q.call? seq).map q.discard

/-- Cancels the queue.  Its live calls end one by one, each when it notices. -/
def cancel (q : Queue) : Queue := { q with cancelled := true }

/-- Ends a call of a cancelled queue. -/
def endCancelled? (q : Queue) (seq : Nat) : Option Queue :=
  if q.cancelled then q.abandon? seq else none

end Queue

/-- Why a call did not return a value. -/
inductive QueueError where
  | cancelled (name : String)
  deriving DecidableEq, Repr

/-- What an error says. -/
def QueueError.message : QueueError → String
  | .cancelled name => s!"operation '{name}' cancelled"

end Automation
