import Automation.Dispatch.Queue

/-!
# The queue on a time line

A queue knows transitions and no time.  Here it is driven by a script: operations with the moments
at which they are submitted and perhaps abandoned, how long each of their attempts takes and how
it ends, and perhaps a moment of cancellation.  Time is virtual and counted in milliseconds, so a
run is a function of its script.

## Turns

One operation is at work at a time, and it stays at work until it has to wait: for the end of an
attempt or of a sleep, or for a gate.  What takes no time is therefore done in the same turn.  An
attempt of no length ends before anything else happens, and an operation whose delay is none looks
at its gate again before any other does: it may start once more ahead of calls that have waited
longer, and a result behind it stays where it is.

A change of the queue may open a gate, so after each one the operations that wait at a gate line up
for another turn, behind whoever is in line already.  A turn in which nothing can be done ends at
once.

## Moments

What is going to happen stands in an agenda in the order of time.  When nobody is in line the clock
moves to the next moment, and everybody who has an entry for it lines up before the first turn is
taken.  In one moment the cancellation comes first, then whoever has waited for a moment, in the
order in which they began to wait, then submissions as given.

An operation that is due to be abandoned is so at the end of a turn.  One that returns in this turn
has returned, and one whose abandonment is due when it is submitted gets one turn.

A run is watched up to a moment and not at it: what ends at the last moment has not ended.  A script
may keep a run busy forever without time passing, so a run is given a number of steps after which it
stops.
-/

namespace Automation

/-- One attempt of an operation: how long it takes and how it ends, if it ever does. -/
structure Attempt where
  duration : Nat
  outcome : Option AttemptEnd
  deriving DecidableEq, Repr, Inhabited

/-- An operation of a script.  When its attempts run out the last one is repeated. -/
structure Job where
  name : String
  submitAt : Nat
  abandonAt : Option Nat
  attempts : List Attempt
  deriving DecidableEq, Repr, Inhabited

/-- What became of an operation. -/
inductive Fate where
  | unfinished
  | returned (time : Nat) (value : Nat)
  | cancelled (time : Nat)
  | abandoned (time : Nat)
  deriving DecidableEq, Repr, Inhabited

/-- What an operation waits for that comes with time. -/
inductive Deed where
  | endAttempt (outcome : AttemptEnd)
  | wake
  deriving DecidableEq, Repr

/-- A deed and its moment. -/
structure Due where
  time : Nat
  deed : Deed
  deriving DecidableEq, Repr

/-- What is known of an operation: its number once it is submitted, when its attempts started, what
it waits for if that comes with time, and what became of it. -/
structure Track where
  seq : Option Nat
  starts : List Nat
  due : Option Due
  fate : Fate
  deriving DecidableEq, Repr, Inhabited

/-- What can stand in the agenda.  Operations are given by their place in the script. -/
inductive AgendaAction where
  | cancel
  | turn (job : Nat)
  | submit (job : Nat)
  deriving DecidableEq, Repr

/-- Which of two actions at one moment comes first. -/
def AgendaAction.rank : AgendaAction → Nat
  | .cancel => 0
  | .turn _ => 1
  | .submit _ => 2

/-- An entry of the agenda. -/
structure AgendaEntry where
  time : Nat
  action : AgendaAction
  deriving DecidableEq, Repr

/-- Where an entry stands in the agenda. -/
def AgendaEntry.order (e : AgendaEntry) : Nat := e.time * 3 + e.action.rank

/-- A run in progress. -/
structure Timeline where
  now : Nat
  queue : Queue
  jobs : List Job
  tracks : List Track
  agenda : List AgendaEntry
  /-- The operations in line for a turn, the one at work first. -/
  line : List Nat
  /-- The operations that have returned a value, last one first. -/
  returned : List Nat

namespace Timeline

/-! ## Lining up -/

/-- Puts an operation at the end of the line, unless it is in it. -/
def lineUp (t : Timeline) (job : Nat) : Timeline :=
  if t.line.contains job then t else { t with line := t.line ++ [job] }

/-- The place of the operation with a number. -/
def jobOf? (t : Timeline) (seq : Nat) : Option Nat :=
  t.tracks.findIdx? fun k => k.seq = some seq

/-- The operations that wait at a gate. -/
def atGates (t : Timeline) : List Nat :=
  t.queue.calls.filterMap fun c =>
    if c.phase = .waiting ∨ c.phase = .finished then t.jobOf? c.seq else none

/-- Changes the queue, and lets everybody at a gate look again. -/
def withQueue (t : Timeline) (q : Queue) : Timeline :=
  let t := { t with queue := q }
  t.atGates.foldl lineUp t

/-! ## The agenda -/

/-- Puts an entry behind all that come no later. -/
def addEntry (e : AgendaEntry) : List AgendaEntry → List AgendaEntry
  | [] => [e]
  | f :: rest => if e.order < f.order then e :: f :: rest else f :: addEntry e rest

/-- Changes what is known of an operation. -/
def updateTrack (t : Timeline) (job : Nat) (f : Track → Track) : Timeline :=
  { t with tracks := t.tracks.modify job f }

/-- Gives an operation a turn at a moment to come. -/
def planTurn (t : Timeline) (job time : Nat) : Timeline :=
  if t.now < time then { t with agenda := addEntry ⟨time, .turn job⟩ t.agenda } else t

/-- Lets an operation wait for a deed.  Without a delay the deed is due in the same turn. -/
def plan (t : Timeline) (job delay : Nat) (deed : Deed) : Timeline :=
  let waiting := t.updateTrack job fun k => { k with due := some ⟨t.now + delay, deed⟩ }
  waiting.planTurn job (t.now + delay)

/-! ## Moves -/

/-- The attempt that is made when an operation starts for the `n`-th time, counted from 0. -/
def attempt? (t : Timeline) (job n : Nat) : Option Attempt :=
  t.jobs[job]?.bind fun j => j.attempts[n]?.or j.attempts.getLast?

/-- Records that an operation has returned the number of its last attempt. -/
def recordReturn (t : Timeline) (job : Nat) : Timeline :=
  let t := t.updateTrack job fun k => { k with fate := .returned t.now k.starts.length }
  { t with returned := job :: t.returned }

/-- Starts the next attempt of a call, if the start gate is open for it. -/
def startCall? (t : Timeline) (job seq : Nat) : Option Timeline :=
  (t.queue.start? seq).map fun queue =>
    let made := (t.tracks[job]?.map fun k => k.starts.length).getD 0
    let t := (t.withQueue queue).updateTrack job fun k => { k with starts := k.starts ++ [t.now] }
    match t.attempt? job made with
    | some ⟨duration, some outcome⟩ => t.plan job duration (.endAttempt outcome)
    | _ => t

/-- Returns a finished call, if the return gate is open for it. -/
def returnCall? (t : Timeline) (job seq : Nat) : Option Timeline :=
  (t.queue.return? seq).map fun queue => (t.withQueue queue).recordReturn job

/-- Milliseconds of a delay, a part of one counted as a whole. -/
def delayMillis (s : Span) : Nat := (s.nanos + 999999) / 1000000

/-- Ends the attempt of a call, if the call is still there. -/
def endAttempt (t : Timeline) (job seq : Nat) (outcome : AttemptEnd) : Timeline :=
  match t.queue.endAttempt? seq outcome with
  | none => t
  | some (.returned, queue) => (t.withQueue queue).recordReturn job
  | some (.awaitsTurn, queue) => t.withQueue queue
  | some (.sleeps delay, queue) => (t.withQueue queue).plan job (delayMillis delay) .wake

/-- Wakes a call, if it is still there. -/
def wakeCall (t : Timeline) (seq : Nat) : Timeline :=
  match t.queue.wake? seq with
  | some queue => t.withQueue queue
  | none => t

/-- Does what an operation has waited for. -/
def perform (t : Timeline) (job seq : Nat) (deed : Deed) : Timeline :=
  let t := t.updateTrack job fun k => { k with due := none }
  match deed with
  | .endAttempt outcome => t.endAttempt job seq outcome
  | .wake => t.wakeCall seq

/-- Ends an operation that has noticed the cancellation. -/
def endCancelled (t : Timeline) (seq : Nat) : Timeline :=
  match t.queue.endCancelled? seq, t.jobOf? seq with
  | some queue, some job =>
    (t.withQueue queue).updateTrack job fun k => { k with fate := .cancelled t.now }
  | _, _ => t

/-- Submits an operation.  One that is submitted to a cancelled queue ends at once. -/
def submitJob (t : Timeline) (job : Nat) : Timeline :=
  let (seq, queue) := t.queue.submit
  let t := (t.withQueue queue).updateTrack job fun k => { k with seq := some seq }
  if queue.cancelled then t.endCancelled seq
  else
    match t.jobs[job]?.bind (·.abandonAt) with
    | some time => t.planTurn job time
    | none => t

/-- What an operation does next without waiting, if there is anything. -/
def move? (t : Timeline) (job : Nat) : Option Timeline :=
  match t.tracks[job]? with
  | none => none
  | some ⟨none, _, _, _⟩ => some (t.submitJob job)
  | some ⟨some seq, _, some due, _⟩ =>
    if due.time ≤ t.now then some (t.perform job seq due.deed) else none
  | some ⟨some seq, _, none, _⟩ => (t.startCall? job seq).or (t.returnCall? job seq)

/-- The end of a turn, at which an operation is abandoned if that is due. -/
def endTurn (t : Timeline) (job : Nat) : Timeline :=
  let isDue := (t.jobs[job]?.bind (·.abandonAt)).any fun time => time ≤ t.now
  match (t.tracks[job]?.bind (·.seq)).bind t.queue.abandon? with
  | some queue =>
    if isDue then
      (t.withQueue queue).updateTrack job fun k => { k with fate := .abandoned t.now }
    else t
  | none => t

/-! ## Moments -/

/-- Cancels the queue, which all live calls notice at once. -/
def cancelQueue (t : Timeline) : Timeline :=
  let t := { t with queue := t.queue.cancel }
  (t.queue.calls.map (·.seq)).foldl endCancelled t

/-- Begins an entry of the agenda. -/
def begin (t : Timeline) (e : AgendaEntry) : Timeline :=
  match e.action with
  | .cancel => t.cancelQueue
  | .turn job | .submit job => t.lineUp job

/-- Moves the clock to the next moment before `stop`.  A cancellation is carried out at `stop` as
well, where no call notices it any more. -/
def advance? (stop : Nat) (t : Timeline) : Option Timeline :=
  match t.agenda with
  | [] => none
  | e :: rest =>
    if e.time < stop then
      let moment := t.agenda.takeWhile fun f => f.time = e.time
      let later := t.agenda.dropWhile fun f => f.time = e.time
      some (moment.foldl begin { t with now := e.time, agenda := later })
    else if e.time = stop ∧ e.action = .cancel then
      some { t with queue := t.queue.cancel, agenda := rest }
    else none

/-! ## Runs -/

/-- One step of a run up to a moment, if there is anything left to do. -/
def step? (stop : Nat) (t : Timeline) : Option Timeline :=
  match t.line with
  | [] => t.advance? stop
  | job :: rest =>
    match t.move? job with
    | some moved => some moved
    | none => some ({ t with line := rest }.endTurn job)

/-- Goes on up to a moment, for at most so many steps. -/
def runUntil (stop : Nat) : Nat → Timeline → Timeline
  | 0, t => t
  | n + 1, t =>
    match t.step? stop with
    | some next => runUntil stop n next
    | none => t

/-- The agenda that a script begins with. -/
def scripted (jobs : List Job) (cancelAt : Option Nat) : List AgendaEntry :=
  let cancel := cancelAt.toList.map fun time => (⟨time, .cancel⟩ : AgendaEntry)
  let submissions := jobs.mapIdx fun i j => (⟨j.submitAt, .submit i⟩ : AgendaEntry)
  (cancel ++ submissions).foldl (fun agenda e => addEntry e agenda) []

/-- A run before anything has happened. -/
def start (config : QueueConfig) (jobs : List Job) (cancelAt : Option Nat) : Timeline where
  now := 0
  queue := .empty config
  jobs := jobs
  tracks := jobs.map fun _ => ⟨none, [], none, .unfinished⟩
  agenda := scripted jobs cancelAt
  line := []
  returned := []

/-- The moment at which a run stops being watched: the horizon, but not before the last submission
or cancellation. -/
def lastMoment (jobs : List Job) (cancelAt : Option Nat) (horizon : Nat) : Nat :=
  (jobs.map (·.submitAt) ++ cancelAt.toList).foldl max horizon

/-- The run of a script up to a horizon, with at most `limit` steps. -/
def run (limit : Nat) (config : QueueConfig) (jobs : List Job) (cancelAt : Option Nat)
    (horizon : Nat) : Timeline :=
  runUntil (lastMoment jobs cancelAt horizon) limit (start config jobs cancelAt)

end Timeline
end Automation
