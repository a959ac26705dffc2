import Automation.Limit.Constraint
import Automation.Store.Basic

/-!
# The limiter

A limiter answers at once whether an action may happen, and remembers that it did.  It works on a
cache of constraints with their histories and leaves the writing for later, so an answer never
waits for the store.

## Cache and queue

A constraint enters the cache when a checker is asked for that names it, with the history the
store has then.  From then on the cache is what counts: checks look at it and increments change
it, while every increment also leaves a batch of occurrences in a queue.  `drain` writes the first
batch of the queue to the store and `flush` all of it, in order.  A batch that cannot be written
is lost to the store and not to the cache.

A new list of constraints is reconciled against the stored one.  The cache is changed first, the
difference is put behind whatever the queue still holds, and the queue is written up to it; only
then is there an answer.  So no batch for a deleted constraint is left behind its deletion.

## The rolling window

The history in the cache is in ascending order.  A constraint of count `n` is used up when the
`n`-th occurrence from the end is still within the range, which is one look-up and no counting.
An occurrence that lies ahead of the clock has age zero, so it is always within the range.
-/

namespace Automation

/-- Why a limit operation failed. -/
inductive LimitError where
  | notFound (id : String)
  | storage (e : StorageError)
  deriving DecidableEq, Repr

/-- What an error says. -/
def LimitError.message : LimitError → String
  | .notFound id => s!"frequency constraint not found: {id}"
  | .storage e => s!"storage: {e.message}"

/-! ## One constraint in the cache -/

/-- A cached constraint with its history, oldest first. -/
structure CacheEntry where
  constraint : Constraint
  times : List Instant
  deriving DecidableEq, Repr

namespace CacheEntry

/-- Whether an occurrence counts at a time. -/
def isWithinRange (e : CacheEntry) (now time : Instant) : Bool :=
  decide (now.elapsed time ≤ e.constraint.range.nanos)

/-- Whether the constraint allows nothing more at a time. -/
def isOver (e : CacheEntry) (now : Instant) : Bool :=
  let count := e.constraint.count
  if count = 0 then true
  else if e.times.length < count then false
  else e.times[e.times.length - count]?.any fun time => e.isWithinRange now time

/-- The entry after an occurrence, without what no longer counts. -/
def record (e : CacheEntry) (now : Instant) : CacheEntry :=
  let kept := e.times.filter fun time => e.isWithinRange now time
  let isPast := fun (time : Instant) => decide (time ≤ now)
  { e with times := kept.takeWhile isPast ++ now :: kept.dropWhile isPast }

end CacheEntry

/-! ## Writes that wait -/

/-- A write in the queue. -/
inductive PendingWrite where
  | occurrences (batch : List Occurrence)
  | replacement (delete reset : List String) (upsert : List Constraint)
  deriving DecidableEq, Repr

namespace PendingWrite

/-- Defines constraints one after another up to the first that cannot be written. -/
def upsertAll : List Constraint → Store → Store.Result Unit
  | [], s => (.ok (), s)
  | c :: rest, s =>
    match s.writeConstraint c with
    | (.error e, s) => (.error e, s)
    | (.ok (), s) => upsertAll rest s

/-- Carries out a write.  A replacement deletes, then clears, then defines, and stops at the first
failure. -/
def perform : PendingWrite → Store → Store.Result Unit
  | .occurrences batch, s => s.addOccurrences batch
  | .replacement delete reset upsert, s =>
    match s.deleteConstraints delete with
    | (.error e, s) => (.error e, s)
    | (.ok (), s) =>
      match s.deleteOccurrences reset with
      | (.error e, s) => (.error e, s)
      | (.ok (), s) => upsertAll upsert s

/-- Carries out a queue in order, whatever fails, and gives the answer of its last write. -/
def performAll : List PendingWrite → Store → Store.Result Unit
  | [], s => (.ok (), s)
  | [w], s => w.perform s
  | w :: rest, s => performAll rest (w.perform s).2

end PendingWrite

/-! ## The limiter -/

/-- The cache, and the writes that wait. -/
structure Limiter where
  cache : Table String CacheEntry
  pending : List PendingWrite

namespace Limiter

/-- A limiter that has cached nothing. -/
def empty : Limiter := ⟨.empty, []⟩

instance : Inhabited Limiter := ⟨empty⟩

/-- Whether some cached constraint of a list allows nothing more.  Ids that are not cached do not
limit. -/
def isOver (l : Limiter) (ids : List String) (now : Instant) : Bool :=
  ids.any fun id => (l.cache.get? id).any fun e => e.isOver now

/-- Records an occurrence for one id, if it is cached. -/
def recordOne (now : Instant) (acc : Table String CacheEntry × List Occurrence) (id : String) :
    Table String CacheEntry × List Occurrence :=
  match acc.1.get? id with
  | some e => (acc.1.insert id (e.record now), acc.2 ++ [⟨id, now⟩])
  | none => acc

/-- Puts a batch in the queue.  There is nothing to write in an empty one. -/
def enqueue (l : Limiter) (batch : List Occurrence) : Limiter :=
  if batch.isEmpty then l else { l with pending := l.pending ++ [.occurrences batch] }

/-- Records an occurrence for every cached id of a list, once per appearance, unless one of them
allows nothing more.  The answer says whether it was recorded. -/
def checkAndIncrement (l : Limiter) (ids : List String) (now : Instant) : Bool × Limiter :=
  if l.isOver ids now then (false, l)
  else
    let (cache, batch) := ids.foldl (recordOne now) (l.cache, [])
    (true, { l with cache := cache }.enqueue batch)

/-! ## Loading -/

/-- Reads a constraint and its history. -/
def load (id : String) (s : Store) : Except LimitError CacheEntry × Store :=
  match s.readConstraint id with
  | (.error e, s) => (.error (.storage e), s)
  | (.ok none, s) => (.error (.notFound id), s)
  | (.ok (some c), s) =>
    match s.readOccurrences id with
    | (.error e, s) => (.error (.storage e), s)
    | (.ok os, s) => (.ok ⟨c, sortBy Instant.rank (os.map (·.time))⟩, s)

/-- Reads constraints in order up to the first that fails. -/
def loadAll : List String → Store → Except LimitError (List CacheEntry) × Store
  | [], s => (.ok [], s)
  | id :: rest, s =>
    match load id s with
    | (.error e, s) => (.error e, s)
    | (.ok entry, s) =>
      match loadAll rest s with
      | (.error e, s) => (.error e, s)
      | (.ok entries, s) => (.ok (entry :: entries), s)

/-- Adds an entry unless there is one already. -/
def addEntry (cache : Table String CacheEntry) (e : CacheEntry) : Table String CacheEntry :=
  if cache.contains e.constraint.id then cache else cache.insert e.constraint.id e

/-- Makes sure that every id of a list is cached.  If one cannot be loaded, nothing is cached. -/
def prepare (l : Limiter) (s : Store) (ids : List String) :
    Except LimitError Unit × Limiter × Store :=
  match loadAll (ids.filter fun id => !l.cache.contains id) s with
  | (.error e, s) => (.error e, l, s)
  | (.ok entries, s) => (.ok (), { l with cache := entries.foldl addEntry l.cache }, s)

/-! ## Reconciling -/

/-- What has to change for the stored constraints to become those of a list. -/
structure Difference where
  delete : List String
  reset : List String
  upsert : List Constraint
  deriving DecidableEq, Repr

/-- Adds what one incoming constraint changes. -/
def Difference.consider (stored : List Constraint) (d : Difference) (c : Constraint) : Difference :=
  match stored.find? fun current => current.id = c.id with
  | some current =>
    if current.range ≠ c.range then
      { d with reset := d.reset ++ [c.id], upsert := d.upsert ++ [c] }
    else if current.count = c.count then d
    else { d with upsert := d.upsert ++ [c] }
  | none => { d with upsert := d.upsert ++ [c] }

/-- The difference between the stored constraints and a list.  Stored ones that the list does not
name go, a changed range costs the history, and what is the same is left alone. -/
def Difference.between (stored incoming : List Constraint) : Difference :=
  let gone := (stored.map (·.id)).filter fun id => !(incoming.map (·.id)).contains id
  incoming.foldl (Difference.consider stored) ⟨gone, [], []⟩

/-- Redefines a cached constraint and keeps its history. -/
def redefine (cache : Table String CacheEntry) (c : Constraint) : Table String CacheEntry :=
  cache.modify c.id fun e => { e with constraint := c }

/-- The cache after a difference. -/
def Difference.applyToCache (d : Difference) (cache : Table String CacheEntry) :
    Table String CacheEntry :=
  let kept := d.delete.foldl Table.erase cache
  let redefined := d.upsert.foldl redefine kept
  d.reset.foldl (fun c id => c.modify id fun e => { e with times := [] }) redefined

/-- Makes a list the authoritative one.  If the stored constraints cannot be read nothing changes;
otherwise the cache follows the list at once and the store as far as it can be written. -/
def setConstraints (l : Limiter) (s : Store) (incoming : List Constraint) :
    Except LimitError Unit × Limiter × Store :=
  match s.readConstraints with
  | (.error e, s) => (.error (.storage e), l, s)
  | (.ok stored, s) =>
    let d := Difference.between stored incoming
    let queue := l.pending ++ [.replacement d.delete d.reset d.upsert]
    let (answer, s) := PendingWrite.performAll queue s
    (answer.mapError .storage, ⟨d.applyToCache l.cache, []⟩, s)

/-! ## Writing -/

/-- Carries out the write that has waited longest.  A writer that works while the limiter answers
does this between any two calls. -/
def drain (l : Limiter) (s : Store) : Limiter × Store :=
  match l.pending with
  | [] => (l, s)
  | w :: rest => ({ l with pending := rest }, (w.perform s).2)

/-- Writes what waits. -/
def flush (l : Limiter) (s : Store) : Limiter × Store :=
  ({ l with pending := [] }, (PendingWrite.performAll l.pending s).2)

/-- What waits is written the same, however much of it a writer has carried out before. -/
theorem flush_drain (l : Limiter) (s : Store) :
    (l.drain s).1.flush (l.drain s).2 = l.flush s := by
  obtain ⟨cache, pending⟩ := l
  match pending with
  | [] => rfl
  | [w] => rfl
  | w :: v :: rest => rfl

end Limiter
end Automation
