import Automation.Proofs.Limit.Renewal

/-!
# Ranges between milliseconds

A row holds the range of a definition in whole milliseconds, rounded down, and the cache holds it as
it was given.  So the two may differ, but not in anything that a clock of whole milliseconds can
show: an age is then a whole number of milliseconds, and such a number is within a range just if it
is within the range rounded down.

`Constraint.asStored` is a definition as its row has it, and `Limiter.asStored` a limiter with all
its definitions so.  Whatever is asked of a limiter, asking the other gives the same answer and
leaves the one as the other (`isOver_asStored`, `asStored_checkAndIncrement`, `prepare_asStored`).
So where cache and tables are compared, definitions may be taken as kept exactly.
-/

namespace Automation

/-- The times of a constraint are whole numbers of milliseconds. -/
theorem Tables.isWhole_of_mem_timesOf {t : Tables} {id : String} {time : Instant}
    (h : time ∈ t.timesOf id) : time.IsWhole := by
  obtain ⟨row, -, hrow⟩ := List.mem_filterMap.mp h
  exact ⟨row.millis, hrow⟩

/-- Between whole milliseconds there is a whole number of milliseconds, so a range may be rounded
down. -/
theorem Instant.IsWhole.elapsed_le_iff {now time : Instant} (hnow : now.IsWhole)
    (htime : time.IsWhole) (range : Span) :
    now.elapsed time ≤ (Span.ofMillis range.toMillis).nanos ↔ now.elapsed time ≤ range.nanos := by
  have hage := elapsed_eq hnow.isPlain htime.isPlain
  obtain ⟨a, ha⟩ := hnow
  obtain ⟨b, hb⟩ := htime
  rw [position_of_ofMillis? ha, position_of_ofMillis? hb] at hage
  show _ ≤ range.nanos / 1000000 * 1000000 ↔ _
  rw [hage]
  omega

namespace CacheEntry

/-- An entry with its definition as it is stored. -/
def asStored (e : CacheEntry) : CacheEntry := { e with constraint := e.constraint.asStored }

/-- A history of whole milliseconds. -/
def IsWhole (e : CacheEntry) : Prop := ∀ time ∈ e.times, time.IsWhole

@[simp] theorem asStored_times (e : CacheEntry) : e.asStored.times = e.times := rfl

@[simp] theorem asStored_constraint (e : CacheEntry) :
    e.asStored.constraint = e.constraint.asStored := rfl

variable {e : CacheEntry} {now : Instant}

theorem isWithinRange_asStored (hnow : now.IsWhole) {time : Instant} (htime : time.IsWhole) :
    e.asStored.isWithinRange now time = e.isWithinRange now time := by
  rw [Bool.eq_iff_iff, isWithinRange_iff, isWithinRange_iff]
  exact hnow.elapsed_le_iff htime e.constraint.range

theorem isOver_asStored (he : e.IsWhole) (hnow : now.IsWhole) :
    e.asStored.isOver now = e.isOver now := by
  have hlook : ∀ n : Nat, (e.times[n]?.any fun time => e.asStored.isWithinRange now time) =
      e.times[n]?.any fun time => e.isWithinRange now time := by
    intro n
    cases hplace : e.times[n]? with
    | none => rfl
    | some time => exact isWithinRange_asStored hnow (he time (List.mem_of_getElem? hplace))
  simp only [isOver, asStored_times, asStored_constraint, Constraint.asStored_count, hlook]

theorem asStored_record (he : e.IsWhole) (hnow : now.IsWhole) :
    (e.record now).asStored = e.asStored.record now := by
  have hkept : (e.times.filter fun time => e.asStored.isWithinRange now time) =
      e.times.filter fun time => e.isWithinRange now time :=
    List.filter_congr fun time htime => isWithinRange_asStored hnow (he time htime)
  simp only [record, asStored] at hkept ⊢
  rw [hkept]

theorem IsWhole.record (he : e.IsWhole) (hnow : now.IsWhole) : (e.record now).IsWhole := by
  intro time htime
  rcases List.mem_cons.mp (record_perm.mem_iff.mp htime) with rfl | hmem
  · exact hnow
  · exact he time (List.mem_filter.mp hmem).1

theorem IsWhole.recordTimes (he : e.IsWhole) (hnow : now.IsWhole) (n : Nat) :
    (e.recordTimes now n).IsWhole ∧
      (e.recordTimes now n).asStored = e.asStored.recordTimes now n := by
  induction n with
  | zero => exact ⟨he, rfl⟩
  | succ n ih =>
    rw [recordTimes_succ, recordTimes_succ, asStored_record ih.1 hnow, ih.2]
    exact ⟨ih.1.record hnow, rfl⟩

end CacheEntry

/-! ## Limiters -/

namespace Limiter

/-- A limiter with its definitions as they are stored. -/
def asStored (l : Limiter) : Limiter := { l with cache := l.cache.map fun _ e => e.asStored }

/-- Every cached history consists of whole milliseconds. -/
def IsWhole (l : Limiter) : Prop := ∀ id e, l.cache.get? id = some e → e.IsWhole

@[simp] theorem asStored_pending (l : Limiter) : l.asStored.pending = l.pending := rfl

@[simp] theorem settled_asStored (l : Limiter) (s : Store) : l.asStored.settled s = l.settled s :=
  rfl

@[simp] theorem get?_asStored (l : Limiter) (id : String) :
    l.asStored.cache.get? id = (l.cache.get? id).map CacheEntry.asStored := by
  rw [asStored, Table.get?_map]

@[simp] theorem contains_asStored (l : Limiter) : l.asStored.cache.contains = l.cache.contains := by
  funext id
  rw [Table.contains, get?_asStored, Option.isSome_map, Table.contains]

/-- Limiters with the same writes waiting that look up the same are the same. -/
theorem ext_of_get? {l l' : Limiter} (hcache : ∀ id, l.cache.get? id = l'.cache.get? id)
    (hpending : l.pending = l'.pending) : l = l' := by
  cases l
  cases l'
  cases hpending
  cases Table.eq_of_get?_eq hcache
  rfl

/-- The writer does not look at definitions in the cache. -/
theorem drain_asStored (l : Limiter) (s : Store) :
    l.asStored.drain s = ((l.drain s).1.asStored, (l.drain s).2) := by
  obtain ⟨cache, pending⟩ := l
  cases pending <;> rfl

variable {l : Limiter} {ids : List String} {now : Instant}

theorem isOver_asStored (hl : l.IsWhole) (hnow : now.IsWhole) (ids : List String) :
    l.asStored.isOver ids now = l.isOver ids now := by
  rw [isOver, isOver]
  refine congrArg ids.any (funext fun id => ?_)
  rw [get?_asStored]
  cases he : l.cache.get? id with
  | none => rfl
  | some e => exact CacheEntry.isOver_asStored (hl id e he) hnow

/-- What an increment leaves, rounded, is what it leaves of the rounded limiter. -/
theorem asStored_checkAndIncrement (hl : l.IsWhole) (hnow : now.IsWhole) (ids : List String) :
    (l.checkAndIncrement ids now).2.asStored = (l.asStored.checkAndIncrement ids now).2 := by
  cases hover : l.isOver ids now with
  | true =>
    rw [checkAndIncrement_of_isOver hover,
      checkAndIncrement_of_isOver ((isOver_asStored hl hnow ids).trans hover)]
  | false =>
    have hover' := (isOver_asStored hl hnow ids).trans hover
    refine ext_of_get? (fun id => ?_) ?_
    · rw [get?_asStored, get?_checkAndIncrement hover, get?_checkAndIncrement hover', get?_asStored]
      cases he : l.cache.get? id with
      | none => rfl
      | some e => exact congrArg some ((hl id e he).recordTimes hnow _).2
    · rw [asStored_pending, checkAndIncrement_pending hover, checkAndIncrement_pending hover',
        asStored_pending, batchOf, batchOf, contains_asStored]

theorem IsWhole.checkAndIncrement (hl : l.IsWhole) (hnow : now.IsWhole) (ids : List String) :
    (l.checkAndIncrement ids now).2.IsWhole := by
  cases hover : l.isOver ids now with
  | true =>
    rw [checkAndIncrement_of_isOver hover]
    exact hl
  | false =>
    intro id e he
    rw [get?_checkAndIncrement hover] at he
    obtain ⟨e₀, he₀, rfl⟩ := Option.map_eq_some_iff.mp he
    exact ((hl id e₀ he₀).recordTimes hnow _).1

/-- What is loaded is rounded already. -/
theorem IsLoaded.asStored {t : Tables} {e : CacheEntry} (h : IsLoaded t e) : e.asStored = e := by
  obtain ⟨row, -, hrow⟩ := exists_row_of_constraint? h.definition
  rw [CacheEntry.asStored, Tables.asStored_of_constraintOfRow hrow]

theorem IsLoaded.isWhole {t : Tables} {e : CacheEntry} (h : IsLoaded t e) : e.IsWhole := by
  obtain ⟨-, -, -, hperm⟩ := Tables.loaded?_spec (isLoaded_iff.mp h)
  exact fun time htime => Tables.isWhole_of_mem_timesOf (hperm.mem_iff.mp htime)

theorem IsWhole.addEntries (hl : l.IsWhole) {t : Tables} {es : List CacheEntry}
    (hes : ∀ e ∈ es, IsLoaded t e) :
      IsWhole { l with cache := es.foldl addEntry l.cache } := by
  intro id e he
  rw [get?_foldl_addEntry, Option.or_eq_some_iff] at he
  rcases he with he | ⟨-, he⟩
  · exact hl id e he
  · exact (hes e (List.mem_of_find?_eq_some he)).isWhole

/-- A list is cached by the rounded limiter just as by the other. -/
theorem prepare_asStored {s s' : Store} {l' : Limiter} {r : Except LimitError Unit}
    (h : l.prepare s ids = (r, l', s')) : l.asStored.prepare s ids = (r, l'.asStored, s') := by
  rw [prepare] at h ⊢
  rw [contains_asStored]
  split at h
  · cases h
    rfl
  · next es s₁ hload =>
    cases h
    refine congrArg (fun l' => (Except.ok (), l', s')) (ext_of_get? (fun id => ?_) rfl)
    rw [get?_asStored, get?_foldl_addEntry, get?_foldl_addEntry, get?_asStored]
    cases l.cache.get? id with
    | some e => rfl
    | none =>
      cases hfind : es.find? fun e => e.constraint.id = id with
      | none => rfl
      | some e =>
        exact congrArg some
          ((isLoaded_of_loadAll hload).2 e (List.mem_of_find?_eq_some hfind)).asStored.symm

end Limiter
end Automation
