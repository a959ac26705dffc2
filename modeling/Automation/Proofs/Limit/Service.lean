import Automation.Proofs.Limit.History
import Automation.Proofs.Store.Calls

/-!
# A limiter at work

A limiter and its store serve requests: checks and increments with the time the clock showed, new
checkers, new lists of constraints.  Between any two of them the writer may carry out the oldest
write that waits, so that is a request as well, and so is waiting for all of them.  A run is a list
of requests, and what a run answers and leaves behind is a function of that list and of the store it
begins with, whose plan of failures is data.

A checker is the list of ids it was made for and nothing else.  So every call through a checker is a
request with these ids, and how many checkers there are does not matter.

The lemmas say what a request does to one cached constraint and to the tables; whoever argues about
runs cites them and opens no operation.
-/

namespace Automation
namespace Limiter

/-! ## Requests and runs -/

/-- What is asked of a limiter, and the writer's work in between. -/
inductive Request where
  /-- Whether some constraint of a list allows nothing more. -/
  | check (ids : List String) (now : Instant)
  /-- Records an occurrence for a list unless some constraint of it allows nothing more. -/
  | increment (ids : List String) (now : Instant)
  /-- Makes a checker for a list. -/
  | prepare (ids : List String)
  | reconcile (constraints : List Constraint)
  | drain
  | flush

/-- What a request is answered with. -/
inductive Reply where
  | decision (b : Bool)
  | outcome (r : Except LimitError Unit)
  | silence

/-- The time that the clock showed to a request, if it looked. -/
def Request.reading? : Request → Option Instant
  | .check _ now | .increment _ now => some now
  | _ => none

/-- The times that the clock showed during a run. -/
def readings (rs : List Request) : List Instant := rs.filterMap Request.reading?

theorem mem_readings_cons {r : Request} {rs : List Request} {t : Instant} :
    t ∈ readings (r :: rs) ↔ r.reading? = some t ∨ t ∈ readings rs := by
  rw [readings, readings, List.mem_filterMap, List.mem_filterMap, List.exists_mem_cons_iff]

/-- What the clock shows to a request comes before what it shows to later ones. -/
theorem pairwise_readings_of_cons {r : Request} {rs : List Request}
    (h : (readings (r :: rs)).Pairwise (· ≤ ·)) :
    (readings rs).Pairwise (· ≤ ·) ∧
      ∀ now, r.reading? = some now → ∀ t ∈ readings rs, now ≤ t := by
  rw [readings, List.filterMap_cons] at h
  cases hread : r.reading? with
  | none =>
    rw [hread] at h
    exact ⟨h, fun now hnow => by cases hnow⟩
  | some time =>
    rw [hread] at h
    obtain ⟨hfirst, hrest⟩ := List.pairwise_cons.mp h
    refine ⟨hrest, fun now hnow t ht => ?_⟩
    cases hnow
    exact hfirst t ht

/-- A limiter with its store. -/
structure Service where
  limiter : Limiter
  store : Store

namespace Service

/-- A limiter that has not been asked anything yet. -/
def start (s : Store) : Service := ⟨.empty, s⟩

/-- One request: the answer, and what it leaves behind. -/
def serve (v : Service) : Request → Reply × Service
  | .check ids now => (.decision (v.limiter.isOver ids now), v)
  | .increment ids now =>
    let (allowed, limiter) := v.limiter.checkAndIncrement ids now
    (.decision allowed, ⟨limiter, v.store⟩)
  | .prepare ids =>
    let (answer, limiter, store) := v.limiter.prepare v.store ids
    (.outcome answer, ⟨limiter, store⟩)
  | .reconcile constraints =>
    let (answer, limiter, store) := v.limiter.setConstraints v.store constraints
    (.outcome answer, ⟨limiter, store⟩)
  | .drain =>
    let (limiter, store) := v.limiter.drain v.store
    (.silence, ⟨limiter, store⟩)
  | .flush =>
    let (limiter, store) := v.limiter.flush v.store
    (.silence, ⟨limiter, store⟩)

/-- What a run leaves behind. -/
def run (v : Service) (rs : List Request) : Service := rs.foldl (fun v r => (v.serve r).2) v

theorem run_cons (v : Service) (r : Request) (rs : List Request) :
    v.run (r :: rs) = (v.serve r).2.run rs := rfl

theorem run_append (v : Service) (rs rs' : List Request) :
    v.run (rs ++ rs') = (v.run rs).run rs' := List.foldl_append ..

/-- What every request keeps, every run keeps. -/
theorem run_induction {P : Service → Prop} (hstep : ∀ v r, P v → P (v.serve r).2) {v : Service}
    (hv : P v) (rs : List Request) : P (v.run rs) := by
  induction rs generalizing v with
  | nil => exact hv
  | cons r rs ih => exact ih (hstep v r hv)

end Service

/-! ## Increments -/

section Increments

variable {l : Limiter} {ids : List String} {now : Instant}

/-- Each cached id of a list gains an occurrence for every appearance, and no other id does. -/
theorem get?_foldl_recordOne (acc : Table String CacheEntry × List Occurrence) (id : String) :
    (ids.foldl (recordOne now) acc).1.get? id =
      (acc.1.get? id).map (CacheEntry.recordTimes now (ids.count id)) := by
  induction ids generalizing acc with
  | nil =>
    rw [List.count_nil, List.foldl_nil]
    cases acc.1.get? id <;> rfl
  | cons first rest ih =>
    rw [List.foldl_cons, ih, recordOne]
    by_cases hid : first = id
    · subst hid
      rw [List.count_cons_self]
      cases hentry : acc.1.get? first with
      | none => rw [hentry]; rfl
      | some e => rw [Table.get?_insert, if_pos rfl]; rfl
    · rw [List.count_cons_of_ne hid]
      cases hentry : acc.1.get? first with
      | none => rfl
      | some e => rw [Table.get?_insert, if_neg (Ne.symm hid)]

/-- The batch of an increment: one occurrence for every appearance of a cached id. -/
def batchOf (l : Limiter) (ids : List String) (now : Instant) : List Occurrence :=
  (ids.filter l.cache.contains).map fun id => ⟨id, now⟩

theorem foldl_recordOne_snd (acc : Table String CacheEntry × List Occurrence) :
    (ids.foldl (recordOne now) acc).2 =
      acc.2 ++ (ids.filter acc.1.contains).map fun id => ⟨id, now⟩ := by
  induction ids generalizing acc with
  | nil => rw [List.foldl_nil, List.filter_nil, List.map_nil, List.append_nil]
  | cons first rest ih =>
    rw [List.foldl_cons, ih]
    cases hentry : acc.1.get? first with
    | none =>
      have hfirst : acc.1.contains first = false := by rw [Table.contains, hentry]; rfl
      rw [List.filter_cons_of_neg (by rw [hfirst]; exact Bool.false_ne_true)]
      simp only [recordOne, hentry]
    | some e =>
      have hfirst : acc.1.contains first = true := by rw [Table.contains, hentry]; rfl
      have hsame : (acc.1.insert first (e.record now)).contains = acc.1.contains := by
        funext id
        rw [Table.contains, Table.contains, Table.get?_insert]
        split
        · next hid => rw [hid, hentry]; rfl
        · rfl
      rw [List.filter_cons_of_pos hfirst]
      simp only [recordOne, hentry, hsame, List.map_cons, List.append_assoc, List.singleton_append]

theorem checkAndIncrement_fst : (l.checkAndIncrement ids now).1 = !l.isOver ids now := by
  rw [checkAndIncrement]
  cases hover : l.isOver ids now <;> rfl

/-- What is turned down leaves nothing behind. -/
theorem checkAndIncrement_of_isOver (h : l.isOver ids now = true) :
    (l.checkAndIncrement ids now).2 = l := by
  rw [checkAndIncrement, if_pos h]

@[simp] theorem enqueue_cache {batch : List Occurrence} : (l.enqueue batch).cache = l.cache := by
  rw [enqueue]
  split <;> rfl

/-- What is accepted is recorded once for every appearance in the list. -/
theorem get?_checkAndIncrement (h : l.isOver ids now = false) (id : String) :
    (l.checkAndIncrement ids now).2.cache.get? id =
      (l.cache.get? id).map (CacheEntry.recordTimes now (ids.count id)) := by
  rw [checkAndIncrement, h, if_neg Bool.false_ne_true, enqueue_cache]
  exact get?_foldl_recordOne (l.cache, []) id

/-- What is accepted waits to be written as one batch, unless there is nothing to write. -/
theorem checkAndIncrement_pending (h : l.isOver ids now = false) :
    (l.checkAndIncrement ids now).2.pending = l.pending ++
      if (l.batchOf ids now).isEmpty then [] else [.occurrences (l.batchOf ids now)] := by
  rw [checkAndIncrement, h, if_neg Bool.false_ne_true]
  show (Limiter.enqueue _ (ids.foldl (recordOne now) (l.cache, [])).2).pending = _
  rw [foldl_recordOne_snd, List.nil_append, ← batchOf, enqueue]
  split
  · rw [List.append_nil]
  · rfl

/-- An increment leaves the definition of every cached constraint. -/
theorem get?_checkAndIncrement_constraint (id : String) :
    ((l.checkAndIncrement ids now).2.cache.get? id).map CacheEntry.constraint =
      (l.cache.get? id).map CacheEntry.constraint := by
  cases hover : l.isOver ids now with
  | true => rw [checkAndIncrement_of_isOver hover]
  | false =>
    rw [get?_checkAndIncrement hover, Option.map_map]
    refine congrArg (Option.map · _) (funext fun e => ?_)
    exact CacheEntry.recordTimes_constraint

/-- An increment caches nothing and takes nothing from the cache. -/
theorem contains_checkAndIncrement (l : Limiter) (ids : List String) (now : Instant) (id : String) :
    (l.checkAndIncrement ids now).2.cache.contains id = l.cache.contains id := by
  have hsame : ((l.checkAndIncrement ids now).2.cache.get? id).map CacheEntry.constraint =
      (l.cache.get? id).map CacheEntry.constraint := get?_checkAndIncrement_constraint id
  have hfound := congrArg Option.isSome hsame
  rwa [Option.isSome_map, Option.isSome_map] at hfound

/-- What is accepted is accepted by every cached constraint of the list. -/
theorem isOver_eq_false_of_mem (h : l.isOver ids now = false) {id : String} (hid : id ∈ ids)
    {e : CacheEntry} (he : l.cache.get? id = some e) : e.isOver now = false := by
  rw [isOver, List.any_eq_false] at h
  have hnot := h id hid
  rw [he, Option.any_some] at hnot
  exact Bool.eq_false_iff.mpr hnot

end Increments

/-! ## Loading -/

/-- An entry as a store's tables say it. -/
structure IsLoaded (t : Tables) (e : CacheEntry) : Prop where
  definition : t.constraint? e.constraint.id = .ok (some e.constraint)
  history : ∃ os, t.occurrencesOf e.constraint.id = .ok os ∧
    e.times = sortBy Instant.rank (os.map (·.time))

theorem constraintOfRow_id {id : String} {row : ConstraintRow} {c : Constraint}
    (h : Tables.constraintOfRow id row = .ok c) : c.id = id := by
  rw [Tables.constraintOfRow] at h
  split at h
  · cases h
  · split at h
    · cases h
    · cases h
      rfl

/-- A constraint that a store reads has a row that says so. -/
theorem exists_row_of_constraint? {t : Tables} {id : String} {c : Constraint}
    (h : t.constraint? id = .ok (some c)) :
    ∃ row, t.constraints.get? id = some row ∧ Tables.constraintOfRow id row = .ok c := by
  rw [Tables.constraint?] at h
  split at h
  · cases h
  · next row hrow =>
    refine ⟨row, hrow, ?_⟩
    cases hread : Tables.constraintOfRow id row with
    | error e =>
      rw [hread] at h
      cases h
    | ok c' =>
      rw [hread] at h
      cases h
      rfl

theorem isReadOf_load {id : String} {s s' : Store} {r : Except LimitError CacheEntry}
    (h : load id s = (r, s')) : s'.IsReadOf s := by
  rw [load] at h
  split at h
  · next hc =>
    cases h
    exact Store.isReadOf_query hc
  · next hc =>
    cases h
    exact Store.isReadOf_query hc
  · next hc =>
    split at h
    · next ho =>
      cases h
      exact (Store.isReadOf_query hc).trans (Store.isReadOf_query ho)
    · next ho =>
      cases h
      exact (Store.isReadOf_query hc).trans (Store.isReadOf_query ho)

/-- What is loaded is what the tables say. -/
theorem isLoaded_of_load {id : String} {s s' : Store} {e : CacheEntry}
    (h : load id s = (.ok e, s')) : e.constraint.id = id ∧ IsLoaded s.tables e := by
  rw [load] at h
  split at h
  · cases h
  · cases h
  · next c s₁ hc =>
    split at h
    · cases h
    · next os s₂ ho =>
      cases h
      have hdefinition : s.tables.constraint? id = .ok (some c) := Store.read_of_query hc
      have hhistory : s₁.tables.occurrencesOf id = .ok os := Store.read_of_query ho
      rw [(Store.isReadOf_query hc).tables] at hhistory
      obtain ⟨row, -, hrow⟩ := exists_row_of_constraint? hdefinition
      have hid : c.id = id := constraintOfRow_id hrow
      refine ⟨hid, ?_, os, ?_, rfl⟩
      · rw [hid]
        exact hdefinition
      · rw [hid]
        exact hhistory

theorem isReadOf_loadAll {ids : List String} {s s' : Store} {r : Except LimitError (List CacheEntry)}
    (h : loadAll ids s = (r, s')) : s'.IsReadOf s := by
  induction ids generalizing s s' r with
  | nil =>
    cases h
    exact .refl s
  | cons id rest ih =>
    rw [loadAll] at h
    split at h
    · next hl =>
      cases h
      exact isReadOf_load hl
    · next hl =>
      split at h
      · next hr =>
        cases h
        exact (isReadOf_load hl).trans (ih hr)
      · next hr =>
        cases h
        exact (isReadOf_load hl).trans (ih hr)

theorem isLoaded_of_loadAll {ids : List String} {s s' : Store} {es : List CacheEntry}
    (h : loadAll ids s = (.ok es, s')) :
    es.map (·.constraint.id) = ids ∧ ∀ e ∈ es, IsLoaded s.tables e := by
  induction ids generalizing s s' es with
  | nil =>
    cases h
    exact ⟨rfl, fun e he => absurd he List.not_mem_nil⟩
  | cons id rest ih =>
    rw [loadAll] at h
    split at h
    · cases h
    · next e s₁ hl =>
      split at h
      · cases h
      · next es' s₂ hr =>
        cases h
        obtain ⟨hid, hloaded⟩ := isLoaded_of_load hl
        obtain ⟨hids, hrest⟩ := ih hr
        rw [(isReadOf_load hl).tables] at hrest
        refine ⟨by rw [List.map_cons, hid, hids], ?_⟩
        intro e' he'
        rcases List.mem_cons.mp he' with rfl | he'
        · exact hloaded
        · exact hrest e' he'

/-- Loading adds entries and replaces none. -/
theorem get?_foldl_addEntry (es : List CacheEntry) (cache : Table String CacheEntry) (id : String) :
    (es.foldl addEntry cache).get? id =
      (cache.get? id).or (es.find? fun e => e.constraint.id = id) := by
  induction es generalizing cache with
  | nil =>
    rw [List.foldl_nil, List.find?_nil, Option.or_none]
  | cons e rest ih =>
    rw [List.foldl_cons, ih, addEntry, Table.contains]
    by_cases hid : e.constraint.id = id
    · rw [List.find?_cons_of_pos (by simpa using hid)]
      subst hid
      cases hentry : cache.get? e.constraint.id with
      | none => simp
      | some e' => simp [hentry]
    · rw [List.find?_cons_of_neg (by simpa using hid)]
      split
      · rfl
      · rw [Table.get?_insert, if_neg (Ne.symm hid)]

/-- A new checker leaves the tables, and what the cache has it keeps. -/
theorem prepare_spec {l : Limiter} {s : Store} {ids : List String} {r : Except LimitError Unit}
    {l' : Limiter} {s' : Store} (h : l.prepare s ids = (r, l', s')) :
    s'.IsReadOf s ∧ l'.pending = l.pending ∧
      ∃ es : List CacheEntry, (∀ e ∈ es, IsLoaded s.tables e) ∧
        l'.cache = es.foldl addEntry l.cache := by
  rw [prepare] at h
  split at h
  · next hl =>
    cases h
    exact ⟨isReadOf_loadAll hl, rfl, [], fun e he => absurd he List.not_mem_nil, rfl⟩
  · next es _ hl =>
    cases h
    exact ⟨isReadOf_loadAll hl, rfl, es, (isLoaded_of_loadAll hl).2, rfl⟩

/-- A new checker takes nothing from the cache. -/
theorem contains_prepare {l : Limiter} {s : Store} {ids : List String} {r : Except LimitError Unit}
    {l' : Limiter} {s' : Store} (h : l.prepare s ids = (r, l', s')) {id : String}
    (hid : l.cache.contains id = true) : l'.cache.contains id = true := by
  obtain ⟨-, -, es, -, hcache⟩ := prepare_spec h
  obtain ⟨e, he⟩ := Option.isSome_iff_exists.mp hid
  rw [hcache, Table.contains, get?_foldl_addEntry, he]
  rfl

end Limiter
end Automation
