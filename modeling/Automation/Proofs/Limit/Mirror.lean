import Automation.Proofs.Limit.Loading

/-!
# The limiter decides as the tables would

A limiter answers from its cache, and the cache and the tables differ: the cache has pruned what was
out of range at its last increment, and the tables lack what still waits to be written.  What they
have in common is what is in range, once everything that waits is written.  `Limiter.settled` are
the tables then, and `Limiter.Mirrors` is that agreement.

So a limiter can be forgotten.  `Mirrors.attempt` says that asking for a list of constraints is
answered by a function of the settled tables and the clock alone, and changes the settled tables by
another one.  Two limiters with the same settled tables, one that has been at work for long and one
that has cached nothing, can not be told apart.

## Why the clock must not go back

What a cache has pruned is out of range from then on only if ages grow.  And they only grow where
neither the clock nor the occurrence is inside a leap second, which is so for whole milliseconds.
-/

namespace Automation

/-! ## An entry that is as good as the tables -/

/-- A cached entry agrees with tables at a time: the definition is the stored one, and what is in
range is the same.  What is out of range may have been pruned. -/
structure CacheEntry.IsCurrent (t : Tables) (now : Instant) (e : CacheEntry) : Prop where
  definition : t.constraint? e.constraint.id = .ok (some e.constraint)
  readable : t.IsReadableFor e.constraint.id
  ascending : e.times.Pairwise (· ≤ ·)
  plain : ∀ time ∈ e.times, time.IsPlain
  inRange : (e.times.filter fun time => e.isWithinRange now time).Perm
    ((t.timesOf e.constraint.id).filter fun time => e.isWithinRange now time)

namespace CacheEntry

variable {t : Tables} {now : Instant} {e : CacheEntry}

/-- What is loaded is current at any time. -/
theorem isCurrent_of_loaded? {id : String} (h : t.loaded? id = some e) (hid : e.constraint.id = id)
    (now : Instant) : e.IsCurrent t now := by
  subst hid
  obtain ⟨hc, hreadable, hsorted, hperm⟩ := Tables.loaded?_spec h
  exact ⟨hc, hreadable, hsorted, fun time htime => Tables.isPlain_of_mem_timesOf
    (hperm.mem_iff.mp htime), hperm.filter _⟩

/-- A current entry answers as the one that would be loaded. -/
theorem IsCurrent.isOver (h : e.IsCurrent t now) (hnow : now.IsPlain) :
    ∃ loaded, t.loaded? e.constraint.id = some loaded ∧ loaded.isOver now = e.isOver now := by
  obtain ⟨loaded, hloaded, hc⟩ := Tables.exists_loaded? h.definition h.readable
  obtain ⟨-, -, hsorted, hperm⟩ := Tables.loaded?_spec hloaded
  refine ⟨loaded, hloaded, ?_⟩
  have hsame : (fun time => loaded.isWithinRange now time) = fun time => e.isWithinRange now time :=
    funext fun time => by rw [isWithinRange, isWithinRange, hc]
  have hcount : loaded.times.countP (fun time => e.isWithinRange now time) =
      e.times.countP (fun time => e.isWithinRange now time) := by
    rw [hperm.countP_eq, List.countP_eq_length_filter, List.countP_eq_length_filter,
      h.inRange.length_eq]
  rw [Bool.eq_iff_iff, isOver_iff_count h.ascending hnow h.plain,
    isOver_iff_count hsorted hnow fun time htime => Tables.isPlain_of_mem_timesOf
      (hperm.mem_iff.mp htime), hc, hsame, hcount]

/-- A current entry stays current as the clock goes on. -/
theorem IsCurrent.later (h : e.IsCurrent t now) (hnow : now.IsPlain) {later : Instant}
    (hlater : later.IsPlain) (hle : now ≤ later) : e.IsCurrent t later := by
  refine ⟨h.definition, h.readable, h.ascending, h.plain, ?_⟩
  -- What is in range later is in range now, so filtering by the later range filters twice.
  have htwice : ∀ times : List Instant, (∀ time ∈ times, time.IsPlain) →
      (times.filter fun time => e.isWithinRange later time) =
        (times.filter fun time => e.isWithinRange now time).filter
          fun time => e.isWithinRange later time := by
    intro times htimes
    rw [List.filter_filter]
    refine List.filter_congr fun time htime => ?_
    cases hin : e.isWithinRange later time with
    | false => rfl
    | true =>
      rw [Bool.true_and]
      rw [isWithinRange_iff] at hin
      exact (isWithinRange_iff.mpr
        ((Instant.elapsed_mono hnow hlater (htimes time htime) hle).trans hin)).symm
  rw [htwice _ h.plain, htwice _ fun time => Tables.isPlain_of_mem_timesOf]
  exact h.inRange.filter _

/-- A current entry stays current when the same occurrences are recorded and added. -/
theorem IsCurrent.record {t' : Tables} (h : e.IsCurrent t now) (hnow : now.IsPlain) {n : Nat}
    (hconstraints : t'.constraints = t.constraints) (hreadable : t'.IsReadableFor e.constraint.id)
    (htimes : t'.timesOf e.constraint.id = t.timesOf e.constraint.id ++ List.replicate n now) :
    (e.recordTimes now n).IsCurrent t' now := by
  have hsame : (fun time => (e.recordTimes now n).isWithinRange now time) =
      fun time => e.isWithinRange now time := funext fun time => isWithinRange_recordTimes
  refine ⟨?_, ?_, sorted_recordTimes h.ascending, ?_, ?_⟩
  · rw [recordTimes_constraint, Tables.constraint?, hconstraints]
    exact h.definition
  · rw [recordTimes_constraint]
    exact hreadable
  · intro time htime
    rcases mem_recordTimes htime with rfl | hmem
    · exact hnow
    · exact h.plain time hmem
  · rw [hsame, recordTimes_constraint, htimes, List.filter_append, filter_replicate]
    exact (filter_recordTimes_perm n).trans
      (List.perm_append_comm.trans (h.inRange.append_right _))

end CacheEntry

/-! ## What waits to be written -/

/-- The occurrences of a write. -/
def PendingWrite.batch : PendingWrite → List Occurrence
  | .occurrences batch => batch
  | .replacement _ _ _ => []

namespace Limiter

/-- The occurrences that wait to be written. -/
def waiting (l : Limiter) : List Occurrence := l.pending.flatMap PendingWrite.batch

/-- The tables once everything that waits is written. -/
def settled (l : Limiter) (s : Store) : Tables :=
  { s.tables with occurrences := s.tables.occurrences ++ l.waiting.map Tables.rowOfOccurrence }

/-- Where nothing waits, the settled tables are the tables. -/
theorem settled_of_pending_eq_nil {l : Limiter} (h : l.pending = []) (s : Store) :
    l.settled s = s.tables := by
  rw [settled, Limiter.waiting, h]
  show { s.tables with occurrences := s.tables.occurrences ++ [] } = s.tables
  rw [List.append_nil]

/-- A limiter that decides as its settled tables would: only occurrences of cached constraints wait,
and what is cached is current. -/
structure Mirrors (l : Limiter) (s : Store) (now : Instant) : Prop where
  pending : ∀ w ∈ l.pending, ∃ batch, w = .occurrences batch
  waiting : ∀ o ∈ l.waiting, l.cache.contains o.constraintId = true
  cached : ∀ id e, l.cache.get? id = some e →
    e.constraint.id = id ∧ e.IsCurrent (l.settled s) now

variable {l : Limiter} {s : Store} {now : Instant}

theorem Mirrors.later (h : l.Mirrors s now) (hnow : now.IsPlain) {later : Instant}
    (hlater : later.IsPlain) (hle : now ≤ later) : l.Mirrors s later :=
  ⟨h.pending, h.waiting, fun id e he =>
    ⟨(h.cached id e he).1, (h.cached id e he).2.later hnow hlater hle⟩⟩

/-- Progress is nothing to a limiter. -/
theorem Mirrors.of_tables {s' : Store} (h : l.Mirrors s now)
    (hconstraints : s'.tables.constraints = s.tables.constraints)
    (hoccurrences : s'.tables.occurrences = s.tables.occurrences) : l.Mirrors s' now := by
  refine ⟨h.pending, h.waiting, fun id e he => ⟨(h.cached id e he).1, ?_⟩⟩
  have hsettled : (l.settled s').occurrences = (l.settled s).occurrences := by
    rw [settled, settled, hoccurrences]
  obtain ⟨hdefinition, hreadable, hascending, hplain, hinRange⟩ := (h.cached id e he).2
  refine ⟨?_, ?_, hascending, hplain, ?_⟩
  · rw [Tables.constraint?] at hdefinition ⊢
    rw [show (l.settled s').constraints = (l.settled s).constraints from hconstraints]
    exact hdefinition
  · rw [Tables.IsReadableFor, hsettled]
    exact hreadable
  · rw [Tables.timesOf, hsettled]
    exact hinRange

/-- Batches for defined constraints are added one behind the other. -/
theorem foldl_perform_batches {ws : List PendingWrite}
    (hws : ∀ w ∈ ws, ∃ batch, w = .occurrences batch) (hs : s.Allows .addOccurrences)
    (hdefined : ∀ o ∈ ws.flatMap PendingWrite.batch,
      s.tables.constraints.contains o.constraintId = true) :
    (ws.foldl (fun s w => (w.perform s).2) s).tables =
      { s.tables with occurrences :=
          s.tables.occurrences ++ (ws.flatMap PendingWrite.batch).map Tables.rowOfOccurrence } := by
  induction ws generalizing s with
  | nil => rw [List.foldl_nil, List.flatMap_nil, List.map_nil, List.append_nil]
  | cons w rest ih =>
    obtain ⟨batch, rfl⟩ := hws w List.mem_cons_self
    rw [List.flatMap_cons] at hdefined ⊢
    have hwritten : (s.addOccurrences batch).2.tables =
        { s.tables with occurrences := s.tables.occurrences ++ batch.map Tables.rowOfOccurrence } :=
      Store.command_tables_of_ok hs <| Tables.addOccurrences_eq_ok_iff.mpr
        ⟨fun o ho => hdefined o (List.mem_append_left _ ho), rfl⟩
    have hmore := ih (s := (s.addOccurrences batch).2)
      (fun w' hw' => hws w' (List.mem_cons_of_mem _ hw')) (Store.allows_command.mpr hs) fun o ho => by
        rw [hwritten]
        exact hdefined o (List.mem_append_right _ ho)
    rw [List.foldl_cons]
    show (rest.foldl _ (s.addOccurrences batch).2).tables = _
    rw [hmore, hwritten, List.map_append, List.append_assoc]
    rfl

/-- What is cached is defined. -/
theorem Mirrors.defined (h : l.Mirrors s now) {id : String} (hid : l.cache.contains id = true) :
    s.tables.constraints.contains id = true := by
  obtain ⟨e, he⟩ := Option.isSome_iff_exists.mp hid
  obtain ⟨hsame, hcurrent⟩ := h.cached id e he
  obtain ⟨row, hrow, -⟩ := exists_row_of_constraint? hcurrent.definition
  rw [hsame] at hrow
  exact Option.isSome_iff_exists.mpr ⟨row, hrow⟩

/-- What waits is written as a whole, and then the tables are the settled ones. -/
theorem Mirrors.flush (h : l.Mirrors s now) (hs : s.Allows .addOccurrences) :
    (l.flush s).2.tables = l.settled s ∧ ∀ op, (l.flush s).2.Allows op ↔ s.Allows op := by
  rw [Limiter.flush, performAll_store]
  exact ⟨foldl_perform_batches h.pending hs fun o ho => h.defined (h.waiting o ho),
    (foldl_perform_occurrences h.pending s).2⟩

/-! ## Asking for a list of constraints -/

/-- Makes sure that a list is cached and then asks for it.  What cannot be loaded allows nothing. -/
def attempt (l : Limiter) (s : Store) (ids : List String) (now : Instant) :
    Bool × Limiter × Store :=
  match l.prepare s ids with
  | (.error _, l, s) => (false, l, s)
  | (.ok (), l, s) => ((l.checkAndIncrement ids now).1, (l.checkAndIncrement ids now).2, s)

end Limiter

/-- Whether tables allow a list of constraints at a time: all of them can be loaded, and none of them
allows nothing more. -/
def Tables.permits (t : Tables) (ids : List String) (now : Instant) : Bool :=
  ids.all fun id => (t.loaded? id).any fun e => !e.isOver now

/-- The tables after a list of constraints was used at a time. -/
def Tables.use (t : Tables) (ids : List String) (now : Instant) : Tables :=
  { t with occurrences := t.occurrences ++ ids.map fun id => ⟨id, now.toMillis⟩ }

/-- A use adds its time for every appearance of an id. -/
theorem Tables.timesOf_use {t : Tables} {ids : List String} {now : Instant} (hnow : now.IsWhole)
    {id : String} :
      (t.use ids now).timesOf id = t.timesOf id ++ List.replicate (ids.count id) now := by
  rw [timesOf, use, List.filter_append, List.filterMap_append, timesOf, List.append_cancel_left_eq]
  induction ids with
  | nil => rfl
  | cons first rest ih =>
    rw [List.map_cons, List.filter_cons, List.count_cons]
    by_cases hid : first = id
    · rw [if_pos (decide_eq_true hid), List.filterMap_cons, hnow.ofMillis?_toMillis, ih,
        if_pos (by simpa using hid)]
      rfl
    · rw [if_neg (by simpa using hid), ih, if_neg (by simpa using hid), Nat.add_zero]

namespace Limiter

variable {l : Limiter} {s : Store} {now : Instant} {ids : List String}

/-- For what is not cached nothing waits, so it is loaded as it will be. -/
theorem Mirrors.loaded?_of_not_cached (h : l.Mirrors s now) {id : String}
    (hid : l.cache.contains id = false) : (l.settled s).loaded? id = s.tables.loaded? id := by
  refine Tables.loaded?_congr rfl ?_
  rw [settled, List.filter_append, List.append_right_eq_self, List.filter_eq_nil_iff]
  intro row hrow hsame
  obtain ⟨o, ho, rfl⟩ := List.mem_map.mp hrow
  have hcached := h.waiting o ho
  rw [show o.constraintId = id from of_decide_eq_true hsame, hid] at hcached
  cases hcached

/-- A list that cannot be cached has an id that the settled tables cannot load. -/
theorem Mirrors.permits_of_prepare_error (h : l.Mirrors s now) (hc : s.Allows .readConstraint)
    (ho : s.Allows .readOccurrences) {e : LimitError} {l' : Limiter} {s' : Store}
    (hprepare : l.prepare s ids = (.error e, l', s')) :
    l' = l ∧ s'.IsReadOf s ∧ (l.settled s).permits ids now = false := by
  rw [prepare] at hprepare
  split at hprepare
  · next e' s₁ hload =>
    cases hprepare
    refine ⟨rfl, isReadOf_loadAll hload, ?_⟩
    rw [Tables.permits, List.all_eq_false]
    have hmissing : ∃ id ∈ ids.filter (fun id => !l.cache.contains id),
        ¬ (s.tables.loaded? id).isSome = true := by
      by_contra hnone
      push Not at hnone
      obtain ⟨es, s₂, hall⟩ := loadAll_of_loaded? hc ho hnone
      rw [hall] at hload
      cases hload
    obtain ⟨id, hid, hnone⟩ := hmissing
    obtain ⟨hmem, hcached⟩ := List.mem_filter.mp hid
    refine ⟨id, hmem, ?_⟩
    rw [h.loaded?_of_not_cached (by simpa using hcached), Option.not_isSome_iff_eq_none.mp hnone]
    exact Bool.false_ne_true
  · cases hprepare

/-- A list that has been cached is cached as the tables say. -/
theorem Mirrors.prepare (h : l.Mirrors s now) {l' : Limiter} {s' : Store}
    (hprepare : l.prepare s ids = (.ok (), l', s')) :
    l'.Mirrors s' now ∧ l'.settled s' = l.settled s ∧ s'.IsReadOf s ∧
      ∀ id ∈ ids, l'.cache.contains id = true := by
  rw [Limiter.prepare] at hprepare
  split at hprepare
  · cases hprepare
  · next es s₁ hload =>
    cases hprepare
    have hread := isReadOf_loadAll hload
    obtain ⟨hids, hloaded⟩ := isLoaded_of_loadAll hload
    have hsettled : Limiter.settled { l with cache := es.foldl addEntry l.cache } s' =
        l.settled s := by
      rw [settled, settled, hread.tables]
      rfl
    have hmore : ∀ id, l.cache.contains id = true →
        (es.foldl addEntry l.cache).contains id = true := by
      intro id hid
      obtain ⟨e, he⟩ := Option.isSome_iff_exists.mp hid
      rw [Table.contains, get?_foldl_addEntry, he]
      rfl
    refine ⟨⟨h.pending, fun o ho => hmore _ (h.waiting o ho), ?_⟩, hsettled, hread, ?_⟩
    · intro id e he
      rw [hsettled]
      rw [get?_foldl_addEntry, Option.or_eq_some_iff] at he
      rcases he with he | ⟨hnone, he⟩
      · exact h.cached id e he
      · have hid : e.constraint.id = id := by simpa using List.find?_some he
        have hentry := isLoaded_iff.mp (hloaded e (List.mem_of_find?_eq_some he))
        rw [← h.loaded?_of_not_cached (by rw [hid, Table.contains, hnone]; rfl)] at hentry
        exact ⟨hid, CacheEntry.isCurrent_of_loaded? hentry rfl now⟩
    · intro id hid
      cases hcached : l.cache.contains id with
      | true => exact hmore id hcached
      | false =>
        have hmem : id ∈ es.map (·.constraint.id) := by
          rw [hids, List.mem_filter]
          exact ⟨hid, by rw [hcached]; rfl⟩
        obtain ⟨e, he, rfl⟩ := List.mem_map.mp hmem
        rw [Table.contains, get?_foldl_addEntry, Option.isSome_or, Bool.or_eq_true,
          List.find?_isSome]
        exact Or.inr ⟨e, he, decide_eq_true rfl⟩

/-- Where all of a list is cached, the cache answers as the tables. -/
theorem Mirrors.isOver_eq (h : l.Mirrors s now) (hnow : now.IsPlain)
    (hcached : ∀ id ∈ ids, l.cache.contains id = true) :
    l.isOver ids now = !(l.settled s).permits ids now := by
  rw [isOver, Tables.permits, List.not_all_eq_any_not, Bool.eq_iff_iff, List.any_eq_true,
    List.any_eq_true]
  refine exists_congr fun id => and_congr_right fun hid => ?_
  obtain ⟨e, he⟩ := Option.isSome_iff_exists.mp (hcached id hid)
  obtain ⟨hsame, hcurrent⟩ := h.cached id e he
  obtain ⟨loaded, hloaded, hover⟩ := hcurrent.isOver hnow
  rw [hsame] at hloaded
  rw [he, hloaded, Option.any_some, Option.any_some, hover, Bool.not_not]

/-- What is recorded in the cache and put behind what waits is what the tables gain. -/
theorem Mirrors.checkAndIncrement (h : l.Mirrors s now) (hnow : now.IsWhole)
    (hcached : ∀ id ∈ ids, l.cache.contains id = true) (hover : l.isOver ids now = false) :
    (l.checkAndIncrement ids now).2.Mirrors s now ∧
      (l.checkAndIncrement ids now).2.settled s = (l.settled s).use ids now := by
  have hbatch : l.batchOf ids now = ids.map fun id => ⟨id, now⟩ := by
    rw [batchOf, List.filter_eq_self.mpr hcached]
  have hpending := checkAndIncrement_pending hover
  have hwaiting : (l.checkAndIncrement ids now).2.waiting =
      l.waiting ++ ids.map fun id => ⟨id, now⟩ := by
    rw [Limiter.waiting, hpending, List.flatMap_append, ← Limiter.waiting, hbatch]
    split
    · next hempty => rw [List.flatMap_nil, List.isEmpty_iff.mp hempty]
    · rw [List.flatMap_singleton]
      rfl
  have hsettled : (l.checkAndIncrement ids now).2.settled s = (l.settled s).use ids now := by
    rw [settled, hwaiting, List.map_append, List.map_map, ← List.append_assoc]
    rfl
  refine ⟨⟨?_, ?_, ?_⟩, hsettled⟩
  · intro w hw
    rw [hpending, List.mem_append] at hw
    rcases hw with hw | hw
    · exact h.pending w hw
    · split at hw
      · cases hw
      · exact ⟨_, List.mem_singleton.mp hw⟩
  · intro o ho
    have hkept : (l.checkAndIncrement ids now).2.cache.contains o.constraintId =
        l.cache.contains o.constraintId := by
      rw [Table.contains, get?_checkAndIncrement hover, Option.isSome_map, Table.contains]
    rw [hkept]
    rw [hwaiting, List.mem_append] at ho
    rcases ho with ho | ho
    · exact h.waiting o ho
    · obtain ⟨id, hid, rfl⟩ := List.mem_map.mp ho
      exact hcached id hid
  · intro id e he
    rw [get?_checkAndIncrement hover] at he
    obtain ⟨before, hbefore, rfl⟩ := Option.map_eq_some_iff.mp he
    obtain ⟨hid, hcurrent⟩ := h.cached id before hbefore
    rw [hsettled]
    refine ⟨(congrArg Constraint.id CacheEntry.recordTimes_constraint).trans hid,
      hcurrent.record hnow.isPlain rfl ?_ ?_⟩
    · intro row hrow hrowId
      rcases List.mem_append.mp hrow with hrow | hrow
      · exact hcurrent.readable row hrow hrowId
      · obtain ⟨id', -, rfl⟩ := List.mem_map.mp hrow
        rw [hnow.ofMillis?_toMillis]
        rfl
    · rw [hid]
      exact Tables.timesOf_use hnow

/-- **The limiter decides as its settled tables.**  Asking for a list is answered by what the tables
permit, and leaves the tables used if they do. -/
theorem Mirrors.attempt (h : l.Mirrors s now) (hnow : now.IsWhole) (hc : s.Allows .readConstraint)
    (ho : s.Allows .readOccurrences) (ids : List String) :
    (l.attempt s ids now).1 = (l.settled s).permits ids now ∧
      (l.attempt s ids now).2.1.settled (l.attempt s ids now).2.2 =
        (if (l.settled s).permits ids now then (l.settled s).use ids now else l.settled s) ∧
      (l.attempt s ids now).2.1.Mirrors (l.attempt s ids now).2.2 now ∧
      (l.attempt s ids now).2.2.IsReadOf s := by
  rw [Limiter.attempt]
  rcases hprepare : l.prepare s ids with ⟨answer, l', s'⟩
  cases answer with
  | error e =>
    obtain ⟨rfl, hread, hdenied⟩ := h.permits_of_prepare_error hc ho hprepare
    rw [hdenied, if_neg Bool.false_ne_true]
    refine ⟨rfl, ?_, h.of_tables (by rw [hread.tables]) (by rw [hread.tables]), hread⟩
    rw [settled, settled, hread.tables]
  | ok u =>
    cases u
    dsimp only
    obtain ⟨hmirrors, hsettled, hread, hcached⟩ := h.prepare hprepare
    have hover := hmirrors.isOver_eq hnow.isPlain hcached
    rw [hsettled] at hover
    have hanswer : (l'.checkAndIncrement ids now).1 = (l.settled s).permits ids now := by
      rw [checkAndIncrement_fst, hover, Bool.not_not]
    refine ⟨hanswer, ?_⟩
    cases hpermits : (l.settled s).permits ids now with
    | false =>
      rw [hpermits] at hover
      rw [checkAndIncrement_of_isOver hover, if_neg Bool.false_ne_true]
      exact ⟨hsettled, hmirrors, hread⟩
    | true =>
      rw [hpermits] at hover
      obtain ⟨hafter, huse⟩ := hmirrors.checkAndIncrement hnow hcached hover
      rw [if_pos rfl, ← hsettled]
      exact ⟨huse, hafter, hread⟩

end Limiter
end Automation
