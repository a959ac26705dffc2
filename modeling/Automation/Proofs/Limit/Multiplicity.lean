import Automation.Proofs.Limit.Window

/-!
# Ids that a list repeats

A checker is meant for a set of constraints, and it keeps the list that it was made with.  Whether
the limits allow something depends on the set alone: a check asks whether some cached constraint of
the list is used up, and neither the order nor a repetition changes that (`isOver_congr`).

Recording goes through the list and records at every place.  The order is of no consequence, since
all occurrences of an increment have the same time.  Repetitions are: a history gains as many
occurrences as its id has places, and so does the store.  So two lists of the same ids leave the
same histories just if they have every cached id equally often, and the same rows just if, in
addition to that, the batch is taken at all (`checkAndIncrement_same_ids`).  A schedule that names
its limit twice uses it up in half the time (`repetition_is_counted`).
-/

namespace Automation

/-! ## Histories and batches -/

namespace CacheEntry

variable {e : CacheEntry} {now : Instant}

/-- As often as something was recorded, so much longer is the part in range. -/
theorem length_recordTimes {n : Nat} (hn : n ≠ 0) :
    (e.recordTimes now n).times.length =
      n + (e.times.filter fun t => e.isWithinRange now t).length := by
  obtain ⟨k, rfl⟩ := Nat.exists_eq_succ_of_ne_zero hn
  rw [(recordTimes_perm k).length_eq, List.length_append, List.length_replicate]

/-- A history shows how often something was recorded, if it was recorded at all. -/
theorem recordTimes_inj {n m : Nat} (hzero : n = 0 ↔ m = 0) :
    e.recordTimes now n = e.recordTimes now m ↔ n = m := by
  refine ⟨fun heq => ?_, fun heq => heq ▸ rfl⟩
  by_cases hn : n = 0
  · rw [hn, hzero.mp hn]
  · have hlength : (e.recordTimes now n).times.length = (e.recordTimes now m).times.length :=
      congrArg (fun e : CacheEntry => e.times.length) heq
    rw [length_recordTimes hn, length_recordTimes (mt hzero.mpr hn)] at hlength
    exact Nat.add_right_cancel hlength

end CacheEntry

/-- Whether a store takes a batch depends on the occurrences in it, and not on how often they are in
it. -/
theorem Store.addOccurrences_answer_congr (s : Store) {os os' : List Occurrence}
    (h : ∀ o, o ∈ os ↔ o ∈ os') : (s.addOccurrences os).1 = (s.addOccurrences os').1 := by
  have hempty : os.isEmpty = os'.isEmpty := by
    rw [Bool.eq_iff_iff, List.isEmpty_iff, List.isEmpty_iff, List.eq_nil_iff_forall_not_mem,
      List.eq_nil_iff_forall_not_mem]
    exact forall_congr' fun o => not_congr (h o)
  have hall : (os.all fun o => s.tables.constraints.contains o.constraintId) =
      os'.all fun o => s.tables.constraints.contains o.constraintId := by
    rw [Bool.eq_iff_iff, List.all_eq_true, List.all_eq_true]
    exact forall_congr' fun o => imp_congr_left (h o)
  simp only [addOccurrences, command, Tables.addOccurrences, hempty, hall]
  cases s.plan s.calls .addOccurrences with
  | some e => rfl
  | none =>
    dsimp only
    split
    · rfl
    · cases os'.all fun o => s.tables.constraints.contains o.constraintId <;> rfl

/-- A batch that is taken is added behind what is there, and any other adds nothing. -/
theorem Store.occurrences_addOccurrences (s : Store) (os : List Occurrence) :
    (s.addOccurrences os).2.tables.occurrences = s.tables.occurrences ++
      if (s.addOccurrences os).1.isOk then os.map Tables.rowOfOccurrence else [] := by
  cases hanswer : (s.addOccurrences os).1 with
  | error e =>
    have hsame : (s.addOccurrences os).2.tables = s.tables := tables_of_command_error hanswer
    rw [hsame]
    exact (List.append_nil _).symm
  | ok taken =>
    have hwritten : s.tables.addOccurrences os = .ok (s.addOccurrences os).2.tables :=
      write_of_command_answer hanswer
    rw [(Tables.addOccurrences_eq_ok_iff.mp hwritten).2]
    rfl

namespace Limiter

variable {l : Limiter} {ids ids' : List String} {now : Instant}

/-! ## Two lists of the same ids -/

/-- Two lists have every cached id equally often. -/
def AppearEqually (l : Limiter) (ids ids' : List String) : Prop :=
  ∀ id, l.cache.contains id = true → ids.count id = ids'.count id

/-- A check depends on which ids there are. -/
theorem isOver_congr (h : ∀ id, id ∈ ids ↔ id ∈ ids') : l.isOver ids now = l.isOver ids' now := by
  rw [Bool.eq_iff_iff, isOver_iff_exists, isOver_iff_exists]
  exact exists_congr fun id => and_congr_left' (h id)

theorem count_eq_zero_congr (h : ∀ id, id ∈ ids ↔ id ∈ ids') (id : String) :
    ids.count id = 0 ↔ ids'.count id = 0 := by
  rw [List.count_eq_zero, List.count_eq_zero]
  exact not_congr (h id)

/-- What is accepted leaves the same histories for two lists just if every history has gained the
same number of occurrences. -/
theorem cache_checkAndIncrement_eq_iff (h : ∀ id, id ∈ ids ↔ id ∈ ids')
    (hover : l.isOver ids now = false) :
    (l.checkAndIncrement ids now).2.cache = (l.checkAndIncrement ids' now).2.cache ↔
      l.AppearEqually ids ids' := by
  have hover' : l.isOver ids' now = false := isOver_congr h ▸ hover
  have hone : ∀ id, (l.checkAndIncrement ids now).2.cache.get? id =
      (l.checkAndIncrement ids' now).2.cache.get? id ↔
        (l.cache.contains id = true → ids.count id = ids'.count id) := by
    intro id
    rw [get?_checkAndIncrement hover, get?_checkAndIncrement hover', Table.contains]
    cases l.cache.get? id with
    | none => exact iff_of_true rfl fun hcached => by cases hcached
    | some e =>
      rw [Option.map_some, Option.map_some, Option.some_inj,
        CacheEntry.recordTimes_inj (count_eq_zero_congr h id)]
      exact ⟨fun heq _ => heq, fun heq => heq rfl⟩
  exact ⟨fun heq id => (hone id).mp (heq ▸ rfl),
    fun heq => Table.eq_of_get?_eq fun id => (hone id).mpr (heq id)⟩

theorem mem_batchOf_congr (l : Limiter) (now : Instant) (h : ∀ id, id ∈ ids ↔ id ∈ ids')
    (o : Occurrence) : o ∈ l.batchOf ids now ↔ o ∈ l.batchOf ids' now := by
  simp only [batchOf, List.mem_map, List.mem_filter, h]

/-- The rows of two batches are the same up to order just if the lists have every cached id equally
often. -/
theorem rows_batchOf_perm_iff :
    ((l.batchOf ids now).map Tables.rowOfOccurrence).Perm
      ((l.batchOf ids' now).map Tables.rowOfOccurrence) ↔ l.AppearEqually ids ids' := by
  have hrow : Function.Injective fun id : String => Tables.rowOfOccurrence ⟨id, now⟩ :=
    fun _ _ heq => congrArg OccurrenceRow.constraintId heq
  rw [batchOf, batchOf, List.map_map, List.map_map]
  refine (List.map_perm_map_iff hrow).trans (List.perm_iff_count.trans (forall_congr' fun id => ?_))
  cases hcached : l.cache.contains id with
  | true =>
    rw [List.count_filter hcached, List.count_filter hcached]
    exact ⟨fun heq _ => heq, fun heq => heq rfl⟩
  | false =>
    have hnot : ∀ ids : List String, (ids.filter l.cache.contains).count id = 0 := by
      intro ids
      rw [List.count_eq_zero, List.mem_filter, hcached]
      exact fun hmem => Bool.false_ne_true hmem.2
    rw [hnot, hnot]
    exact iff_of_true rfl fun h => by cases h

/-! ## What is stored in the end -/

/-- What is accepted and then written is added behind all that waited before it, if the store takes
it. -/
theorem occurrences_flush_checkAndIncrement (hover : l.isOver ids now = false) (s : Store) :
    ((l.checkAndIncrement ids now).2.flush s).2.tables.occurrences =
      (l.flush s).2.tables.occurrences ++
        if ((l.flush s).2.addOccurrences (l.batchOf ids now)).1.isOk then
          (l.batchOf ids now).map Tables.rowOfOccurrence else [] := by
  rw [flush, flush, performAll_store, performAll_store, checkAndIncrement_pending hover,
    List.foldl_append]
  split
  · next hempty =>
    rw [List.isEmpty_iff.mp hempty, List.map_nil, ite_self, List.append_nil]
    rfl
  · exact Store.occurrences_addOccurrences _ (l.batchOf ids now)

/-- **Which ids a list has decides what is allowed, and how often it has them what is recorded.**
In every state of a limiter and over every store two lists of the same ids, in any order and with
any repetitions, are answered alike by a check and by an increment.  The histories are the same
afterwards just if the increment is refused or every cached id appears equally often in both lists,
and what is stored once everything is written is the same up to order just if one of these holds or
the store does not take the batch. -/
theorem checkAndIncrement_same_ids (l : Limiter) (s : Store) (now : Instant)
    {ids ids' : List String} (h : ∀ id, id ∈ ids ↔ id ∈ ids') :
    l.isOver ids now = l.isOver ids' now ∧
    (l.checkAndIncrement ids now).1 = (l.checkAndIncrement ids' now).1 ∧
    ((l.checkAndIncrement ids now).2.cache = (l.checkAndIncrement ids' now).2.cache ↔
      l.isOver ids now = true ∨ l.AppearEqually ids ids') ∧
    (((l.checkAndIncrement ids now).2.flush s).2.tables.occurrences.Perm
        ((l.checkAndIncrement ids' now).2.flush s).2.tables.occurrences ↔
      l.isOver ids now = true ∨
        ((l.flush s).2.addOccurrences (l.batchOf ids now)).1.isOk = false ∨
        l.AppearEqually ids ids') := by
  have hsame : l.isOver ids now = l.isOver ids' now := isOver_congr h
  refine ⟨hsame, by rw [checkAndIncrement_fst, checkAndIncrement_fst, hsame], ?_⟩
  cases hover : l.isOver ids now with
  | true =>
    rw [checkAndIncrement_of_isOver hover, checkAndIncrement_of_isOver (hsame ▸ hover)]
    exact ⟨iff_of_true rfl (Or.inl rfl), iff_of_true (List.Perm.refl _) (Or.inl rfl)⟩
  | false =>
    have htaken := (l.flush s).2.addOccurrences_answer_congr (mem_batchOf_congr l now h)
    rw [cache_checkAndIncrement_eq_iff h hover, occurrences_flush_checkAndIncrement hover,
      occurrences_flush_checkAndIncrement (hsame ▸ hover), ← htaken, List.perm_append_left_iff]
    refine ⟨by simp, ?_⟩
    cases ((l.flush s).2.addOccurrences (l.batchOf ids now)).1.isOk with
    | false => simp
    | true => simpa using rows_batchOf_perm_iff

/-! ## A limit that is named twice -/

namespace Service

/-- A limiter with a limit of twice in half a second and one of three times. -/
def unused : Service :=
  (start (.ofTables .empty)).run
    [.reconcile [⟨"c", .ofMillis 500, 2⟩, ⟨"d", .ofMillis 500, 3⟩], .prepare ["d", "c"]]

/-- Two lists in different order, one of which repeats an id that is not cached, leave the same. -/
theorem checkAndIncrement_same_ids_unused :
    (∀ id, id ∈ ["c", "x", "d", "d"] ↔ id ∈ ["d", "x", "c", "x", "d"]) ∧
    (unused.limiter.checkAndIncrement ["c", "x", "d", "d"] (.ofMillis 0)).2.cache =
      (unused.limiter.checkAndIncrement ["d", "x", "c", "x", "d"] (.ofMillis 0)).2.cache ∧
    ((unused.limiter.checkAndIncrement ["c", "x", "d", "d"] (.ofMillis 0)).2.flush
        unused.store).2.tables.occurrences.Perm
      ((unused.limiter.checkAndIncrement ["d", "x", "c", "x", "d"] (.ofMillis 0)).2.flush
        unused.store).2.tables.occurrences := by
  have hsame : ∀ id, id ∈ ["c", "x", "d", "d"] ↔ id ∈ ["d", "x", "c", "x", "d"] := by
    intro id
    simp only [List.mem_cons, List.not_mem_nil, or_false]
    grind
  have hequally : unused.limiter.AppearEqually ["c", "x", "d", "d"] ["d", "x", "c", "x", "d"] := by
    intro id hid
    have hkeys : unused.limiter.cache.keys = ["c", "d"] := by rfl
    have hkey : id = "c" ∨ id = "d" := by
      simpa [hkeys] using (Table.mem_keys_iff unused.limiter.cache id).mpr hid
    rcases hkey with rfl | rfl <;> rfl
  obtain ⟨-, -, hcache, hstored⟩ := checkAndIncrement_same_ids unused.limiter unused.store
    (.ofMillis 0) hsame
  exact ⟨hsame, hcache.mpr (Or.inr hequally), hstored.mpr (Or.inr (Or.inr hequally))⟩

/-- A list that names a limit twice uses it up at once and leaves two occurrences in the store,
where the list of the same one id leaves one and may go on. -/
theorem repetition_is_counted :
    (∀ id, id ∈ ["c"] ↔ id ∈ ["c", "c"]) ∧
    (unused.serve (.increment ["c"] (.ofMillis 0))).1 =
      (unused.serve (.increment ["c", "c"] (.ofMillis 0))).1 ∧
    (unused.run [.increment ["c"] (.ofMillis 0)]).limiter.isOver ["c"] (.ofMillis 0) = false ∧
    (unused.run [.increment ["c", "c"] (.ofMillis 0)]).limiter.isOver ["c"] (.ofMillis 0) = true ∧
    (unused.run [.increment ["c"] (.ofMillis 0), .flush]).store.tables.occurrences =
      [⟨"c", 0⟩] ∧
    (unused.run [.increment ["c", "c"] (.ofMillis 0), .flush]).store.tables.occurrences =
      [⟨"c", 0⟩, ⟨"c", 0⟩] := by
  refine ⟨fun id => by simp, ?_, ?_, ?_, ?_, ?_⟩ <;> rfl

end Service
end Limiter
end Automation
