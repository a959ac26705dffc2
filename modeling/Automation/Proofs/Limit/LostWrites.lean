import Automation.Proofs.Limit.Queueing
import Automation.Proofs.Limit.Takeover

/-!
# Occurrences that are lost change no answer

Two limiters begin with the same tables and are asked the same.  One store loses occurrences and the
other does not, or loses others, or its writer is slower.  So the tables come to differ, and tables
are read again whenever a constraint is loaded.  Still both answer alike
(`Service.answers_eq_of_losses`).

## Where the tables differ

The tables differ in the histories of cached constraints alone, and these are not read.  A constraint
leaves the cache only when a list deletes it, and then its history is deleted as well, in both
tables and after everything that waited was written or lost.  From then on nothing is recorded for
it until it is loaded, so what is loaded is the same.  `Service.Alike` is this agreement: it says
nothing about the queues except that what waits belongs to cached constraints (`Sheltered`), and
writing keeps it on either side (`alike_drain`, `alike_flush`).
-/

namespace Automation

namespace Tables

/-- The rows of one constraint in the order in which they were added. -/
def rowsOf (t : Tables) (id : String) : List OccurrenceRow :=
  t.occurrences.filter fun row => row.constraintId = id

/-- Clearing takes all rows of a constraint or none. -/
theorem rowsOf_deleteOccurrences (t : Tables) (ids : List String) (id : String) :
    (t.deleteOccurrences ids).rowsOf id = if id ∈ ids then [] else t.rowsOf id := by
  rw [rowsOf, deleteOccurrences, List.filter_filter]
  split
  · next hcleared =>
    rw [List.filter_eq_nil_iff]
    intro row _ hkeep
    obtain ⟨hrow, hkept⟩ := Bool.and_eq_true_iff.mp hkeep
    rw [of_decide_eq_true hrow, List.contains_iff_mem.mpr hcleared] at hkept
    cases hkept
  · next hkept =>
    refine List.filter_congr fun row _ => ?_
    by_cases hrow : row.constraintId = id
    · simp [hrow, hkept]
    · simp [hrow]

/-- Deleting constraints takes the rows that clearing them takes. -/
theorem rowsOf_deleteConstraints (t : Tables) (ids : List String) (id : String) :
    (t.deleteConstraints ids).rowsOf id = if id ∈ ids then [] else t.rowsOf id :=
  rowsOf_deleteOccurrences t ids id

/-- A batch that is taken brings its rows behind those that are there. -/
theorem rowsOf_addOccurrences {t t' : Tables} {os : List Occurrence}
    (h : t.addOccurrences os = .ok t') (id : String) :
    t'.rowsOf id =
      t.rowsOf id ++ (os.filter fun o => o.constraintId = id).map rowOfOccurrence := by
  rw [(addOccurrences_eq_ok_iff.mp h).2, rowsOf, List.filter_append, List.filter_map]
  rfl

/-- What loading a constraint from tables gives. -/
def load (t : Tables) (id : String) : Except LimitError CacheEntry :=
  match t.constraint? id with
  | .error e => .error (.storage e)
  | .ok none => .error (.notFound id)
  | .ok (some c) =>
    match t.occurrencesOf id with
    | .error e => .error (.storage e)
    | .ok os => .ok ⟨c, sortBy Instant.rank (os.map (·.time))⟩

/-- It depends on the definitions and on the rows of the constraint. -/
theorem load_congr {t t' : Tables} {id : String} (hconstraints : t.constraints = t'.constraints)
    (hrows : t.rowsOf id = t'.rowsOf id) : t.load id = t'.load id := by
  rw [rowsOf, rowsOf] at hrows
  simp only [load, constraint?, occurrencesOf, history, hconstraints, hrows]

theorem mapM_load_congr {t t' : Tables} {ids : List String}
    (h : ∀ id ∈ ids, t.load id = t'.load id) : ids.mapM t.load = ids.mapM t'.load := by
  induction ids with
  | nil => rfl
  | cons id rest ih =>
    obtain ⟨hfirst, hrest⟩ := List.forall_mem_cons.mp h
    rw [List.mapM_cons, List.mapM_cons, hfirst, ih hrest]

/-- What is not deleted and not cleared keeps its rows, and nothing else has any. -/
theorem rowsOf_applyToTables (d : Limiter.Difference) (t : Tables) (id : String) :
    (d.applyToTables t).rowsOf id = if id ∈ d.delete ∨ id ∈ d.reset then [] else t.rowsOf id := by
  rw [rowsOf, Limiter.Difference.applyToTables, (foldl_putConstraint_rest ..).2, ← rowsOf,
    rowsOf_deleteOccurrences, rowsOf_deleteConstraints]
  by_cases hdelete : id ∈ d.delete
  · rw [if_pos hdelete, if_pos (Or.inl hdelete), ite_self]
  · simp only [hdelete, if_false, false_or]

/-- What is defined after a difference depends on what was defined before. -/
theorem constraints_applyToTables_congr {t t' : Tables} (h : t.constraints = t'.constraints)
    (d : Limiter.Difference) :
    (d.applyToTables t).constraints = (d.applyToTables t').constraints := by
  refine Table.eq_of_get?_eq fun id => ?_
  rw [Limiter.Difference.applyToTables, Limiter.Difference.applyToTables, get?_foldl_putConstraint,
    get?_foldl_putConstraint, deleteOccurrences, deleteOccurrences, deleteConstraints,
    deleteConstraints, h]

end Tables

namespace Limiter

/-! ## What is read -/

section Reading

variable {s : Store}

/-- Where no reading is refused, loading gives what the tables say. -/
theorem load_answer (hs : s.LosesOnlyOccurrences) (id : String) :
    (load id s).1 = s.tables.load id := by
  have hanswer : (s.readConstraint id).1 = s.tables.constraint? id :=
    Store.query_answer (hs .readConstraint (by decide))
  rcases hread : s.readConstraint id with ⟨answer, s₁⟩
  have hs₁ : s₁.IsReadOf s := Store.isReadOf_query hread
  have hanswer' : (s₁.readOccurrences id).1 = s.tables.occurrencesOf id :=
    (Store.query_answer ((hs₁.allows _).mpr (hs .readOccurrences (by decide)))).trans
      (congrArg (Tables.occurrencesOf · id) hs₁.tables)
  rw [hread] at hanswer
  rw [load, Tables.load, hread, ← hanswer]
  rcases answer with e | _ | c
  · rfl
  · rfl
  · rcases hread' : s₁.readOccurrences id with ⟨answer', s₂⟩
    rw [hread'] at hanswer'
    simp only [← hanswer', hread']
    cases answer' <;> rfl

theorem loadAll_eq_mapM (hs : s.LosesOnlyOccurrences) (ids : List String) :
    (loadAll ids s).1 = ids.mapM s.tables.load := by
  induction ids generalizing s with
  | nil => rfl
  | cons id rest ih =>
    have hanswer := load_answer hs id
    rcases hload : load id s with ⟨answer, s₁⟩
    have hs₁ := isReadOf_load hload
    have hrest := ih fun op hop => (hs₁.allows op).mpr (hs op hop)
    rw [hload] at hanswer
    rw [hs₁.tables] at hrest
    rw [List.mapM_cons, ← hanswer, ← hrest, loadAll, hload]
    cases answer with
    | error e => rfl
    | ok e =>
      dsimp only
      rcases loadAll rest s₁ with ⟨_ | _, s₂⟩ <;> rfl

/-- Where nothing but occurrences can be lost, all that can stand against a list is a row that cannot
be read. -/
theorem setConstraints_answer {l : Limiter} (hs : s.LosesOnlyOccurrences)
    (hp : ∀ w ∈ l.pending, ∃ batch, w = .occurrences batch) (incoming : List Constraint) :
    (l.setConstraints s incoming).1 =
      (s.tables.allConstraints.map fun _ => ()).mapError .storage := by
  have hanswer : s.readConstraints.1 = s.tables.allConstraints :=
    Store.query_answer (hs .readConstraints (by decide))
  rcases hread : s.readConstraints with ⟨_ | stored, s₁⟩
  · rw [← hanswer, hread]
    simp only [setConstraints, hread]
    rfl
  · have hqueue := (foldl_perform_occurrences hp s₁).2
    have hdone := (perform_replacement (Difference.between stored incoming)
      (s := l.pending.foldl (fun s w => (w.perform s).2) s₁) fun op hop =>
        (hqueue op).mpr (((Store.isReadOf_query hread).allows op).mpr (hs op hop))).1
    rw [← hanswer, hread]
    simp only [setConstraints, hread, performAll_append, hdone]
    rfl

end Reading

/-! ## What may wait -/

/-- Only occurrences of cached constraints wait. -/
def WaitsForCached (l : Limiter) : Prop :=
  ∀ w ∈ l.pending, ∃ batch, w = .occurrences batch ∧
    ∀ o ∈ batch, l.cache.contains o.constraintId = true

section Writing

variable {s : Store} {id : String}

/-- A batch leaves the rows of every constraint that it does not name, written or lost. -/
theorem rowsOf_perform {batch : List Occurrence} (h : ∀ o ∈ batch, o.constraintId ≠ id) :
    ((PendingWrite.occurrences batch).perform s).2.tables.rowsOf id = s.tables.rowsOf id := by
  rcases Store.command_tables s .addOccurrences (!batch.isEmpty)
    (fun t => t.addOccurrences batch) with hsame | hadd
  · exact congrArg (Tables.rowsOf · id) hsame
  · have hnone : (batch.filter fun o => o.constraintId = id) = [] := by
      rw [List.filter_eq_nil_iff]
      exact fun o ho heq => h o ho (of_decide_eq_true heq)
    have hrows := Tables.rowsOf_addOccurrences hadd id
    rw [hnone, List.map_nil, List.append_nil] at hrows
    exact hrows

theorem rowsOf_foldl_perform {ws : List PendingWrite}
    (h : ∀ w ∈ ws, ∃ batch, w = .occurrences batch ∧ ∀ o ∈ batch, o.constraintId ≠ id) :
    (ws.foldl (fun s w => (w.perform s).2) s).tables.rowsOf id = s.tables.rowsOf id := by
  induction ws generalizing s with
  | nil => rfl
  | cons w rest ih =>
    obtain ⟨⟨batch, rfl, hbatch⟩, hrest⟩ := List.forall_mem_cons.mp h
    exact (ih hrest).trans (rowsOf_perform hbatch)

/-- What waits for cached constraints names no other. -/
theorem WaitsForCached.ne_of_not_contains {l : Limiter} (h : l.WaitsForCached)
    (hid : l.cache.contains id = false) : ∀ w ∈ l.pending,
      ∃ batch, w = .occurrences batch ∧ ∀ o ∈ batch, o.constraintId ≠ id := by
  intro w hw
  obtain ⟨batch, rfl, hbatch⟩ := h w hw
  refine ⟨batch, rfl, fun o ho heq => ?_⟩
  rw [← heq, hbatch o ho] at hid
  cases hid

theorem WaitsForCached.occurrences {l : Limiter} (h : l.WaitsForCached) :
    ∀ w ∈ l.pending, ∃ batch, w = .occurrences batch := fun w hw =>
  let ⟨batch, hbatch, _⟩ := h w hw
  ⟨batch, hbatch⟩

theorem WaitsForCached.increment {l : Limiter} (h : l.WaitsForCached) (ids : List String)
    (now : Instant) : (l.checkAndIncrement ids now).2.WaitsForCached := by
  cases hover : l.isOver ids now with
  | true =>
    rw [checkAndIncrement_of_isOver hover]
    exact h
  | false =>
    intro w hw
    simp only [contains_checkAndIncrement]
    rw [checkAndIncrement_pending hover, List.mem_append] at hw
    rcases hw with hw | hw
    · exact h w hw
    · split at hw
      · cases hw
      · cases List.mem_singleton.mp hw
        refine ⟨_, rfl, fun o ho => ?_⟩
        obtain ⟨id, hid, rfl⟩ := List.mem_map.mp ho
        exact (List.mem_filter.mp hid).2

theorem WaitsForCached.prepare {l l' : Limiter} {s' : Store} {ids : List String}
    {answer : Except LimitError Unit} (h : l.WaitsForCached)
    (hprepare : l.prepare s ids = (answer, l', s')) : l'.WaitsForCached := by
  obtain ⟨-, hpending, -⟩ := prepare_spec hprepare
  intro w hw
  obtain ⟨batch, rfl, hbatch⟩ := h w (hpending ▸ hw)
  exact ⟨batch, rfl, fun o ho => contains_prepare hprepare (hbatch o ho)⟩

end Writing

namespace Service

variable {u v w : Service}

/-- A service whose store may lose occurrences, and nothing else, and whose queue holds occurrences
of cached constraints alone. -/
structure Sheltered (v : Service) : Prop where
  loses : v.store.LosesOnlyOccurrences
  waits : v.limiter.WaitsForCached

theorem sheltered_start {s : Store} (hs : s.LosesOnlyOccurrences) : (start s).Sheltered :=
  ⟨hs, List.forall_mem_nil _⟩

/-- Every request keeps a service sheltered. -/
theorem Sheltered.serve (h : v.Sheltered) (r : Request) : (v.serve r).2.Sheltered := by
  obtain ⟨hloses, hwaits⟩ := h
  cases r with
  | check ids now => exact ⟨hloses, hwaits⟩
  | increment ids now => exact ⟨hloses, hwaits.increment ids now⟩
  | prepare ids =>
    rcases hprepare : v.limiter.prepare v.store ids with ⟨answer, l', s'⟩
    simp only [Service.serve, hprepare]
    exact ⟨fun op hop => ((prepare_spec hprepare).1.allows op).mpr (hloses op hop),
      hwaits.prepare hprepare⟩
  | reconcile incoming =>
    rcases hset : v.limiter.setConstraints v.store incoming with ⟨answer, l', s'⟩
    simp only [Service.serve, hset]
    rcases setConstraints_cases hloses hwaits.occurrences hset with
      ⟨rfl, hread, -⟩ | ⟨-, -, -, -, -, rfl, -, hallows⟩
    · exact ⟨fun op hop => (hread.allows op).mpr (hloses op hop), hwaits⟩
    · exact ⟨fun op hop => (hallows op).mpr (hloses op hop), List.forall_mem_nil _⟩
  | drain =>
    obtain ⟨⟨cache, pending⟩, store⟩ := v
    cases pending with
    | nil => exact ⟨hloses, hwaits⟩
    | cons w rest =>
      obtain ⟨batch, rfl, -⟩ := hwaits w List.mem_cons_self
      exact ⟨fun op hop => ((perform_occurrences batch store).2 op).mpr (hloses op hop),
        fun w' hw' => hwaits w' (List.mem_cons_of_mem _ hw')⟩
  | flush =>
    simp only [Service.serve, flush, performAll_store]
    exact ⟨fun op hop => ((foldl_perform_occurrences hwaits.occurrences v.store).2 op).mpr
      (hloses op hop), List.forall_mem_nil _⟩

/-! ## Agreement -/

/-- Services that agree on all that a request can see: the cache, what is defined, and the rows of
what is not cached. -/
structure Alike (v w : Service) : Prop where
  cache : v.limiter.cache = w.limiter.cache
  constraints : v.store.tables.constraints = w.store.tables.constraints
  rows : ∀ id, v.limiter.cache.contains id = false →
    v.store.tables.rowsOf id = w.store.tables.rowsOf id

theorem Alike.refl (v : Service) : v.Alike v := ⟨rfl, rfl, fun _ _ => rfl⟩

theorem Alike.symm (h : v.Alike w) : w.Alike v :=
  ⟨h.cache.symm, h.constraints.symm, fun id hid => (h.rows id (h.cache ▸ hid)).symm⟩

theorem Alike.trans (h : u.Alike v) (h' : v.Alike w) : u.Alike w :=
  ⟨h.cache.trans h'.cache, h.constraints.trans h'.constraints,
    fun id hid => (h.rows id hid).trans (h'.rows id (h.cache ▸ hid))⟩

/-- Nobody sees the writer at work. -/
theorem Sheltered.alike_drain (h : v.Sheltered) : (v.serve .drain).2.Alike v := by
  obtain ⟨⟨cache, pending⟩, store⟩ := v
  cases pending with
  | nil => exact .refl _
  | cons w rest =>
    obtain ⟨batch, rfl, -⟩ := h.waits w List.mem_cons_self
    refine ⟨rfl, (perform_occurrences batch store).1, fun id hid => ?_⟩
    obtain ⟨_, heq, hbatch⟩ := h.waits.ne_of_not_contains hid _ List.mem_cons_self
    cases heq
    exact rowsOf_perform hbatch

theorem Sheltered.alike_flush (h : v.Sheltered) : (v.serve .flush).2.Alike v := by
  simp only [Service.serve, flush, performAll_store]
  exact ⟨rfl, (foldl_perform_occurrences h.waits.occurrences v.store).1,
    fun id hid => rowsOf_foldl_perform (h.waits.ne_of_not_contains hid)⟩

/-- An increment looks at the cache alone and changes it alone. -/
theorem Alike.increment (h : v.Alike w) (ids : List String) (now : Instant) :
    (v.serve (.increment ids now)).1 = (w.serve (.increment ids now)).1 ∧
      (v.serve (.increment ids now)).2.Alike (w.serve (.increment ids now)).2 := by
  have hover : v.limiter.isOver ids now = w.limiter.isOver ids now := by
    simp only [Limiter.isOver, h.cache]
  refine ⟨?_, ⟨?_, h.constraints, fun id hid => h.rows id ?_⟩⟩
  · show Reply.decision (v.limiter.checkAndIncrement ids now).1 =
      .decision (w.limiter.checkAndIncrement ids now).1
    rw [checkAndIncrement_fst, checkAndIncrement_fst, hover]
  · show (v.limiter.checkAndIncrement ids now).2.cache = (w.limiter.checkAndIncrement ids now).2.cache
    cases hv : v.limiter.isOver ids now with
    | true =>
      rw [checkAndIncrement_of_isOver hv, checkAndIncrement_of_isOver (hover ▸ hv), h.cache]
    | false =>
      refine Table.eq_of_get?_eq fun id => ?_
      rw [get?_checkAndIncrement hv, get?_checkAndIncrement (hover ▸ hv), h.cache]
  · rw [← contains_checkAndIncrement v.limiter ids now]
    exact hid

/-- A new checker is the same for both: what it loads is not cached. -/
theorem Alike.prepare (h : v.Alike w) (hv : v.Sheltered) (hw : w.Sheltered) (ids : List String) :
    (v.serve (.prepare ids)).1 = (w.serve (.prepare ids)).1 ∧
      (v.serve (.prepare ids)).2.Alike (w.serve (.prepare ids)).2 := by
  have hload : (loadAll (ids.filter fun id => !v.limiter.cache.contains id) v.store).1 =
      (loadAll (ids.filter fun id => !w.limiter.cache.contains id) w.store).1 := by
    rw [loadAll_eq_mapM hv.loses, loadAll_eq_mapM hw.loses, ← h.cache]
    refine Tables.mapM_load_congr fun id hid => Tables.load_congr h.constraints (h.rows id ?_)
    simpa using (List.mem_filter.mp hid).2
  rcases hloadv : loadAll (ids.filter fun id => !v.limiter.cache.contains id) v.store with
    ⟨answer, s₁⟩
  rcases hloadw : loadAll (ids.filter fun id => !w.limiter.cache.contains id) w.store with
    ⟨answer', s₂⟩
  rw [hloadv, hloadw] at hload
  dsimp only at hload
  subst hload
  have hs₁ := (isReadOf_loadAll hloadv).tables
  have hs₂ := (isReadOf_loadAll hloadw).tables
  cases answer with
  | error e =>
    simp only [Service.serve, Limiter.prepare, hloadv, hloadw]
    exact ⟨trivial, h.cache, by rw [hs₁, hs₂, h.constraints], by
      rw [hs₁, hs₂]
      exact h.rows⟩
  | ok es =>
    simp only [Service.serve, Limiter.prepare, hloadv, hloadw]
    refine ⟨trivial, by rw [h.cache], by rw [hs₁, hs₂, h.constraints], fun id hid => ?_⟩
    rw [hs₁, hs₂]
    refine h.rows id ?_
    rw [Table.contains, get?_foldl_addEntry, Option.isSome_or, Bool.or_eq_false_iff] at hid
    exact hid.1

/-- What a list leaves of a constraint that it does not delete was not cached before either. -/
theorem not_contains_of_applyToCache {d : Difference} {cache : Table String CacheEntry} {id : String}
    (h : (d.applyToCache cache).contains id = false) (hid : id ∉ d.delete) :
    cache.contains id = false := by
  rwa [Table.contains, get?_applyToCache, if_neg hid, Option.isSome_map] at h

/-- A list that cannot be compared leaves the cache and the tables. -/
theorem Sheltered.reconcile_of_error (h : v.Sheltered) {e : StorageError}
    (hstored : v.store.tables.allConstraints = .error e) (incoming : List Constraint) :
    (v.serve (.reconcile incoming)).2.limiter.cache = v.limiter.cache ∧
      (v.serve (.reconcile incoming)).2.store.tables = v.store.tables := by
  rcases hset : v.limiter.setConstraints v.store incoming with ⟨answer, l', s'⟩
  simp only [Service.serve, hset]
  rcases setConstraints_cases h.loses h.waits.occurrences hset with
    ⟨rfl, hread, -⟩ | ⟨stored, -, hok, -⟩
  · exact ⟨rfl, hread.tables⟩
  · rw [hstored] at hok
    cases hok

/-- Any other changes the cache and the definitions by the difference.  What is not cached then has
no rows if the difference deletes or clears it, and the rows from before if it does not. -/
theorem Sheltered.reconcile_of_ok (h : v.Sheltered) {stored : List Constraint}
    (hstored : v.store.tables.allConstraints = .ok stored) (incoming : List Constraint) :
    let d := Difference.between stored incoming
    let after := (v.serve (.reconcile incoming)).2
    after.limiter.cache = d.applyToCache v.limiter.cache ∧
      after.store.tables.constraints = (d.applyToTables v.store.tables).constraints ∧
      ∀ id, after.limiter.cache.contains id = false →
        after.store.tables.rowsOf id =
          if id ∈ d.delete ∨ id ∈ d.reset then [] else v.store.tables.rowsOf id := by
  rcases hset : v.limiter.setConstraints v.store incoming with ⟨answer, l', s'⟩
  simp only [Service.serve, hset]
  rcases setConstraints_cases h.loses h.waits.occurrences hset with
    ⟨-, -, -, -, hunread⟩ | ⟨stored', s₁, hstored', hs₁, -, rfl, htables, -⟩
  · have hanswer : v.store.readConstraints.1 = .ok stored :=
      (Store.query_answer (h.loses .readConstraints (by decide))).trans hstored
    rw [hanswer] at hunread
    cases hunread
  · rw [hstored] at hstored'
    cases hstored'
    have hrows := (foldl_perform_occurrences h.waits.occurrences s₁).1
    refine ⟨rfl, ?_, fun id hid => ?_⟩
    · rw [htables]
      exact Tables.constraints_applyToTables_congr (by rw [hrows, hs₁.tables]) _
    · rw [htables, Tables.rowsOf_applyToTables]
      split
      · rfl
      · next hkept =>
        have hbefore := not_contains_of_applyToCache hid fun hd => hkept (Or.inl hd)
        rw [rowsOf_foldl_perform (h.waits.ne_of_not_contains hbefore), hs₁.tables]

/-- A list takes from both caches the same, and from both tables what it takes from the caches. -/
theorem Alike.reconcile (h : v.Alike w) (hv : v.Sheltered) (hw : w.Sheltered)
    (incoming : List Constraint) :
    (v.serve (.reconcile incoming)).1 = (w.serve (.reconcile incoming)).1 ∧
      (v.serve (.reconcile incoming)).2.Alike (w.serve (.reconcile incoming)).2 := by
  have hsame : v.store.tables.allConstraints = w.store.tables.allConstraints := by
    rw [Tables.allConstraints, Tables.allConstraints, h.constraints]
  refine ⟨?_, ?_⟩
  · show Reply.outcome (v.limiter.setConstraints v.store incoming).1 =
      .outcome (w.limiter.setConstraints w.store incoming).1
    rw [setConstraints_answer hv.loses hv.waits.occurrences,
      setConstraints_answer hw.loses hw.waits.occurrences, hsame]
  · cases hstored : v.store.tables.allConstraints with
    | error e =>
      obtain ⟨hcache, htables⟩ := hv.reconcile_of_error hstored incoming
      obtain ⟨hcache', htables'⟩ := hw.reconcile_of_error (hsame ▸ hstored) incoming
      refine ⟨by rw [hcache, hcache', h.cache], by rw [htables, htables', h.constraints],
        fun id hid => ?_⟩
      rw [htables, htables']
      exact h.rows id (hcache ▸ hid)
    | ok stored =>
      obtain ⟨hcache, hconstraints, hrows⟩ := hv.reconcile_of_ok hstored incoming
      obtain ⟨hcache', hconstraints', hrows'⟩ := hw.reconcile_of_ok (hsame ▸ hstored) incoming
      rw [← h.cache, ← hcache] at hcache'
      refine ⟨hcache'.symm, ?_, fun id hid => ?_⟩
      · rw [hconstraints, hconstraints']
        exact Tables.constraints_applyToTables_congr h.constraints _
      · rw [hrows id hid, hrows' id (hcache' ▸ hid)]
        split
        · rfl
        · next hkept =>
          rw [hcache] at hid
          exact h.rows id (not_contains_of_applyToCache hid fun hd => hkept (Or.inl hd))

/-- Services that agree answer alike and go on to agree. -/
theorem Alike.serve (h : v.Alike w) (hv : v.Sheltered) (hw : w.Sheltered) (r : Request) :
    (v.serve r).1 = (w.serve r).1 ∧ (v.serve r).2.Alike (w.serve r).2 := by
  cases r with
  | check ids now =>
    refine ⟨?_, h⟩
    simp only [Service.serve, Limiter.isOver, h.cache]
  | increment ids now => exact h.increment ids now
  | prepare ids => exact h.prepare hv hw ids
  | reconcile incoming => exact h.reconcile hv hw incoming
  | drain => exact ⟨rfl, hv.alike_drain.trans (h.trans hw.alike_drain.symm)⟩
  | flush => exact ⟨rfl, hv.alike_flush.trans (h.trans hw.alike_flush.symm)⟩

end Service

/-! ## Whole runs -/

/-- Whether a request is the writer's work, for which nobody asks. -/
def Request.isDrain : Request → Bool
  | .drain => true
  | _ => false

namespace Service

variable {v w : Service}

/-- What a run answers to those who ask. -/
def answers : Service → List Request → List Reply
  | _, [] => []
  | v, r :: rs => (if r.isDrain then [] else [(v.serve r).1]) ++ answers (v.serve r).2 rs

/-- Services that agree answer alike whether the writer works in between or not. -/
theorem Alike.answers_eq_filter (h : v.Alike w) (hv : v.Sheltered) (hw : w.Sheltered)
    (rs : List Request) : v.answers rs = w.answers (rs.filter fun r => !r.isDrain) := by
  induction rs generalizing v w with
  | nil => rfl
  | cons r rs ih =>
    cases hdrain : r.isDrain with
    | true =>
      cases r <;> cases hdrain
      exact ih (hv.alike_drain.trans h) (hv.serve .drain) hw
    | false =>
      obtain ⟨hreply, hafter⟩ := h.serve hv hw r
      rw [List.filter_cons_of_pos (by rw [hdrain]; rfl), answers, answers, hreply,
        ih hafter (hv.serve r) (hw.serve r)]

/-- **Occurrences that are lost change no answer.**  Two limiters over stores with the same tables,
in which writing occurrences may fail at any time and nothing else, answer the same requests alike,
whichever writes fail and whenever the writer works. -/
theorem answers_eq_of_losses {s s' : Store} (hs : s.LosesOnlyOccurrences)
    (hs' : s'.LosesOnlyOccurrences) (htables : s.tables = s'.tables) {rs rs' : List Request}
    (hsame : (rs.filter fun r => !r.isDrain) = rs'.filter fun r => !r.isDrain) :
    (start s).answers rs = (start s').answers rs' := by
  have hv := sheltered_start hs
  have hw := sheltered_start hs'
  have halike : (start s).Alike (start s') := by
    refine ⟨rfl, congrArg Tables.constraints htables, fun id _ => ?_⟩
    exact congrArg (Tables.rowsOf · id) htables
  rw [halike.answers_eq_filter hv hw, hsame, ← (Alike.refl (start s')).answers_eq_filter hw hw]

/-! ## Two runs -/

/-- The store of `usedOnce`, but every occurrence is lost. -/
def usedInVain : Store :=
  { usedOnce with plan := fun _ op => if op = .addOccurrences then some (.refused "full") else none }

theorem losesOnlyOccurrences_usedInVain : usedInVain.LosesOnlyOccurrences :=
  fun _ hop => ⟨rfl, fun _ => if_neg hop⟩

/-- A constraint is used and used up, deleted, defined again and loaded again. -/
def comingBack : List Request :=
  [.prepare ["a"], .increment ["a"] (.ofMillis 2000), .check ["a"] (.ofMillis 2500), .reconcile [],
    .increment ["a"] (.ofMillis 2500), .reconcile [⟨"a", .ofMillis 1000, 1⟩], .prepare ["a"],
    .increment ["a"] (.ofMillis 2600), .increment ["a"] (.ofMillis 2700), .flush]

/-- The same, and the writer works before the constraint is deleted and after it was used again. -/
def comingBackWritten : List Request :=
  [.prepare ["a"], .increment ["a"] (.ofMillis 2000), .drain, .check ["a"] (.ofMillis 2500),
    .reconcile [], .increment ["a"] (.ofMillis 2500), .reconcile [⟨"a", .ofMillis 1000, 1⟩],
    .prepare ["a"], .increment ["a"] (.ofMillis 2600), .drain, .increment ["a"] (.ofMillis 2700),
    .flush]

/-- Both runs answer the same, and their tables differ in the end. -/
theorem answers_comingBack :
    (start usedOnce).answers comingBackWritten = (start usedInVain).answers comingBack ∧
      (start usedInVain).answers comingBack =
        [.outcome (.ok ()), .decision true, .decision true, .outcome (.ok ()), .decision true,
          .outcome (.ok ()), .outcome (.ok ()), .decision true, .decision false, .silence] ∧
      ((start usedOnce).run comingBackWritten).store.tables.rowsOf "a" = [⟨"a", 2600⟩] ∧
      ((start usedInVain).run comingBack).store.tables.rowsOf "a" = [] := by
  exact ⟨answers_eq_of_losses (Store.isReliable_ofTables _).losesOnlyOccurrences
    losesOnlyOccurrences_usedInVain rfl rfl, rfl, by decide, by decide⟩

end Service

end Limiter
end Automation
