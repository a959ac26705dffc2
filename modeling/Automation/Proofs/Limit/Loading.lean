import Automation.Proofs.Limit.Reconcile
import Automation.Proofs.Time.Millis

/-!
# What a limiter would load

A constraint enters the cache with the definition and the history that the tables have for it, or
not at all.  `Tables.loaded?` is that as a function of the tables: the entry, or nothing where the
constraint is not defined or something about it cannot be read.  Where the store refuses no reading,
`load` gives this entry and fails exactly where there is none.
-/

namespace Automation

namespace Tables

/-- The times of the occurrences of one constraint, as far as they can be read, in the order in
which they were added. -/
def timesOf (t : Tables) (id : String) : List Instant :=
  (t.occurrences.filter fun row => row.constraintId = id).filterMap fun row =>
    Instant.ofMillis? row.millis

/-- All occurrences of one constraint can be read. -/
def IsReadableFor (t : Tables) (id : String) : Prop :=
  ∀ row ∈ t.occurrences, row.constraintId = id → (Instant.ofMillis? row.millis).isSome = true

/-- The constraint and history that a limiter would load. -/
def loaded? (t : Tables) (id : String) : Option CacheEntry :=
  match t.constraint? id, t.occurrencesOf id with
  | .ok (some c), .ok os => some ⟨c, sortBy Instant.rank (os.map (·.time))⟩
  | _, _ => none

variable {t : Tables} {id : String}

theorem isPlain_of_mem_timesOf {time : Instant} (h : time ∈ t.timesOf id) : time.IsPlain := by
  obtain ⟨row, -, hrow⟩ := List.mem_filterMap.mp h
  exact Instant.isPlain_of_ofMillis? hrow

/-- Rows are read one by one, and the first bad one fails all. -/
theorem mapM_occurrenceOfRow {rows : List OccurrenceRow} {os : List Occurrence} :
    rows.mapM occurrenceOfRow = .ok os ↔ rows.map occurrenceOfRow = os.map .ok := by
  induction rows generalizing os with
  | nil =>
    cases os with
    | nil => exact iff_of_true rfl rfl
    | cons o rest => exact iff_of_false (fun h => by cases h) (fun h => by cases h)
  | cons row rest ih =>
    rw [List.mapM_cons, List.map_cons]
    cases hrow : occurrenceOfRow row with
    | error e =>
      refine iff_of_false (fun h => by cases h) fun h => ?_
      cases os with
      | nil => cases h
      | cons o more => cases h
    | ok o =>
      cases hrest : rest.mapM occurrenceOfRow with
      | error e =>
        refine iff_of_false (fun h => by cases h) fun h => ?_
        cases os with
        | nil => cases h
        | cons o' more =>
          rw [ih.mpr (List.cons.inj h).2] at hrest
          cases hrest
      | ok os' =>
        have hmore := ih.mp hrest
        constructor
        · intro h
          cases h
          rw [hmore, List.map_cons]
        · intro h
          cases os with
          | nil => cases h
          | cons o' more =>
            obtain ⟨ho, htail⟩ := List.cons.inj h
            rw [ih.mpr htail] at hrest
            cases hrest
            cases ho
            rfl

theorem occurrenceOfRow_eq_ok_iff {row : OccurrenceRow} {o : Occurrence} :
    occurrenceOfRow row = .ok o ↔
      o.constraintId = row.constraintId ∧ Instant.ofMillis? row.millis = some o.time := by
  rw [occurrenceOfRow]
  cases hread : Instant.ofMillis? row.millis with
  | none => exact iff_of_false (fun h => by cases h) (fun h => by cases h.2)
  | some time =>
    constructor
    · intro h
      cases h
      exact ⟨rfl, rfl⟩
    · rintro ⟨hid, htime⟩
      cases htime
      rw [← hid]

/-- A history that is read consists of the times of all its rows. -/
theorem perm_timesOf {os : List Occurrence} (h : t.occurrencesOf id = .ok os) :
    t.IsReadableFor id ∧ (os.map (·.time)).Perm (t.timesOf id) := by
  have hperm : (t.history id).Perm (t.occurrences.filter fun row => row.constraintId = id) :=
    perm_sortBy _ _
  rw [occurrencesOf, mapM_occurrenceOfRow] at h
  have hread : ∀ (rows : List OccurrenceRow) (os : List Occurrence),
      rows.map occurrenceOfRow = os.map .ok →
        (∀ row ∈ rows, (Instant.ofMillis? row.millis).isSome = true) ∧
          os.map (·.time) = rows.filterMap fun row => Instant.ofMillis? row.millis := by
    intro rows
    induction rows with
    | nil =>
      intro os h
      cases os with
      | nil => exact ⟨List.forall_mem_nil _, rfl⟩
      | cons o rest => cases h
    | cons row rest ih =>
      intro os h
      cases os with
      | nil => cases h
      | cons o more =>
        obtain ⟨ho, htail⟩ := List.cons.inj h
        obtain ⟨hall, htimes⟩ := ih more htail
        have htime := (occurrenceOfRow_eq_ok_iff.mp ho).2
        refine ⟨?_, ?_⟩
        · rw [List.forall_mem_cons]
          exact ⟨htime ▸ rfl, hall⟩
        · rw [List.map_cons, List.filterMap_cons, htime, htimes]
  obtain ⟨hall, htimes⟩ := hread _ _ h
  refine ⟨fun row hrow hid => hall row (hperm.mem_iff.mpr ?_), htimes ▸ hperm.filterMap _⟩
  exact List.mem_filter.mpr ⟨hrow, decide_eq_true hid⟩

/-- A history is read if all its rows can be. -/
theorem exists_occurrencesOf (h : t.IsReadableFor id) : ∃ os, t.occurrencesOf id = .ok os := by
  have hall : ∀ row ∈ t.history id, ∃ o, occurrenceOfRow row = .ok o := by
    intro row hrow
    obtain ⟨hmem, hid⟩ := List.mem_filter.mp ((perm_sortBy _ _).mem_iff.mp hrow)
    obtain ⟨time, htime⟩ := Option.isSome_iff_exists.mp (h row hmem (of_decide_eq_true hid))
    exact ⟨⟨row.constraintId, time⟩, occurrenceOfRow_eq_ok_iff.mpr ⟨rfl, htime⟩⟩
  rw [occurrencesOf]
  generalize t.history id = rows at hall
  induction rows with
  | nil => exact ⟨[], rfl⟩
  | cons row rest ih =>
    obtain ⟨o, ho⟩ := hall row List.mem_cons_self
    obtain ⟨os, hos⟩ := ih fun r hr => hall r (List.mem_cons_of_mem _ hr)
    refine ⟨o :: os, mapM_occurrenceOfRow.mpr ?_⟩
    rw [List.map_cons, List.map_cons, ho, mapM_occurrenceOfRow.mp hos]

/-- What a loaded entry is. -/
theorem loaded?_spec {e : CacheEntry} (h : t.loaded? id = some e) :
    t.constraint? id = .ok (some e.constraint) ∧ t.IsReadableFor id ∧
      e.times.Pairwise (· ≤ ·) ∧ e.times.Perm (t.timesOf id) := by
  rw [loaded?] at h
  split at h
  · next c os hc hos =>
    cases h
    obtain ⟨hreadable, hperm⟩ := perm_timesOf hos
    exact ⟨hc, hreadable, sorted_sortBy Instant.rank _, (perm_sortBy _ _).trans hperm⟩
  · cases h

theorem exists_loaded? {c : Constraint} (hc : t.constraint? id = .ok (some c))
    (h : t.IsReadableFor id) : ∃ e, t.loaded? id = some e ∧ e.constraint = c := by
  obtain ⟨os, hos⟩ := exists_occurrencesOf h
  rw [loaded?, hc, hos]
  exact ⟨_, rfl, rfl⟩

/-- What would be loaded depends on the definition and the occurrences of the constraint alone. -/
theorem loaded?_congr {t' : Tables} (hconstraints : t'.constraints = t.constraints)
    (hoccurrences : (t'.occurrences.filter fun row => row.constraintId = id) =
      t.occurrences.filter fun row => row.constraintId = id) : t'.loaded? id = t.loaded? id := by
  simp only [loaded?, constraint?, occurrencesOf, history, hconstraints, hoccurrences]

end Tables

namespace Limiter

theorem isLoaded_iff {t : Tables} {e : CacheEntry} :
    IsLoaded t e ↔ t.loaded? e.constraint.id = some e := by
  constructor
  · rintro ⟨hc, os, hos, htimes⟩
    rw [Tables.loaded?, hc, hos]
    exact congrArg some (by rw [← htimes])
  · intro h
    rw [Tables.loaded?] at h
    split at h
    · next c os hc hos =>
      have hconstraint := congrArg CacheEntry.constraint (Option.some.inj h)
      have htimes := congrArg CacheEntry.times (Option.some.inj h)
      exact ⟨hconstraint ▸ hc, os, hos, htimes.symm⟩
    · cases h

/-- Where nothing is refused, loading gives what the tables say, if they say anything. -/
theorem load_of_loaded? {s : Store} (hc : s.Allows .readConstraint) (ho : s.Allows .readOccurrences)
    {id : String} {e : CacheEntry} (h : s.tables.loaded? id = some e) :
    ∃ s', load id s = (.ok e, s') := by
  rw [Tables.loaded?] at h
  split at h
  · next c os hconstraint hos =>
    cases h
    have hfirst : (s.readConstraint id).1 = .ok (some c) :=
      (Store.query_answer hc).trans hconstraint
    rcases hread : s.readConstraint id with ⟨answer, s₁⟩
    have hs₁ : s₁.IsReadOf s := Store.isReadOf_query hread
    rw [hread] at hfirst
    cases hfirst
    have hsecond : (s₁.readOccurrences id).1 = .ok os := by
      rw [← hos, ← hs₁.tables]
      exact Store.query_answer ((hs₁.allows _).mpr ho)
    rcases hread' : s₁.readOccurrences id with ⟨answer, s₂⟩
    rw [hread'] at hsecond
    cases hsecond
    rw [load, hread]
    simp only [hread']
    exact ⟨s₂, rfl⟩
  · cases h

theorem loadAll_of_loaded? {ids : List String} {s : Store} (hc : s.Allows .readConstraint)
    (ho : s.Allows .readOccurrences) (h : ∀ id ∈ ids, (s.tables.loaded? id).isSome = true) :
    ∃ es s', loadAll ids s = (.ok es, s') := by
  induction ids generalizing s with
  | nil => exact ⟨[], s, rfl⟩
  | cons id rest ih =>
    obtain ⟨e, he⟩ := Option.isSome_iff_exists.mp (h id List.mem_cons_self)
    obtain ⟨s₁, hload⟩ := load_of_loaded? hc ho he
    have hs₁ := isReadOf_load hload
    obtain ⟨es, s₂, hrest⟩ := ih ((hs₁.allows _).mpr hc) ((hs₁.allows _).mpr ho) fun id' hid' => by
      rw [hs₁.tables]
      exact h id' (List.mem_cons_of_mem _ hid')
    rw [loadAll, hload]
    simp only [hrest]
    exact ⟨_, _, rfl⟩

end Limiter
end Automation
