import Automation.Proofs.Limit.Reconcile

/-!
# Cached definitions are the stored ones

A reconciliation carries out the same lists on the cache and on the tables, so whatever the list of
new definitions looks like, ids repeated or not, the two arrive at the same definitions.

* `Backed`: every cached definition is the stored one.
* `Service.Consistent`: the invariant of a service whose store loses nothing but occurrences;
  `Service.consistent_run` keeps it along every run.
* `Service.get?_serve_reconcile`: a list that names a cached constraint without changing it leaves
  it cached as it was, history included.

## In what sense the stored one

A row holds whole milliseconds up to a largest value.  A cached definition was either read from its
row or is what the row was made from, and only in the first case does reading give it back for sure.
It does in both cases for the definitions a row can hold (`Constraint.IsStorable`), and these are
the ones that a list can name again without changing them.
-/

namespace Automation

/-- A range that a row holds exactly: whole milliseconds, and not too many. -/
def Constraint.IsStorable (c : Constraint) : Prop :=
  ∃ millis ≤ Tables.longestRange, c.range = Span.ofMillis millis

namespace Constraint

/-- A definition as its row has it: the range is rounded down to milliseconds. -/
def asStored (c : Constraint) : Constraint := { c with range := .ofMillis c.range.toMillis }

/-- A definition that a row has room for. -/
structure Fits (c : Constraint) : Prop where
  range : c.range.toMillis ≤ Tables.longestRange
  count : c.count ≤ 0xffffffff

instance (c : Constraint) : Decidable c.Fits :=
  decidable_of_iff (c.range.toMillis ≤ Tables.longestRange ∧ c.count ≤ 0xffffffff)
    ⟨fun h => ⟨h.1, h.2⟩, fun h => ⟨h.range, h.count⟩⟩

@[simp] theorem asStored_id (c : Constraint) : c.asStored.id = c.id := rfl

@[simp] theorem asStored_count (c : Constraint) : c.asStored.count = c.count := rfl

/-- A range of whole milliseconds stays as it is. -/
theorem asStored_of_eq {c : Constraint} {millis : Nat} (h : c.range = .ofMillis millis) :
    c.asStored = c := by
  rw [asStored, h, Span.toMillis_ofMillis, ← h]

@[simp] theorem asStored_asStored (c : Constraint) : c.asStored.asStored = c.asStored :=
  asStored_of_eq rfl

/-- What a row has room for is read back up to rounding. -/
theorem Fits.constraintOfRow {c : Constraint} (h : c.Fits) :
    Tables.constraintOfRow c.id (Tables.rowOfConstraint c) = .ok c.asStored := by
  have hcount := h.count
  rw [Tables.rowOfConstraint, if_pos h.range, Tables.constraintOfRow, if_neg (by simp),
    if_neg (by simp; omega)]
  rfl

end Constraint

/-- A row can be read whatever it was made from, if the count has room. -/
theorem Tables.exists_constraintOfRow {c : Constraint} (hcount : c.count ≤ 0xffffffff)
    (id : String) : ∃ c', constraintOfRow id (rowOfConstraint c) = .ok c' := by
  unfold rowOfConstraint constraintOfRow
  rw [if_neg (by split <;> simp), if_neg (by simp; omega)]
  exact ⟨_, rfl⟩

/-- What is read of a definition is rounded already. -/
theorem Tables.asStored_of_constraintOfRow {id : String} {row : ConstraintRow} {c : Constraint}
    (h : constraintOfRow id row = .ok c) : c.asStored = c := by
  rw [constraintOfRow] at h
  split at h
  · cases h
  · split at h
    · cases h
    · cases h
      exact Constraint.asStored_of_eq rfl

/-- The stored list is read row by row. -/
theorem Tables.forall₂_of_allConstraints {t : Tables} {stored : List Constraint}
    (h : t.allConstraints = .ok stored) :
    List.Forall₂ (fun e c => constraintOfRow e.1 e.2 = .ok c) t.constraints.entries stored := by
  rw [allConstraints] at h
  generalize t.constraints.entries = entries at h ⊢
  induction entries generalizing stored with
  | nil =>
    cases h
    exact .nil
  | cons e rest ih =>
    rw [List.mapM_cons] at h
    cases hread : constraintOfRow e.1 e.2 with
    | error err =>
      rw [hread] at h
      cases h
    | ok first =>
      rw [hread] at h
      cases hmore : rest.mapM fun e => constraintOfRow e.1 e.2 with
      | error err =>
        rw [hmore] at h
        cases h
      | ok more =>
        rw [hmore] at h
        cases h
        exact .cons hread (ih hmore)

namespace Limiter

/-- Every cached definition stands under its own id and is the stored one: it was read from its row,
or the row was made from it. -/
def Backed (cache : Table String CacheEntry) (rows : Table String ConstraintRow) : Prop :=
  ∀ id e, cache.get? id = some e → e.constraint.id = id ∧ ∃ row, rows.get? id = some row ∧
    (Tables.constraintOfRow id row = .ok e.constraint ∨ row = Tables.rowOfConstraint e.constraint)

/-! ## What keeps definitions backed -/

section Backed

variable {cache cache' : Table String CacheEntry} {rows : Table String ConstraintRow}

theorem backed_empty (rows : Table String ConstraintRow) : Backed .empty rows := by
  intro id e h
  rw [Table.get?_empty] at h
  cases h

/-- Histories do not matter. -/
theorem Backed.of_constraint_eq (h : Backed cache rows)
    (heq : ∀ id, (cache'.get? id).map CacheEntry.constraint =
      (cache.get? id).map CacheEntry.constraint) : Backed cache' rows := by
  intro id e he
  have hsame := heq id
  rw [he, Option.map_some] at hsame
  obtain ⟨e₀, he₀, hc⟩ := Option.map_eq_some_iff.mp hsame.symm
  rw [← hc]
  exact h id e₀ he₀

/-- What is loaded is read from its row. -/
theorem Backed.addEntries (h : Backed cache rows) {t : Tables} (ht : t.constraints = rows)
    {es : List CacheEntry} (hes : ∀ e ∈ es, IsLoaded t e) :
      Backed (es.foldl addEntry cache) rows := by
  intro id e he
  rw [get?_foldl_addEntry, Option.or_eq_some_iff] at he
  rcases he with he | ⟨-, he⟩
  · exact h id e he
  · have hid : e.constraint.id = id := by simpa using List.find?_some he
    have hload := (hes e (List.mem_of_find?_eq_some he)).definition
    rw [hid] at hload
    obtain ⟨row, hrow, hread⟩ := exists_row_of_constraint? hload
    exact ⟨hid, row, ht ▸ hrow, Or.inl hread⟩

/-- A deleted row goes together with its entry. -/
theorem Backed.delete (h : Backed cache rows) (ids : List String) :
    Backed (ids.foldl Table.erase cache) (rows.filter fun id _ => !ids.contains id) := by
  intro id e he
  rw [get?_foldl_erase] at he
  split at he
  · cases he
  · next hnot =>
    obtain ⟨hid, row, hrow, hread⟩ := h id e he
    refine ⟨hid, row, ?_, hread⟩
    rw [Table.get?_filter_key rows (fun id => !ids.contains id), if_pos (by simpa using hnot), hrow]

/-- A row and its entry are redefined together. -/
theorem Backed.redefine (h : Backed cache rows) (c : Constraint) :
    Backed (Limiter.redefine cache c) (rows.insert c.id (Tables.rowOfConstraint c)) := by
  intro id e he
  rw [Limiter.redefine, Table.get?_modify] at he
  rw [Table.get?_insert]
  by_cases hid : id = c.id
  · rw [if_pos hid] at he ⊢
    obtain ⟨e₀, -, rfl⟩ := Option.map_eq_some_iff.mp he
    exact ⟨hid.symm, _, rfl, Or.inr rfl⟩
  · rw [if_neg hid] at he ⊢
    exact h id e he

theorem Backed.redefineAll (cs : List Constraint) {t : Tables} (h : Backed cache t.constraints) :
    Backed (cs.foldl Limiter.redefine cache) (cs.foldl Tables.putConstraint t).constraints := by
  induction cs generalizing cache t with
  | nil => exact h
  | cons c rest ih => exact ih (h.redefine c)

/-- Cache and tables stay in step under one difference. -/
theorem Backed.applyDifference {t : Tables} (h : Backed cache t.constraints) (d : Difference) :
    Backed (d.applyToCache cache) (d.applyToTables t).constraints := by
  have hdeleted : Backed (d.delete.foldl Table.erase cache)
      ((t.deleteConstraints d.delete).deleteOccurrences d.reset).constraints := h.delete d.delete
  refine (hdeleted.redefineAll d.upsert).of_constraint_eq fun id => ?_
  rw [Difference.applyToCache, get?_foldl_clear]
  split
  · rw [Option.map_map]
    rfl
  · rfl

end Backed

/-! ## The invariant of a service -/

/-- What holds of a service between requests: only occurrences wait to be written, and cached
definitions are the stored ones. -/
structure Service.Consistent (v : Service) : Prop where
  losesOnlyOccurrences : v.store.LosesOnlyOccurrences
  pending : ∀ w ∈ v.limiter.pending, ∃ batch, w = .occurrences batch
  backed : Backed v.limiter.cache v.store.tables.constraints

namespace Service

theorem consistent_start {s : Store} (hs : s.LosesOnlyOccurrences) : (start s).Consistent where
  losesOnlyOccurrences := hs
  pending _ hw := absurd hw List.not_mem_nil
  backed := backed_empty _


/-- Every request keeps the invariant. -/
theorem consistent_serve (v : Service) (r : Request) (h : v.Consistent) :
    (v.serve r).2.Consistent := by
  obtain ⟨hs, hp, hb⟩ := h
  cases r with
  | check ids now => exact ⟨hs, hp, hb⟩
  | increment ids now =>
    refine ⟨hs, ?_, hb.of_constraint_eq fun id => get?_checkAndIncrement_constraint id⟩
    cases hover : v.limiter.isOver ids now with
    | true =>
      intro w hw
      change w ∈ (v.limiter.checkAndIncrement ids now).2.pending at hw
      rw [checkAndIncrement_of_isOver hover] at hw
      exact hp w hw
    | false =>
      intro w hw
      change w ∈ (v.limiter.checkAndIncrement ids now).2.pending at hw
      rw [checkAndIncrement_pending hover, List.mem_append] at hw
      rcases hw with hw | hw
      · exact hp w hw
      · split at hw
        · cases hw
        · exact ⟨_, List.mem_singleton.mp hw⟩
  | prepare ids =>
    rcases hprep : v.limiter.prepare v.store ids with ⟨answer, l', s'⟩
    obtain ⟨hread, hpending, es, hes, hcache⟩ := prepare_spec hprep
    simp only [serve, hprep]
    refine ⟨fun op hop => (hread.allows op).mpr (hs op hop), by rw [hpending]; exact hp, ?_⟩
    rw [hcache, hread.tables]
    exact hb.addEntries rfl hes
  | reconcile constraints =>
    rcases hset : v.limiter.setConstraints v.store constraints with ⟨answer, l', s'⟩
    simp only [serve, hset]
    rcases setConstraints_cases hs hp hset with
      ⟨rfl, hread, -⟩ | ⟨stored, s₁, -, hread, -, rfl, htables, hallows⟩
    · exact ⟨fun op hop => (hread.allows op).mpr (hs op hop), hp, by rw [hread.tables]; exact hb⟩
    · refine ⟨fun op hop => (hallows op).mpr (hs op hop), fun w hw => absurd hw List.not_mem_nil, ?_⟩
      rw [htables]
      refine Backed.applyDifference ?_ _
      rw [(foldl_perform_occurrences hp s₁).1, hread.tables]
      exact hb
  | drain =>
    simp only [serve, drain]
    cases hpending : v.limiter.pending with
    | nil => exact ⟨hs, hp, hb⟩
    | cons w rest =>
      rw [hpending] at hp
      obtain ⟨batch, rfl⟩ := hp w List.mem_cons_self
      obtain ⟨hrows, hallows⟩ := perform_occurrences batch v.store
      refine ⟨fun op hop => (hallows op).mpr (hs op hop),
        fun w' hw' => hp w' (List.mem_cons_of_mem _ hw'), ?_⟩
      rw [hrows]
      exact hb
  | flush =>
    simp only [serve, flush]
    obtain ⟨hrows, hallows⟩ := foldl_perform_occurrences hp v.store
    rw [performAll_store]
    refine ⟨fun op hop => (hallows op).mpr (hs op hop), fun w hw => absurd hw List.not_mem_nil, ?_⟩
    rw [hrows]
    exact hb

theorem consistent_run {v : Service} (h : v.Consistent) (rs : List Request) :
    (v.run rs).Consistent := run_induction consistent_serve h rs

end Service

/-! ## Naming a cached constraint again -/

/-- The stored list has what the row of an id says. -/
theorem find?_of_allConstraints {t : Tables} {stored : List Constraint}
    (h : t.allConstraints = .ok stored) {id : String} {row : ConstraintRow}
    (hrow : t.constraints.get? id = some row) :
    ∃ c, Tables.constraintOfRow id row = .ok c ∧ stored.find? (fun c => c.id = id) = some c := by
  have hall := Tables.forall₂_of_allConstraints h
  clear h
  rw [Table.get?] at hrow
  generalize t.constraints.entries = entries at hall hrow
  induction hall with
  | nil => cases hrow
  | @cons e c rest cs hread _ ih =>
    have hck : c.id = e.1 := constraintOfRow_id hread
    by_cases hid : id = e.1
    · rw [Table.find, if_pos hid] at hrow
      cases hrow
      exact ⟨c, hid ▸ hread, List.find?_cons_of_pos (by simpa [hck] using hid.symm)⟩
    · rw [Table.find, if_neg hid] at hrow
      obtain ⟨c', hc', hfind⟩ := ih hrow
      refine ⟨c', hc', ?_⟩
      rw [List.find?_cons_of_neg (by simpa [hck] using Ne.symm hid), hfind]

/-- What has a row and is not deleted is named by the list. -/
theorem Difference.mem_of_row {t : Tables} {stored incoming : List Constraint}
    (h : t.allConstraints = .ok stored) {id : String} {row : ConstraintRow}
    (hrow : t.constraints.get? id = some row) (hkept : id ∉ (between stored incoming).delete) :
    id ∈ incoming.map (·.id) := by
  obtain ⟨c, hread, hfind⟩ := find?_of_allConstraints h hrow
  rw [← constraintOfRow_id hread] at hkept ⊢
  exact List.mem_map.mpr (exists_of_not_mem_delete (List.mem_of_find?_eq_some hfind) hkept)

/-- What is read of one constraint is what the stored list has for it. -/
theorem find?_of_constraint? {t : Tables} {stored : List Constraint}
    (hstored : t.allConstraints = .ok stored) {id : String} {c : Constraint}
    (h : t.constraint? id = .ok (some c)) : stored.find? (fun c => c.id = id) = some c := by
  obtain ⟨row, hrow, hread⟩ := exists_row_of_constraint? h
  obtain ⟨c', hread', hfind⟩ := find?_of_allConstraints hstored hrow
  rw [hread] at hread'
  cases hread'
  exact hfind

/-- A storable definition is read back from the row made from it, if that can be read at all. -/
theorem constraintOfRow_rowOfConstraint {c c' : Constraint} (hc : c.IsStorable)
    (h : Tables.constraintOfRow c.id (Tables.rowOfConstraint c) = .ok c') : c' = c := by
  obtain ⟨millis, hmillis, hrange⟩ := hc
  have hback : c.range.toMillis = millis := by rw [hrange, Span.toMillis_ofMillis]
  rw [Tables.rowOfConstraint, hback, if_pos hmillis, Tables.constraintOfRow] at h
  split at h
  · cases h
  · split at h
    · cases h
    · cases h
      obtain ⟨id, range, count⟩ := c
      rw [Constraint.mk.injEq]
      exact ⟨rfl, hrange.symm, rfl⟩

/-- What reading gives for a cached definition that a row can hold is that definition. -/
theorem Backed.eq_of_read {cache : Table String CacheEntry} {rows : Table String ConstraintRow}
    (h : Backed cache rows) {id : String} {e : CacheEntry} (he : cache.get? id = some e)
    (hc : e.constraint.IsStorable) : ∃ row, rows.get? id = some row ∧
      ∀ c, Tables.constraintOfRow id row = .ok c → c = e.constraint := by
  obtain ⟨hid, row, hrow, hread⟩ := h id e he
  refine ⟨row, hrow, fun c hc' => ?_⟩
  rcases hread with hread | rfl
  · rw [hread] at hc'
    exact (Except.ok.inj hc').symm
  · rw [← hid] at hc'
    exact constraintOfRow_rowOfConstraint hc hc'

/-- A list that names a definition as it is stored does not touch it. -/
theorem Difference.unnamed_of_mem {stored incoming : List Constraint} {c : Constraint}
    (hnodup : (incoming.map (·.id)).Nodup) (hmem : c ∈ incoming)
    (hfind : stored.find? (fun current => current.id = c.id) = some c) :
    c.id ∉ (Difference.between stored incoming).delete ∧
      c.id ∉ (Difference.between stored incoming).reset ∧
      ∀ c' ∈ (Difference.between stored incoming).upsert, c'.id ≠ c.id := by
  refine ⟨Difference.not_mem_delete stored hmem, ?_, ?_⟩
  · rw [Difference.mem_reset_iff stored hnodup hmem, Difference.resets, hfind]
    simp
  · intro c' hc' hid
    have hfiltered : c' ∈ (Difference.between stored incoming).upsert.filter fun c' =>
        c'.id = c.id := List.mem_filter.mpr ⟨hc', decide_eq_true hid⟩
    rw [Difference.filter_upsert stored hnodup hmem, Difference.redefines, hfind] at hfiltered
    simp at hfiltered

/-- A list that names a cached constraint without changing it leaves it cached as it was. -/
theorem Service.get?_serve_reconcile {v : Service} (hv : v.Consistent)
    {incoming : List Constraint} (hnodup : (incoming.map (·.id)).Nodup) {e : CacheEntry}
    {id : String} (he : v.limiter.cache.get? id = some e) (hc : e.constraint.IsStorable)
    (hmem : e.constraint ∈ incoming) :
    (v.serve (.reconcile incoming)).2.limiter.cache.get? id = some e := by
  obtain ⟨hs, hp, hb⟩ := hv
  rcases hset : v.limiter.setConstraints v.store incoming with ⟨answer, l', s'⟩
  simp only [serve, hset]
  rcases setConstraints_cases hs hp hset with
    ⟨rfl, -, -⟩ | ⟨stored, s₁, hstored, -, -, rfl, -, -⟩
  · exact he
  · obtain ⟨row, hrow, honly⟩ := hb.eq_of_read he hc
    obtain ⟨c, hread, hfind⟩ := find?_of_allConstraints hstored hrow
    have hid := (hb id e he).1
    rw [honly c hread, ← hid] at hfind
    obtain ⟨hdelete, hreset, hupsert⟩ := Difference.unnamed_of_mem hnodup hmem hfind
    rw [hid] at hdelete hreset hupsert
    rw [get?_applyToCache_of_unnamed hdelete hreset hupsert, he]

end Limiter
end Automation
