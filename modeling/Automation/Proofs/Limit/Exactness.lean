import Automation.Proofs.Limit.Authority
import Automation.Proofs.Limit.LostWrites

/-!
# What is stored after a list was taken

A reconciliation that succeeds, in front of which everything that waited was written, leaves the
stored definitions as the list has them and nothing else.  Of the histories it leaves those of the
constraints that were stored with the same range, what had waited for them included, and no other.
The cache loses what the list does not name and is cleared where the range was another
(`Service.reconciled`).

## Three orders that do not matter

The difference is found before the queue is written, and it is carried out on the cache before and
on the tables after.  What waits cannot come between them: it adds occurrences and defines nothing,
so the stored definitions that the list was compared with are still those that the difference meets.

## Why the references count

Nothing in a difference names a constraint that is not stored, so if such a constraint had
occurrences they would stay.  It has none, as an occurrence refers to a definition
(`Tables.IsIntegral`), and no call breaks that, however many of them are refused half way.
-/

namespace Automation

/-! ## Calls that were answered -/

/-- A call that writes and succeeds makes the intended change. -/
theorem Store.write_of_command {s s' : Store} {op : StoreOperation} {changes : Bool}
    {write : Tables → Except StorageError Tables} (h : s.command op changes write = (.ok (), s')) :
    write s.tables = .ok s'.tables := by
  unfold command at h
  dsimp only at h
  split at h
  · cases h
  · split at h
    · cases h
    · split at h
      · cases h
      · next hwrite =>
        cases h
        exact hwrite

namespace PendingWrite

/-- Writes that all succeed when they are carried out in order. -/
def AllSucceed : List PendingWrite → Store → Prop
  | [], _ => True
  | w :: rest, s => (w.perform s).1 = .ok () ∧ AllSucceed rest (w.perform s).2

theorem tables_of_upsertAll {cs : List Constraint} {s s' : Store}
    (h : upsertAll cs s = (.ok (), s')) : s'.tables = cs.foldl Tables.putConstraint s.tables := by
  induction cs generalizing s with
  | nil =>
    cases h
    rfl
  | cons c rest ih =>
    rw [upsertAll] at h
    split at h
    · cases h
    · next s₁ hwrite =>
      have hput : .ok (s.tables.putConstraint c) = Except.ok s₁.tables :=
        Store.write_of_command hwrite
      rw [ih h, ← Except.ok.inj hput, List.foldl_cons]

end PendingWrite

namespace Limiter

/-- A replacement that succeeds has been carried out as a whole. -/
theorem Difference.tables_of_perform (d : Difference) {s : Store}
    (h : ((PendingWrite.replacement d.delete d.reset d.upsert).perform s).1 = .ok ()) :
    ((PendingWrite.replacement d.delete d.reset d.upsert).perform s).2.tables =
      d.applyToTables s.tables := by
  rcases hperform : (PendingWrite.replacement d.delete d.reset d.upsert).perform s with ⟨answer, s'⟩
  rw [hperform] at h
  cases h
  rw [PendingWrite.perform] at hperform
  split at hperform
  · cases hperform
  · next s₁ hdelete =>
    have hdeleted : .ok (s.tables.deleteConstraints d.delete) = Except.ok s₁.tables :=
      Store.write_of_command hdelete
    split at hperform
    · cases hperform
    · next s₂ hreset =>
      have hcleared : .ok (s₁.tables.deleteOccurrences d.reset) = Except.ok s₂.tables :=
        Store.write_of_command hreset
      rw [PendingWrite.tables_of_upsertAll hperform, applyToTables, ← Except.ok.inj hcleared,
        ← Except.ok.inj hdeleted]

/-- Batches that are all written are added one behind the other. -/
theorem tables_of_allSucceed {ws : List PendingWrite} {s : Store}
    (hws : ∀ w ∈ ws, ∃ batch, w = .occurrences batch) (h : PendingWrite.AllSucceed ws s) :
    (ws.foldl (fun s w => (w.perform s).2) s).tables =
      { s.tables with occurrences :=
          s.tables.occurrences ++ (ws.flatMap PendingWrite.batch).map Tables.rowOfOccurrence } := by
  induction ws generalizing s with
  | nil => rw [List.foldl_nil, List.flatMap_nil, List.map_nil, List.append_nil]
  | cons w rest ih =>
    obtain ⟨⟨batch, rfl⟩, hrest⟩ := List.forall_mem_cons.mp hws
    obtain ⟨hfirst, hmore⟩ := h
    have hwritten : ((PendingWrite.occurrences batch).perform s).2.tables =
        { s.tables with occurrences :=
            s.tables.occurrences ++ batch.map Tables.rowOfOccurrence } := by
      rw [PendingWrite.perform] at hfirst ⊢
      rcases hperform : s.addOccurrences batch with ⟨answer, s'⟩
      rw [hperform] at hfirst
      cases hfirst
      have hadd : s.tables.addOccurrences batch = .ok s'.tables := Store.write_of_command hperform
      exact (Tables.addOccurrences_eq_ok_iff.mp hadd).2
    rw [List.foldl_cons, ih hrest hmore, hwritten, List.flatMap_cons, List.map_append,
      ← List.append_assoc]
    rfl

end Limiter

/-! ## Occurrences refer to definitions -/

namespace Tables

/-- Every occurrence refers to a defined constraint. -/
def IsIntegral (t : Tables) : Prop := ∀ row ∈ t.occurrences, t.Defines row.constraintId

instance (t : Tables) : Decidable t.IsIntegral :=
  decidable_of_iff (∀ row ∈ t.occurrences, t.constraints.contains row.constraintId = true)
    (forall₂_congr fun _ _ => contains_iff_defines)

variable {t t' : Tables}

theorem IsIntegral.deleteConstraints (h : t.IsIntegral) (ids : List String) :
    (t.deleteConstraints ids).IsIntegral := by
  intro row hrow
  obtain ⟨hmem, hkept⟩ := List.mem_filter.mp hrow
  rw [Defines, Tables.deleteConstraints, Table.get?_filter_key _ (fun id => !ids.contains id),
    if_pos hkept]
  exact h row hmem

theorem IsIntegral.deleteOccurrences (h : t.IsIntegral) (ids : List String) :
    (t.deleteOccurrences ids).IsIntegral :=
  fun row hrow => h row (List.mem_filter.mp hrow).1

theorem IsIntegral.putConstraint (h : t.IsIntegral) (c : Constraint) :
    (t.putConstraint c).IsIntegral := by
  intro row hrow
  rw [Defines, Tables.putConstraint, Table.get?_insert]
  split
  · exact ⟨_, rfl⟩
  · exact h row hrow

theorem IsIntegral.addOccurrences (h : t.IsIntegral) {os : List Occurrence}
    (hadd : t.addOccurrences os = .ok t') : t'.IsIntegral := by
  obtain ⟨hdefined, rfl⟩ := addOccurrences_eq_ok_iff.mp hadd
  intro row hrow
  rcases List.mem_append.mp hrow with hrow | hrow
  · exact h row hrow
  · obtain ⟨o, ho, rfl⟩ := List.mem_map.mp hrow
    exact contains_iff_defines.mp (hdefined o ho)

end Tables

/-- A call keeps the references if what it would write does. -/
theorem Store.isIntegral_command {s : Store} (h : s.tables.IsIntegral) {op : StoreOperation}
    {changes : Bool} {write : Tables → Except StorageError Tables}
    (hwrite : ∀ t, write s.tables = .ok t → t.IsIntegral) :
    (s.command op changes write).2.tables.IsIntegral := by
  rcases command_tables s op changes write with hsame | hwritten
  · rw [hsame]
    exact h
  · exact hwrite _ hwritten

namespace Limiter

variable {s : Store}

theorem isIntegral_upsertAll (hs : s.tables.IsIntegral) (cs : List Constraint) :
    (PendingWrite.upsertAll cs s).2.tables.IsIntegral := by
  induction cs generalizing s with
  | nil => exact hs
  | cons c rest ih =>
    have hwritten : (s.writeConstraint c).2.tables.IsIntegral :=
      Store.isIntegral_command hs fun t ht => by
        cases ht
        exact Tables.IsIntegral.putConstraint hs c
    rw [PendingWrite.upsertAll]
    split
    · next hanswer =>
      rw [hanswer] at hwritten
      exact hwritten
    · next hanswer =>
      rw [hanswer] at hwritten
      exact ih hwritten

/-- Wherever a write stops, no occurrence is left without its definition. -/
theorem isIntegral_perform (hs : s.tables.IsIntegral) (w : PendingWrite) :
    (w.perform s).2.tables.IsIntegral := by
  cases w with
  | occurrences batch => exact Store.isIntegral_command hs fun t ht => hs.addOccurrences ht
  | replacement delete reset upsert =>
    have hdeleted : (s.deleteConstraints delete).2.tables.IsIntegral :=
      Store.isIntegral_command hs fun t ht => by
        cases ht
        exact hs.deleteConstraints delete
    have hcleared : ((s.deleteConstraints delete).2.deleteOccurrences reset).2.tables.IsIntegral :=
      Store.isIntegral_command hdeleted fun t ht => by
        cases ht
        exact hdeleted.deleteOccurrences reset
    rw [PendingWrite.perform]
    split
    · next hanswer =>
      rw [hanswer] at hdeleted
      exact hdeleted
    · next hanswer =>
      rw [hanswer] at hcleared
      split
      · next hanswer' =>
        rw [hanswer'] at hcleared
        exact hcleared
      · next hanswer' =>
        rw [hanswer'] at hcleared
        exact isIntegral_upsertAll hcleared upsert

theorem isIntegral_performAll (hs : s.tables.IsIntegral) (ws : List PendingWrite) :
    (PendingWrite.performAll ws s).2.tables.IsIntegral := by
  rw [performAll_store]
  induction ws generalizing s with
  | nil => exact hs
  | cons w rest ih => exact ih (isIntegral_perform hs w)

namespace Service

/-- Every request keeps the references, whatever the store refuses. -/
theorem isIntegral_serve (v : Service) (r : Request) (h : v.store.tables.IsIntegral) :
    (v.serve r).2.store.tables.IsIntegral := by
  cases r with
  | check ids now => exact h
  | increment ids now => exact h
  | prepare ids =>
    rcases hprep : v.limiter.prepare v.store ids with ⟨answer, l', s'⟩
    simp only [serve, hprep, (prepare_spec hprep).1.tables]
    exact h
  | reconcile incoming =>
    simp only [serve, setConstraints]
    split
    · next hread =>
      rw [← (Store.isReadOf_query hread).tables] at h
      exact h
    · next hread =>
      rw [← (Store.isReadOf_query hread).tables] at h
      exact isIntegral_performAll h _
  | drain =>
    simp only [serve, drain]
    cases v.limiter.pending with
    | nil => exact h
    | cons w rest => exact isIntegral_perform h w
  | flush => exact isIntegral_performAll h _

theorem isIntegral_run {s : Store} (hs : s.tables.IsIntegral) (rs : List Request) :
    ((start s).run rs).store.tables.IsIntegral :=
  run_induction (P := fun v => v.store.tables.IsIntegral) isIntegral_serve hs rs

end Service

/-! ## The stored definitions are the list -/

section Definitions

variable {t : Tables} {stored incoming : List Constraint}

/-- What is read of a row is written as that row, if it has room. -/
theorem rowOfConstraint_of_constraintOfRow {id : String} {row : ConstraintRow} {c : Constraint}
    (h : Tables.constraintOfRow id row = .ok c) (hrange : c.range.toMillis ≤ Tables.longestRange) :
    Tables.rowOfConstraint c = row := by
  rw [Tables.rowOfConstraint, if_pos hrange]
  rw [Tables.constraintOfRow] at h
  split at h
  · cases h
  · split at h
    · cases h
    · cases h
      obtain ⟨rangeMillis, count⟩ := row
      rw [ConstraintRow.mk.injEq, Span.toMillis_ofMillis]
      dsimp only at *
      omega

/-- The rows of a list of definitions. -/
def rowsOfList (cs : List Constraint) : Table String ConstraintRow :=
  .ofList (cs.map fun c => (c.id, Tables.rowOfConstraint c))

theorem get?_rowsOfList (cs : List Constraint) (id : String) :
    (rowsOfList cs).get? id =
      ((cs.filter fun c => c.id = id).getLast?).map Tables.rowOfConstraint := by
  rw [rowsOfList, Table.ofList, Table.get?_foldl_insert, List.filter_map, List.getLast?_map,
    Option.map_map, Table.get?_empty, Option.or_none]
  rfl

theorem get?_rowsOfList_of_mem (hnodup : (incoming.map (·.id)).Nodup) {c : Constraint}
    (hc : c ∈ incoming) : (rowsOfList incoming).get? c.id = some (Tables.rowOfConstraint c) := by
  rw [get?_rowsOfList, filter_eq_singleton hnodup hc]
  rfl

theorem get?_rowsOfList_eq_none {id : String} (hid : id ∉ incoming.map (·.id)) :
    (rowsOfList incoming).get? id = none := by
  have hnone : (incoming.filter fun c => c.id = id) = [] := by
    rw [List.filter_eq_nil_iff]
    exact fun c hc hsame => hid (List.mem_map.mpr ⟨c, hc, of_decide_eq_true hsame⟩)
  rw [get?_rowsOfList, hnone]
  rfl

/-- All definitions are listed under the ids of their rows. -/
theorem map_id_of_allConstraints (h : t.allConstraints = .ok stored) :
    stored.map (·.id) = t.constraints.keys := by
  have hall := Tables.forall₂_of_allConstraints h
  clear h
  rw [Table.keys]
  generalize t.constraints.entries = entries at hall ⊢
  induction hall with
  | nil => rfl
  | cons hread hrest ih => rw [List.map_cons, List.map_cons, ih, constraintOfRow_id hread]

/-- A difference leaves no row of what the list does not name. -/
theorem Difference.get?_applyToTables_eq_none (hstored : t.allConstraints = .ok stored)
    {id : String} (hid : id ∉ incoming.map (·.id)) :
    ((between stored incoming).applyToTables t).constraints.get? id = none := by
  have hunnamed : ((incoming.filter (redefines stored)).filter fun c => c.id = id) = [] := by
    rw [List.filter_eq_nil_iff]
    exact fun c hc hsame => hid (List.mem_map.mpr
      ⟨c, (List.mem_filter.mp hc).1, of_decide_eq_true hsame⟩)
  rw [get?_applyToTables, hunnamed, List.getLast?_nil, Option.map_none, Option.none_or]
  split
  · rfl
  · next hkept =>
    rw [Option.eq_none_iff_forall_ne_some]
    exact fun row hrow => hid (mem_of_row hstored hrow hkept)

/-- A difference leaves the rows of the list and no other. -/
theorem Difference.constraints_applyToTables (hstored : t.allConstraints = .ok stored)
    (hnodup : (incoming.map (·.id)).Nodup) (hfits : ∀ c ∈ incoming, c.Fits) :
    ((between stored incoming).applyToTables t).constraints = rowsOfList incoming := by
  refine Table.eq_of_get?_eq fun id => ?_
  rw [get?_applyToTables]
  by_cases hid : id ∈ incoming.map (·.id)
  · obtain ⟨c, hc, rfl⟩ := List.mem_map.mp hid
    have hupsert := filter_upsert stored hnodup hc
    rw [between_eq] at hupsert
    rw [get?_rowsOfList_of_mem hnodup hc, hupsert, if_neg (not_mem_delete stored hc)]
    cases hredefines : redefines stored c with
    | true => rfl
    | false =>
      obtain ⟨row, hrow, hread⟩ := Tables.exists_row_of_mem hstored
        (List.mem_of_find?_eq_some (find?_of_redefines_eq_false hredefines))
      rw [hrow, rowOfConstraint_of_constraintOfRow hread (hfits c hc).range]
      rfl
  · rw [get?_rowsOfList_eq_none hid, ← get?_applyToTables, get?_applyToTables_eq_none hstored hid]

/-- The definitions of a list are read back, rounded, in some order. -/
theorem exists_allConstraints_of_rowsOfList (hrows : t.constraints = rowsOfList incoming)
    (hnodup : (incoming.map (·.id)).Nodup) (hfits : ∀ c ∈ incoming, c.Fits) :
    ∃ listed, t.allConstraints = .ok listed ∧
      listed.Perm (incoming.map Constraint.asStored) := by
  have hread : ∀ c ∈ incoming, ∃ row, t.constraints.get? c.id = some row ∧
      Tables.constraintOfRow c.id row = .ok c.asStored := fun c hc =>
    ⟨_, by rw [hrows, get?_rowsOfList_of_mem hnodup hc], (hfits c hc).constraintOfRow⟩
  have hnamed : ∀ id row, t.constraints.get? id = some row → ∃ c ∈ incoming, c.id = id := by
    intro id row hrow
    by_contra hnone
    rw [hrows, get?_rowsOfList_eq_none fun hid => hnone (List.mem_map.mp hid)] at hrow
    cases hrow
  obtain ⟨listed, hlisted⟩ := Tables.exists_allConstraints (t := t) fun id row hrow => by
    obtain ⟨c, hc, rfl⟩ := hnamed id row hrow
    obtain ⟨row', hrow', hread'⟩ := hread c hc
    rw [hrow] at hrow'
    cases hrow'
    exact ⟨_, hread'⟩
  refine ⟨listed, hlisted, (List.perm_ext_iff_of_nodup ?_ ?_).mpr fun c' => ?_⟩
  · refine List.Nodup.of_map (·.id) ?_
    rw [map_id_of_allConstraints hlisted]
    exact t.constraints.nodup_keys
  · refine List.Nodup.of_map (·.id) ?_
    rw [List.map_map]
    exact hnodup
  · rw [List.mem_map]
    constructor
    · intro hc'
      obtain ⟨row, hrow, hread'⟩ := Tables.exists_row_of_mem hlisted hc'
      obtain ⟨c, hc, hid⟩ := hnamed _ _ hrow
      obtain ⟨row', hrow', hstored⟩ := hread c hc
      rw [hid, hrow] at hrow'
      cases hrow'
      rw [hid, hread'] at hstored
      exact ⟨c, hc, (Except.ok.inj hstored).symm⟩
    · rintro ⟨c, hc, rfl⟩
      obtain ⟨row, hrow, hread'⟩ := hread c hc
      obtain ⟨c', hread'', hfind⟩ := find?_of_allConstraints hlisted hrow
      rw [hread'] at hread''
      cases hread''
      exact List.mem_of_find?_eq_some hfind

/-! ## Histories -/

/-- What a list that is compared with tables does to the rows of a constraint that it names. -/
theorem Difference.rowsOf_applyToTables_of_mem {t' : Tables} (hstored : t.allConstraints = .ok stored)
    (hnodup : (incoming.map (·.id)).Nodup) {c c₀ : Constraint} (hc : c ∈ incoming)
    (hc₀ : t.constraint? c.id = .ok (some c₀)) :
    ((between stored incoming).applyToTables t').rowsOf c.id =
      if c₀.range = c.range then t'.rowsOf c.id else [] := by
  have hresets : resets stored c = true ↔ ¬ c₀.range = c.range := by
    rw [resets, find?_of_constraint? hstored hc₀, Option.any_some, decide_eq_true_eq]
  simp only [Tables.rowsOf_applyToTables, not_mem_delete stored hc, mem_reset_iff stored hnodup hc,
    hresets, false_or, ite_not]

/-- A constraint that the list does not name, or that was not stored, has no rows in tables with the
same definitions in which occurrences refer to definitions. -/
theorem Difference.rowsOf_applyToTables_eq_nil {t' : Tables} (hstored : t.allConstraints = .ok stored)
    (hconstraints : t'.constraints = t.constraints) (hintegral : t'.IsIntegral) {id : String}
    (hid : id ∈ incoming.map (·.id) → ¬ t.Defines id) :
    ((between stored incoming).applyToTables t').rowsOf id = [] := by
  rw [Tables.rowsOf_applyToTables]
  split
  · rfl
  · next hkept =>
    rw [Tables.rowsOf, List.filter_eq_nil_iff]
    intro row hrow hsame
    obtain ⟨row', hrow'⟩ := hintegral row hrow
    rw [hconstraints, of_decide_eq_true hsame] at hrow'
    exact hid (mem_of_row hstored hrow' fun hdelete => hkept (Or.inl hdelete)) ⟨row', hrow'⟩

end Definitions

/-! ## After a list was taken -/

namespace Service

/-- What a list makes of a service: from what is stored and cached before to what is stored and
cached after. -/
structure Reconciled (v v' : Service) (incoming : List Constraint) : Prop where
  /-- The stored rows are those of the list, one for each definition. -/
  rows : v'.store.tables.constraints = rowsOfList incoming
  /-- Reading them gives the list, with ranges in whole milliseconds. -/
  listed : ∃ listed, v'.store.tables.allConstraints = .ok listed ∧
    listed.Perm (incoming.map Constraint.asStored)
  /-- Where the range is the stored one, all occurrences stay, those that waited included. -/
  kept : ∀ c ∈ incoming, ∀ c₀, v.store.tables.constraint? c.id = .ok (some c₀) →
    c₀.range = c.range → v'.store.tables.rowsOf c.id = (v.limiter.settled v.store).rowsOf c.id
  /-- No other constraint has occurrences. -/
  lost : ∀ id, (∀ c ∈ incoming, c.id = id → ∀ c₀, v.store.tables.constraint? id = .ok (some c₀) →
    c₀.range ≠ c.range) → v'.store.tables.rowsOf id = []
  /-- What the list does not name is not cached. -/
  uncached : ∀ id, id ∉ incoming.map (·.id) → v'.limiter.cache.get? id = none
  /-- The list caches nothing. -/
  contains : ∀ c ∈ incoming, v'.limiter.cache.contains c.id = v.limiter.cache.contains c.id
  /-- What was cached was stored, and its history stays just if its range is the stored one. -/
  cached : ∀ c ∈ incoming, ∀ e₀, v.limiter.cache.get? c.id = some e₀ →
    ∃ c₀ e, v.store.tables.constraint? c.id = .ok (some c₀) ∧
      v'.limiter.cache.get? c.id = some e ∧ e.times = if c₀.range = c.range then e₀.times else []
  /-- Nothing waits any more. -/
  pending : v'.limiter.pending = []

/-- A definition that is listed is read alone as well. -/
theorem exists_constraint?_of_defines {t : Tables} {stored : List Constraint}
    (hstored : t.allConstraints = .ok stored) {id : String} (h : t.Defines id) :
    ∃ c, t.constraint? id = .ok (some c) := by
  obtain ⟨row, hrow⟩ := h
  obtain ⟨c, hread, -⟩ := find?_of_allConstraints hstored hrow
  refine ⟨c, ?_⟩
  rw [Tables.constraint?, hrow]
  exact congrArg (Except.map some) hread

variable {v v' : Service} {incoming : List Constraint}

/-- A list is taken by the difference to what is stored, which meets the tables with all that waited
if that was written. -/
theorem Grounded.reconcile_of_written (hv : v.Grounded)
    (hwritten : PendingWrite.AllSucceed v.limiter.pending v.store.readConstraints.2)
    (hok : (v.serve (.reconcile incoming)).1 = .outcome (.ok ())) :
    ∃ stored, v.store.tables.allConstraints = .ok stored ∧
      (v.serve (.reconcile incoming)).2.limiter =
        ⟨(Difference.between stored incoming).applyToCache v.limiter.cache, []⟩ ∧
      (v.serve (.reconcile incoming)).2.store.tables =
        (Difference.between stored incoming).applyToTables (v.limiter.settled v.store) ∧
      (v.store.tables.IsIntegral → (v.limiter.settled v.store).IsIntegral) := by
  rcases hread : v.store.readConstraints with ⟨_ | stored, s₁⟩
  · simp only [serve, setConstraints, hread] at hok
    cases hok
  rw [hread] at hwritten
  have hs₁ : s₁.tables = v.store.tables := (Store.isReadOf_query hread).tables
  -- the tables that the difference meets
  have hqueue : (v.limiter.pending.foldl (fun s w => (w.perform s).2) s₁).tables =
      v.limiter.settled v.store := by
    rw [tables_of_allSucceed hv.pending hwritten, hs₁]
    rfl
  simp only [serve, setConstraints, hread, performAll_append] at hok ⊢
  have hdone : ((PendingWrite.replacement (Difference.between stored incoming).delete
      (Difference.between stored incoming).reset (Difference.between stored incoming).upsert).perform
        (v.limiter.pending.foldl (fun s w => (w.perform s).2) s₁)).1 = .ok () := by
    revert hok
    generalize ((PendingWrite.replacement _ _ _).perform _).1 = answer
    intro hok
    cases answer with
    | error e => cases hok
    | ok u => rfl
  refine ⟨stored, Store.read_of_query hread, rfl, ?_, fun hintegral => ?_⟩
  · rw [← hqueue]
    exact (Difference.between stored incoming).tables_of_perform hdone
  · rw [← hqueue, ← performAll_store]
    exact isIntegral_performAll (hs₁ ▸ hintegral) _

/-- The difference to what is stored makes of a service what the list makes of it. -/
theorem Grounded.reconciled_of_difference (hv : v.Grounded) (hnodup : (incoming.map (·.id)).Nodup)
    (hfits : ∀ c ∈ incoming, c.Fits) {stored : List Constraint}
    (hstored : v.store.tables.allConstraints = .ok stored)
    (hlimiter : v'.limiter =
      ⟨(Difference.between stored incoming).applyToCache v.limiter.cache, []⟩)
    (htables : v'.store.tables =
      (Difference.between stored incoming).applyToTables (v.limiter.settled v.store))
    (hsettled : (v.limiter.settled v.store).IsIntegral) : v.Reconciled v' incoming := by
  have hcache : ∀ id, v'.limiter.cache.get? id =
      if id ∈ (Difference.between stored incoming).delete then none
      else (v.limiter.cache.get? id).map ((Difference.between stored incoming).applyToEntry id) :=
    fun id => by rw [hlimiter, get?_applyToCache]
  have hrows : v'.store.tables.constraints = rowsOfList incoming := by
    rw [htables]
    exact Difference.constraints_applyToTables (t := v.limiter.settled v.store) hstored hnodup hfits
  refine ⟨hrows, exists_allConstraints_of_rowsOfList hrows hnodup hfits, ?_, ?_, ?_, ?_, ?_, ?_⟩
  · intro c hc c₀ hc₀ hrange
    rw [htables, Difference.rowsOf_applyToTables_of_mem hstored hnodup hc hc₀, if_pos hrange]
  · intro id hother
    rw [htables]
    by_cases hdefined : id ∈ incoming.map (·.id) ∧ v.store.tables.Defines id
    · obtain ⟨hid, hdef⟩ := hdefined
      obtain ⟨c, hc, rfl⟩ := List.mem_map.mp hid
      obtain ⟨c₀, hc₀⟩ := exists_constraint?_of_defines hstored hdef
      rw [Difference.rowsOf_applyToTables_of_mem hstored hnodup hc hc₀,
        if_neg (hother c hc rfl c₀ hc₀)]
    · have hdefinitions : (v.limiter.settled v.store).constraints = v.store.tables.constraints := rfl
      exact Difference.rowsOf_applyToTables_eq_nil hstored hdefinitions hsettled
        (not_and.mp hdefined)
  · intro id hid
    rw [hcache]
    split
    · rfl
    · next hkept =>
      -- what is cached has a row
      rw [Option.map_eq_none_iff, Option.eq_none_iff_forall_ne_some]
      intro e₀ he₀
      obtain ⟨row, hrow⟩ := hv.defined id e₀ he₀
      exact hid (Difference.mem_of_row hstored hrow hkept)
  · intro c hc
    rw [Table.contains, hcache, if_neg (Difference.not_mem_delete stored hc), Option.isSome_map,
      Table.contains]
  · intro c hc e₀ he₀
    obtain ⟨c₀, hc₀⟩ := exists_constraint?_of_defines hstored (hv.defined _ _ he₀)
    refine ⟨c₀, (Difference.between stored incoming).applyToEntry c.id e₀, hc₀, ?_, ?_⟩
    · rw [hcache, if_neg (Difference.not_mem_delete stored hc), he₀, Option.map_some]
    · rw [Difference.applyToEntry_of_mem hnodup hc]
      dsimp only
      rw [Difference.resets, find?_of_constraint? hstored hc₀, Option.any_some]
      simp only [decide_not, Bool.not_eq_true', decide_eq_false_iff_not, ite_not]
  · rw [hlimiter]

/-- **Taking a list is exact.**  Over any store, in whatever state earlier requests and failures have
left cache, queue and tables: if a list of definitions with distinct ids that rows have room for is
taken, and what waited was written in front of it, then the stored definitions are the list and
nothing else, histories are kept just where the range is the stored one, in the tables and in the
cache, and what the list does not name is gone from both. -/
theorem reconciled (s : Store) (hs : s.tables.IsIntegral) (before : List Request)
    {incoming : List Constraint} (hnodup : (incoming.map (·.id)).Nodup)
    (hfits : ∀ c ∈ incoming, c.Fits)
    (hwritten : PendingWrite.AllSucceed ((start s).run before).limiter.pending
      ((start s).run before).store.readConstraints.2)
    (hok : (((start s).run before).serve (.reconcile incoming)).1 = .outcome (.ok ())) :
    ((start s).run before).Reconciled (((start s).run before).serve (.reconcile incoming)).2
      incoming := by
  have hv := grounded_run s before
  obtain ⟨stored, hstored, hlimiter, htables, hsettled⟩ := hv.reconcile_of_written hwritten hok
  exact hv.reconciled_of_difference hnodup hfits hstored hlimiter htables
    (hsettled (isIntegral_run hs before))

/-- A store with three constraints, each used once. -/
def stocked : Store :=
  .ofTables ⟨.empty, .ofList [("kept", ⟨1000, 1⟩), ("moved", ⟨1000, 1⟩), ("gone", ⟨1000, 1⟩)],
    [⟨"kept", 100⟩, ⟨"moved", 100⟩, ⟨"gone", 100⟩]⟩

/-- All three are used again, and that waits to be written. -/
def usedAgain : List Request :=
  [.prepare ["kept", "moved", "gone"], .increment ["kept", "moved", "gone"] (.ofMillis 2000)]

/-- One gets another count, one another range, one is new, and one is not named. -/
def relisted : List Constraint :=
  [⟨"new", .ofMillis 500, 1⟩, ⟨"moved", .ofMillis 2000, 1⟩, ⟨"kept", .ofMillis 1000, 5⟩]

/-- The list is taken while the second use waits, and only the one with the old range keeps both. -/
theorem reconciled_relisted :
    PendingWrite.AllSucceed ((start stocked).run usedAgain).limiter.pending
        ((start stocked).run usedAgain).store.readConstraints.2 ∧
      (((start stocked).run usedAgain).serve (.reconcile relisted)).1 = .outcome (.ok ()) ∧
      ((start stocked).run usedAgain).Reconciled
        (((start stocked).run usedAgain).serve (.reconcile relisted)).2 relisted ∧
      ["kept", "moved", "gone", "new"].map
          (((start stocked).run usedAgain).serve (.reconcile relisted)).2.store.tables.rowsOf =
        [[⟨"kept", 100⟩, ⟨"kept", 2000⟩], [], [], []] := by
  have hwritten : PendingWrite.AllSucceed ((start stocked).run usedAgain).limiter.pending
      ((start stocked).run usedAgain).store.readConstraints.2 := ⟨rfl, trivial⟩
  exact ⟨hwritten, rfl,
    reconciled stocked (by decide) usedAgain (by decide) (by decide) hwritten rfl, by decide⟩

end Service
end Limiter
end Automation
