import Automation.Proofs.Limit.Ascending
import Automation.Proofs.Limit.Definitions
import Automation.Proofs.Limit.Mirror

/-!
# A new limiter and an old list

A limiter that begins with a list of constraints makes the stored definitions those of the list, and
after that the same list changes nothing any more.  So whoever begins again with what was there
before finds the history as it was left.

That depends on reading back what was written.  A row keeps whole milliseconds and counts of 32
bits, and a definition that does not fit would be different from itself the next time, which would
cost its history.
-/

namespace Automation

/-- A definition that is read back from its row. -/
def Constraint.IsKept (c : Constraint) : Prop := c.IsStorable ∧ c.count ≤ 0xffffffff

/-- That is one that has room in a row and is rounded already. -/
theorem Constraint.IsKept.fits {c : Constraint} (h : c.IsKept) : c.Fits ∧ c.asStored = c := by
  obtain ⟨⟨millis, hmillis, hrange⟩, hcount⟩ := h
  exact ⟨⟨by rwa [hrange, Span.toMillis_ofMillis], hcount⟩, asStored_of_eq hrange⟩

namespace Tables

/-- Every stored definition can be read. -/
def HasReadableConstraints (t : Tables) : Prop :=
  ∀ id row, t.constraints.get? id = some row → ∃ c, constraintOfRow id row = .ok c

/-- The stored definitions are those of a list. -/
structure HasDefinitions (t : Tables) (cs : List Constraint) : Prop where
  defined : ∀ c ∈ cs, t.constraint? c.id = .ok (some c)
  only : ∀ id row, t.constraints.get? id = some row → id ∈ cs.map (·.id)

variable {t : Tables} {cs stored : List Constraint}

theorem HasDefinitions.congr {t' : Tables} (h : t.HasDefinitions cs)
    (hconstraints : t'.constraints = t.constraints) : t'.HasDefinitions cs := by
  constructor
  · intro c hc
    unfold constraint?
    rw [hconstraints]
    exact h.defined c hc
  · intro id row hrow
    exact h.only id row (hconstraints ▸ hrow)

theorem HasDefinitions.hasReadableConstraints (h : t.HasDefinitions cs) :
    t.HasReadableConstraints := by
  intro id row hrow
  obtain ⟨c, hc, rfl⟩ := List.mem_map.mp (h.only id row hrow)
  obtain ⟨row', hrow', hread⟩ := Limiter.exists_row_of_constraint? (h.defined c hc)
  rw [hrow] at hrow'
  cases hrow'
  exact ⟨c, hread⟩

/-- All definitions are read if each can be. -/
theorem exists_allConstraints (h : t.HasReadableConstraints) :
    ∃ stored, t.allConstraints = .ok stored := by
  have hall : ∀ e ∈ t.constraints.entries, ∃ c, constraintOfRow e.1 e.2 = .ok c := fun e he =>
    h e.1 e.2 ((Table.get?_eq_some_iff _ _ _).mpr he)
  rw [allConstraints]
  generalize t.constraints.entries = entries at hall
  induction entries with
  | nil => exact ⟨[], rfl⟩
  | cons e rest ih =>
    obtain ⟨c, hc⟩ := hall e List.mem_cons_self
    obtain ⟨more, hmore⟩ := ih fun e' he' => hall e' (List.mem_cons_of_mem _ he')
    rw [List.mapM_cons, hc, hmore]
    exact ⟨c :: more, rfl⟩

/-- What is read has a row that says so. -/
theorem exists_row_of_mem (h : t.allConstraints = .ok stored) {c : Constraint} (hc : c ∈ stored) :
    ∃ row, t.constraints.get? c.id = some row ∧ constraintOfRow c.id row = .ok c := by
  have hentry : ∃ e ∈ t.constraints.entries, constraintOfRow e.1 e.2 = .ok c := by
    have hall := forall₂_of_allConstraints h
    clear h
    generalize t.constraints.entries = entries at hall ⊢
    induction hall with
    | nil => cases hc
    | @cons e first rest more hread _ ih =>
      rcases List.mem_cons.mp hc with rfl | hc
      · exact ⟨e, List.mem_cons_self, hread⟩
      · obtain ⟨e', he', hread'⟩ := ih hc
        exact ⟨e', List.mem_cons_of_mem _ he', hread'⟩
  obtain ⟨e, he, hread⟩ := hentry
  have hid := Limiter.constraintOfRow_id hread
  exact ⟨e.2, hid ▸ (Table.get?_eq_some_iff _ _ _).mpr he, hid ▸ hread⟩

theorem get?_foldl_putConstraint (cs : List Constraint) (t : Tables) (id : String) :
    (cs.foldl putConstraint t).constraints.get? id =
      (((cs.filter fun c => c.id = id).getLast?).map rowOfConstraint).or (t.constraints.get? id) := by
  have hfold : (cs.foldl putConstraint t).constraints =
      (cs.map fun c => (c.id, rowOfConstraint c)).foldl (fun t p => t.insert p.1 p.2)
        t.constraints := by
    induction cs generalizing t with
    | nil => rfl
    | cons c rest ih =>
      rw [List.foldl_cons, List.map_cons, List.foldl_cons, ih]
      rfl
  rw [hfold, Table.get?_foldl_insert, List.filter_map, List.getLast?_map, Option.map_map]
  rfl

/-- Defining constraints leaves everything else. -/
theorem foldl_putConstraint_rest (cs : List Constraint) (t : Tables) :
    (cs.foldl putConstraint t).progress = t.progress ∧
      (cs.foldl putConstraint t).occurrences = t.occurrences := by
  induction cs generalizing t with
  | nil => exact ⟨rfl, rfl⟩
  | cons c rest ih => exact ih (t.putConstraint c)

end Tables

namespace Limiter

variable {t : Tables} {cs stored : List Constraint}

/-- Where the list is stored already, nothing has to change. -/
theorem Difference.between_of_hasDefinitions (h : t.HasDefinitions cs)
    (hstored : t.allConstraints = .ok stored) : between stored cs = ⟨[], [], []⟩ := by
  have hfind : ∀ c ∈ cs, stored.find? (fun current => current.id = c.id) = some c := fun c hc =>
    find?_of_constraint? hstored (h.defined c hc)
  rw [between_eq]
  refine congr (congr (congrArg Difference.mk ?_) ?_) ?_
  · rw [List.filter_eq_nil_iff]
    intro id hid
    obtain ⟨c, hc, rfl⟩ := List.mem_map.mp hid
    obtain ⟨row, hrow, -⟩ := Tables.exists_row_of_mem hstored hc
    simp [h.only c.id row hrow]
  · rw [List.map_eq_nil_iff, List.filter_eq_nil_iff]
    intro c hc
    simp [resets, hfind c hc]
  · rw [List.filter_eq_nil_iff]
    intro c hc
    simp [redefines, hfind c hc]

/-- The rows of definitions after a difference: what the list redefines, and what is not deleted. -/
theorem Difference.get?_applyToTables (t : Tables) (stored cs : List Constraint) (id : String) :
    ((between stored cs).applyToTables t).constraints.get? id =
      ((((cs.filter (redefines stored)).filter fun c => c.id = id).getLast?).map
        Tables.rowOfConstraint).or
        (if id ∈ (between stored cs).delete then none else t.constraints.get? id) := by
  rw [applyToTables, Tables.get?_foldl_putConstraint, between_eq]
  refine congrArg (Option.or _) ?_
  show (t.constraints.filter _).get? id = _
  rw [Table.get?_filter_key t.constraints fun id =>
    !((stored.map (·.id)).filter fun id => !(cs.map (·.id)).contains id).contains id]
  simp only [Bool.not_eq_true', ← Bool.not_eq_true, List.contains_iff_mem, ite_not]

/-- What a list does not redefine is stored as the list has it. -/
theorem Difference.find?_of_redefines_eq_false {c : Constraint} (h : redefines stored c = false) :
    stored.find? (fun current => current.id = c.id) = some c := by
  rw [redefines, Option.all_eq_false] at h
  obtain ⟨current, hfind, hsame⟩ := h
  rw [Bool.or_eq_false_iff, decide_eq_false_iff_not, decide_eq_false_iff_not, not_not,
    not_not] at hsame
  have hid : current.id = c.id := by simpa using List.find?_some hfind
  have hcurrent : current = c := by
    cases current
    cases c
    exact (Constraint.mk.injEq ..).mpr ⟨hid, hsame.1, hsame.2⟩
  rw [hfind, hcurrent]

/-- What a list names is defined as the list has it, whatever was stored before. -/
theorem Difference.constraint?_applyToTables (hnodup : (cs.map (·.id)).Nodup)
    (hstored : t.allConstraints = .ok stored) {c : Constraint} (hc : c ∈ cs) (hfits : c.Fits) :
    ((between stored cs).applyToTables t).constraint? c.id = .ok (some c.asStored) := by
  have hupsert := filter_upsert stored hnodup hc
  rw [between_eq] at hupsert
  rw [Tables.constraint?, get?_applyToTables, if_neg (not_mem_delete stored hc), hupsert]
  cases hredefines : redefines stored c with
  | true =>
    rw [if_pos rfl, List.getLast?_singleton, Option.map_some, Option.some_or]
    simp only [hfits.constraintOfRow]
    rfl
  | false =>
    obtain ⟨row, hrow, hread⟩ := Tables.exists_row_of_mem hstored
      (List.mem_of_find?_eq_some (find?_of_redefines_eq_false hredefines))
    rw [if_neg Bool.false_ne_true, List.getLast?_nil, Option.map_none, Option.none_or, hrow]
    simp only [hread]
    rw [Tables.asStored_of_constraintOfRow hread]
    rfl

/-- What a difference leaves of the definitions is the list, whatever was stored before. -/
theorem Difference.hasDefinitions (hnodup : (cs.map (·.id)).Nodup) (hkept : ∀ c ∈ cs, c.IsKept)
    (hstored : t.allConstraints = .ok stored) :
    ((between stored cs).applyToTables t).HasDefinitions cs := by
  constructor
  · intro c hc
    obtain ⟨hfits, hsame⟩ := (hkept c hc).fits
    rw [constraint?_applyToTables hnodup hstored hc hfits, hsame]
  · intro id row hrow
    rw [get?_applyToTables, Option.or_eq_some_iff] at hrow
    rcases hrow with hrow | ⟨-, hrow⟩
    · obtain ⟨c, hlast, -⟩ := Option.map_eq_some_iff.mp hrow
      obtain ⟨hmem, hid⟩ := List.mem_filter.mp (List.mem_of_getLast? hlast)
      exact List.mem_map.mpr ⟨c, (List.mem_filter.mp hmem).1, of_decide_eq_true hid⟩
    · split at hrow
      · cases hrow
      · next hkeep => exact mem_of_row hstored hrow hkeep

/-! ## Beginning with a list -/

/-- A difference leaves the progress. -/
theorem Difference.applyToTables_progress (d : Difference) (t : Tables) :
    (d.applyToTables t).progress = t.progress := (Tables.foldl_putConstraint_rest ..).1

/-- Where there is nothing to change, nothing changes. -/
theorem Difference.applyToTables_nil (t : Tables) :
    (⟨[], [], []⟩ : Difference).applyToTables t = t := by
  simp [applyToTables, Tables.deleteConstraints, Tables.deleteOccurrences, Table.filter]

/-- Nothing is cached by a reconciliation. -/
theorem Difference.get?_applyToCache_empty (d : Difference) (id : String) :
    (d.applyToCache .empty).get? id = none := by
  rw [get?_applyToCache, Table.get?_empty]
  exact ite_self _

/-- A new limiter over a store that refuses nothing takes any list of definitions, if the stored
ones can be read.  The tables follow the list, nothing is cached and nothing waits. -/
theorem exists_setConstraints {s : Store} (hs : s.IsReliable)
    (hreadable : s.tables.HasReadableConstraints) (cs : List Constraint) :
    ∃ stored l' s', s.tables.allConstraints = .ok stored ∧
      Limiter.empty.setConstraints s cs = (.ok (), l', s') ∧ s'.IsReliable ∧
      s'.tables = (Difference.between stored cs).applyToTables s.tables ∧
      l'.settled s' = s'.tables ∧ ∀ now, l'.Mirrors s' now := by
  obtain ⟨stored, hstored⟩ := Tables.exists_allConstraints hreadable
  have hanswer : s.readConstraints.1 = .ok stored := (Store.query_answer (hs _)).trans hstored
  rcases hread : s.readConstraints with ⟨answer, s₁⟩
  have hs₁ : s₁.IsReadOf s := Store.isReadOf_query hread
  rw [hread] at hanswer
  cases hanswer
  have hreliable : s₁.IsReliable := fun op => (hs₁.allows op).mpr (hs op)
  obtain ⟨hdone, htables, hallows⟩ :=
    perform_replacement (Difference.between stored cs) hreliable.losesOnlyOccurrences
  rcases hperform : (PendingWrite.replacement (Difference.between stored cs).delete
    (Difference.between stored cs).reset (Difference.between stored cs).upsert).perform s₁ with
    ⟨r, s₂⟩
  rw [hperform] at hdone htables hallows
  cases hdone
  rw [hs₁.tables] at htables
  refine ⟨stored, ⟨(Difference.between stored cs).applyToCache .empty, []⟩, s₂, hstored, ?_,
    fun op => (hallows op).mpr (hreliable op), htables, settled_of_pending_eq_nil rfl s₂,
    fun now => ⟨List.forall_mem_nil _, List.forall_mem_nil _, fun id e he => ?_⟩⟩
  · simp only [setConstraints, hread, empty, List.nil_append, PendingWrite.performAll, hperform]
    rfl
  · rw [Difference.get?_applyToCache_empty] at he
    cases he

/-- **Beginning with a list.**  Definitions that can be kept are the stored ones afterwards, and if
they were the stored ones before, the tables are untouched. -/
theorem setConstraints_empty {s : Store} (hs : s.IsReliable)
    (hreadable : s.tables.HasReadableConstraints) (hnodup : (cs.map (·.id)).Nodup)
    (hkept : ∀ c ∈ cs, c.IsKept) :
    ∃ l' s', Limiter.empty.setConstraints s cs = (.ok (), l', s') ∧ s'.IsReliable ∧
      s'.tables.HasDefinitions cs ∧ s'.tables.progress = s.tables.progress ∧
      (s.tables.HasDefinitions cs → s'.tables = s.tables) ∧
      l'.settled s' = s'.tables ∧ ∀ now, l'.Mirrors s' now := by
  obtain ⟨stored, l', s', hstored, hset, hreliable, htables, hsettled, hmirrors⟩ :=
    exists_setConstraints hs hreadable cs
  refine ⟨l', s', hset, hreliable, ?_, ?_, fun hsame => ?_, hsettled, hmirrors⟩
  · rw [htables]
    exact Difference.hasDefinitions hnodup hkept hstored
  · rw [htables, Difference.applyToTables_progress]
  · rw [htables, Difference.between_of_hasDefinitions hsame hstored, Difference.applyToTables_nil]

end Limiter
end Automation
