import Automation.Proofs.Limit.Rounding

/-!
# What keeps cache and tables in step

Besides being asked, a limiter is written out and is given new lists of constraints.  Neither comes
between it and its settled tables.

* `Mirrors.drain`, `Mirrors.written`: writing one batch or all of them takes from what waits just
  what the tables gain, so the settled tables stay as they are.
* `Mirrors.setConstraints`: a reconciliation carries out one difference on the cache and on the
  settled tables.  A constraint that it deletes leaves both.  One whose range it changes has no
  history in either.  One whose count alone it changes keeps its history in both, and what the cache
  has pruned of it stays out of range because the range is the same.

The last holds for a limiter with its definitions as they are stored: a list is compared with the
stored definitions and not with the cached ones, so it may leave a cached range as it was given and
the row rounded.
-/

namespace Automation
namespace Limiter

variable {l : Limiter} {s : Store} {now : Instant}

/-! ## Writing -/

/-- What waits may be written, as long as the settled tables stay. -/
theorem Mirrors.of_settled {l' : Limiter} {s' : Store} (h : l.Mirrors s now)
    (hcache : l'.cache = l.cache) (hpending : ∀ w ∈ l'.pending, w ∈ l.pending)
    (hsettled : l'.settled s' = l.settled s) : l'.Mirrors s' now := by
  refine ⟨fun w hw => h.pending w (hpending w hw), fun o ho => ?_, ?_⟩
  · obtain ⟨w, hw, hbatch⟩ := List.mem_flatMap.mp ho
    rw [hcache]
    exact h.waiting o (List.mem_flatMap.mpr ⟨w, hpending w hw, hbatch⟩)
  · rw [hcache, hsettled]
    exact h.cached

theorem drain_cache (l : Limiter) (s : Store) : (l.drain s).1.cache = l.cache := by
  obtain ⟨cache, pending⟩ := l
  cases pending <;> rfl

/-- The oldest write goes from what waits to the tables. -/
theorem Mirrors.drain (h : l.Mirrors s now) (hs : s.Allows .addOccurrences) :
    (l.drain s).1.Mirrors (l.drain s).2 now ∧
      (l.drain s).1.settled (l.drain s).2 = l.settled s ∧
      ∀ op, (l.drain s).2.Allows op ↔ s.Allows op := by
  obtain ⟨cache, pending⟩ := l
  cases pending with
  | nil => exact ⟨h, rfl, fun _ => Iff.rfl⟩
  | cons w rest =>
    obtain ⟨batch, rfl⟩ := h.pending w List.mem_cons_self
    have hwritten : (s.addOccurrences batch).2.tables = { s.tables with
        occurrences := s.tables.occurrences ++ batch.map Tables.rowOfOccurrence } := by
      refine Store.command_tables_of_ok hs (Tables.addOccurrences_eq_ok_iff.mpr ⟨?_, rfl⟩)
      exact fun o ho => h.defined (h.waiting o (List.mem_flatMap.mpr ⟨_, List.mem_cons_self, ho⟩))
    have hsettled : (⟨cache, rest⟩ : Limiter).settled (s.addOccurrences batch).2 =
        (⟨cache, .occurrences batch :: rest⟩ : Limiter).settled s := by
      rw [settled, settled, hwritten, Limiter.waiting, Limiter.waiting, List.flatMap_cons,
        List.map_append, ← List.append_assoc]
      rfl
    exact ⟨h.of_settled rfl (fun w hw => List.mem_cons_of_mem _ hw) hsettled, hsettled,
      (perform_occurrences batch s).2⟩

/-- Once all is written, the settled tables are the tables. -/
theorem Mirrors.written (h : l.Mirrors s now) (hs : s.Allows .addOccurrences) :
    (l.flush s).1.Mirrors (l.flush s).2 now ∧
      (l.flush s).1.settled (l.flush s).2 = l.settled s := by
  have hsettled : (l.flush s).1.settled (l.flush s).2 = l.settled s := by
    rw [settled_of_pending_eq_nil rfl, (h.flush hs).1]
  exact ⟨h.of_settled rfl (fun w hw => absurd hw List.not_mem_nil) hsettled, hsettled⟩

/-! ## Reconciling -/

section Reconciling

variable {t : Tables} {stored incoming : List Constraint}

namespace Difference

/-- What a list without repetitions does to a constraint that it names. -/
theorem applyToEntry_of_mem (hnodup : (incoming.map (·.id)).Nodup) {c : Constraint}
    (hc : c ∈ incoming) (e : CacheEntry) :
    (between stored incoming).applyToEntry c.id e =
      ⟨if redefines stored c then c else e.constraint,
        if resets stored c then [] else e.times⟩ := by
  rw [applyToEntry, filter_upsert stored hnodup hc]
  simp only [mem_reset_iff stored hnodup hc]
  cases redefines stored c <;> rfl

theorem mem_occurrences_applyToTables {d : Difference} {row : OccurrenceRow} :
    row ∈ (d.applyToTables t).occurrences ↔
      row ∈ t.occurrences ∧ row.constraintId ∉ d.delete ∧ row.constraintId ∉ d.reset := by
  rw [applyToTables, (Tables.foldl_putConstraint_rest ..).2, Tables.deleteOccurrences,
    Tables.deleteConstraints]
  simp only [List.mem_filter, Bool.not_eq_true', ← Bool.not_eq_true, List.contains_iff_mem,
    and_assoc]

/-- A history that is not deleted is cleared or stays. -/
theorem timesOf_applyToTables {d : Difference} {id : String} (hdelete : id ∉ d.delete) :
    (d.applyToTables t).timesOf id = if id ∈ d.reset then [] else t.timesOf id := by
  rw [Tables.timesOf, applyToTables, (Tables.foldl_putConstraint_rest ..).2,
    Tables.deleteOccurrences, Tables.deleteConstraints, List.filter_filter, List.filter_filter]
  split
  · next hreset =>
    rw [List.filter_eq_nil_iff.mpr, List.filterMap_nil]
    intro row hrow hkeep
    simp only [Bool.and_eq_true, decide_eq_true_eq, Bool.not_eq_true', ← Bool.not_eq_true,
      List.contains_iff_mem] at hkeep
    exact hkeep.1.2 (hkeep.1.1 ▸ hreset)
  · next hreset =>
    rw [Tables.timesOf]
    refine congrArg (List.filterMap _) (List.filter_congr fun row hrow => ?_)
    by_cases hid : row.constraintId = id
    · simp [hid, hdelete, hreset]
    · simp [hid]

/-- Definitions that can be read still can be after a list whose counts have room. -/
theorem hasReadableConstraints (hreadable : t.HasReadableConstraints)
    (hcounts : ∀ c ∈ incoming, c.count ≤ 0xffffffff) :
    ((between stored incoming).applyToTables t).HasReadableConstraints := by
  intro id row hrow
  rw [get?_applyToTables, Option.or_eq_some_iff] at hrow
  rcases hrow with hrow | ⟨-, hrow⟩
  · obtain ⟨c, hlast, rfl⟩ := Option.map_eq_some_iff.mp hrow
    obtain ⟨hmem, -⟩ := List.mem_filter.mp (List.mem_of_getLast? hlast)
    exact Tables.exists_constraintOfRow (hcounts c (List.mem_filter.mp hmem).1) id
  · split at hrow
    · cases hrow
    · exact hreadable id row hrow

/-- Redefined or not, a constraint that a list names has the definition of the list up to
rounding. -/
theorem asStored_applyToEntry (hnodup : (incoming.map (·.id)).Nodup) {c : Constraint}
    (hc : c ∈ incoming) {e : CacheEntry}
    (hfind : stored.find? (fun current => current.id = c.id) = some e.constraint.asStored) :
    ((between stored incoming).applyToEntry c.id e).asStored =
      ⟨c.asStored, if resets stored c then [] else e.times⟩ := by
  rw [applyToEntry_of_mem hnodup hc]
  cases hredefines : redefines stored c with
  | true => rfl
  | false =>
    rw [find?_of_redefines_eq_false hredefines] at hfind
    rw [if_neg Bool.false_ne_true, CacheEntry.asStored, Option.some.inj hfind,
      Constraint.asStored_asStored]

/-- A history that is not cleared keeps its range. -/
theorem range_of_resets_eq_false {c c' : Constraint} (h : resets stored c = false)
    (hfind : stored.find? (fun current => current.id = c.id) = some c'.asStored) :
    c.asStored.range = c'.asStored.range := by
  rw [resets, hfind, Option.any_some, decide_eq_false_iff_not, not_not] at h
  rw [Constraint.asStored_of_eq h.symm]
  exact h.symm

end Difference

/-- A constraint that a list names is current after it if it was before. -/
theorem isCurrent_applyToEntry {e : CacheEntry} (h : e.asStored.IsCurrent t now)
    (hstored : t.allConstraints = .ok stored) (hnodup : (incoming.map (·.id)).Nodup)
    {c : Constraint} (hc : c ∈ incoming) (hfits : c.Fits) (hid : e.constraint.id = c.id) :
    ((Difference.between stored incoming).applyToEntry c.id e).constraint.id = c.id ∧
      ((Difference.between stored incoming).applyToEntry c.id e).asStored.IsCurrent
        ((Difference.between stored incoming).applyToTables t) now := by
  obtain ⟨hdefinition, hreadable, hascending, hplain, hinRange⟩ := h
  simp only [CacheEntry.asStored_constraint, CacheEntry.asStored_times, Constraint.asStored_id,
    hid] at hdefinition hreadable hascending hplain hinRange
  have hfind := find?_of_constraint? hstored hdefinition
  have hlist := Difference.constraint?_applyToTables hnodup hstored hc hfits
  have hrows : ((Difference.between stored incoming).applyToTables t).IsReadableFor c.id :=
    fun row hrow => hreadable row (Difference.mem_occurrences_applyToTables.mp hrow).1
  have htimes := Difference.timesOf_applyToTables (t := t) (Difference.not_mem_delete stored hc)
  simp only [Difference.mem_reset_iff stored hnodup hc] at htimes
  have hafter := Difference.asStored_applyToEntry hnodup hc hfind
  refine ⟨congrArg (fun e : CacheEntry => e.constraint.id) hafter, ?_⟩
  rw [hafter]
  cases hresets : Difference.resets stored c with
  | true =>
    rw [if_pos hresets] at htimes
    refine ⟨hlist, hrows, List.Pairwise.nil, List.forall_mem_nil _, ?_⟩
    show List.Perm _ (List.filter _ (Tables.timesOf _ c.id))
    rw [htimes]
    exact List.Perm.refl _
  | false =>
    rw [hresets, if_neg Bool.false_ne_true] at htimes
    -- what the cache has pruned was out of the same range
    have hwithin : (⟨c.asStored, e.times⟩ : CacheEntry).isWithinRange now =
        e.asStored.isWithinRange now := by
      funext time
      rw [CacheEntry.isWithinRange, CacheEntry.isWithinRange,
        Difference.range_of_resets_eq_false hresets hfind]
      rfl
    refine ⟨hlist, hrows, hascending, hplain, ?_⟩
    show (e.times.filter ((⟨c.asStored, e.times⟩ : CacheEntry).isWithinRange now)).Perm
      ((Tables.timesOf _ c.id).filter ((⟨c.asStored, e.times⟩ : CacheEntry).isWithinRange now))
    rw [htimes, hwithin]
    exact hinRange

/-- **A new list is carried out on the cache as on the settled tables.**  Where nothing is refused,
every stored definition can be read and rows have room for the list, the list is taken. -/
theorem Mirrors.setConstraints (h : l.asStored.Mirrors s now) (hs : s.IsReliable)
    (hreadable : s.tables.HasReadableConstraints) (hnodup : (incoming.map (·.id)).Nodup)
    (hfits : ∀ c ∈ incoming, c.Fits) :
    ∃ stored l' s', (l.settled s).allConstraints = .ok stored ∧
      l.setConstraints s incoming = (.ok (), l', s') ∧ l'.asStored.Mirrors s' now ∧
      l'.settled s' = (Difference.between stored incoming).applyToTables (l.settled s) ∧
      ∀ op, s'.Allows op ↔ s.Allows op := by
  rcases hset : l.setConstraints s incoming with ⟨r, l', s'⟩
  have hpending : ∀ w ∈ l.pending, ∃ batch, w = .occurrences batch := h.pending
  rcases setConstraints_cases hs.losesOnlyOccurrences hpending hset with
    ⟨-, -, e, -, hunread⟩ | ⟨stored, s₁, hstored, hs₁, rfl, rfl, htables, hallows⟩
  · obtain ⟨stored, hstored⟩ := Tables.exists_allConstraints hreadable
    rw [Store.readConstraints, Store.query_answer (hs _), hstored] at hunread
    cases hunread
  have hstored' : (l.settled s).allConstraints = .ok stored := hstored
  have h₁ : l.asStored.Mirrors s₁ now := h.of_tables (by rw [hs₁.tables]) (by rw [hs₁.tables])
  have hwritten : (l.pending.foldl (fun s w => (w.perform s).2) s₁).tables = l.settled s := by
    have hflush := (h₁.flush ((hs₁.allows _).mpr (hs _))).1
    rw [Limiter.flush, performAll_store, settled_asStored, settled, hs₁.tables] at hflush
    exact hflush
  have hsettled : (⟨(Difference.between stored incoming).applyToCache l.cache, []⟩ :
      Limiter).settled s' = (Difference.between stored incoming).applyToTables (l.settled s) := by
    rw [settled_of_pending_eq_nil rfl, htables, hwritten]
  refine ⟨stored, _, s', hstored', rfl, ⟨List.forall_mem_nil _, List.forall_mem_nil _, ?_⟩,
    hsettled, hallows⟩
  intro id e' he'
  rw [settled_asStored, hsettled]
  rw [get?_asStored, get?_applyToCache] at he'
  split at he'
  · cases he'
  · next hdelete =>
    obtain ⟨e₁, he₁, rfl⟩ := Option.map_eq_some_iff.mp he'
    obtain ⟨e, he, rfl⟩ := Option.map_eq_some_iff.mp he₁
    obtain ⟨hid, hcurrent⟩ := h.cached id e.asStored (by rw [get?_asStored, he]; rfl)
    have hfind := find?_of_constraint? hstored' hcurrent.definition
    obtain ⟨c, hc, hcid⟩ := Difference.exists_of_not_mem_delete
      (List.mem_of_find?_eq_some hfind) (hid ▸ hdelete)
    have hcid' : c.id = id := hcid.trans hid
    subst hcid'
    exact isCurrent_applyToEntry hcurrent hstored' hnodup hc (hfits c hc) hid

end Reconciling

end Limiter
end Automation
