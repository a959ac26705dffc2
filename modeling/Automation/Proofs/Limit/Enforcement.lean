import Automation.Proofs.Limit.Authority
import Automation.Proofs.Limit.Takeover

/-!
# A listed constraint is enforced once it is loaded

A list says which constraints there are, and by itself it caches none.  From the moment at which a
listed constraint is cached, what is accepted for it in a window as long as its range stays within
its count, whatever checker is asked (`Service.accepted_le_of_covered`).

## Checkers from before

A checker is a list of ids, and an id that is not cached is skipped.  When a list leaves a constraint
out it leaves the cache, and when a later list defines it again it does not come back by itself.  So
a checker that was made before skips it, until somebody asks for a new checker that names it
(`Service.covered`).  What is accepted up to then is not recorded and can exceed any count
(`Service.redefined_constraint_is_skipped`).

## Which range is enforced

What is loaded comes from a row, and a row has whole milliseconds up to a largest value.  So the
range that is enforced is the one of the list, or its part in whole milliseconds.  The largest value
is no matter, since no two instants are that far apart.
-/

namespace Automation

namespace Constraint

/-- A definition is enforced by one that counts the same, within a range that is at least as long as
a row would have it. -/
structure EnforcedBy (c c' : Constraint) : Prop where
  count : c'.count = c.count
  range : min c.range.toMillis Tables.longestRange ≤ c'.range.toMillis

theorem EnforcedBy.refl (c : Constraint) : c.EnforcedBy c := ⟨rfl, min_le_left _ _⟩

/-- What is read from the row of a definition. -/
theorem of_constraintOfRow_rowOfConstraint {id : String} {c c' : Constraint}
    (h : Tables.constraintOfRow id (Tables.rowOfConstraint c) = .ok c') :
    c'.count = c.count ∧ c'.range.toMillis = min c.range.toMillis Tables.longestRange := by
  rw [Tables.constraintOfRow] at h
  split at h
  · cases h
  · split at h
    · cases h
    · cases h
      refine ⟨rfl, ?_⟩
      rw [Span.toMillis_ofMillis, Tables.rowOfConstraint]
      split
      · next hshort => exact (min_eq_left hshort).symm
      · next hlong => exact (min_eq_right (Nat.le_of_not_le hlong)).symm

/-- What is enforced covers every window of the whole milliseconds of a range. -/
theorem EnforcedBy.window_le {c c' : Constraint} (h : c.EnforcedBy c') {u w : Instant}
    (hlen : w.since u ≤ c.asStored.range.nanos) : w.since u ≤ c'.range.nanos := by
  have hrange := h.range
  have hmost : w.since u ≤ Tables.longestRange * 1000000 := by
    have := w.day_le
    have := u.day_ge
    have := w.second_lt
    have := w.nano_lt
    rw [Instant.since, Tables.longestRange]
    split_ifs <;> omega
  have hstored : w.since u ≤ c.range.toMillis * 1000000 := by
    exact_mod_cast hlen
  have hwhole : c'.range.toMillis * 1000000 ≤ c'.range.nanos := Nat.div_mul_le_self _ _
  rcases le_total c.range.toMillis Tables.longestRange with hle | hle
  · rw [min_eq_left hle] at hrange
    omega
  · rw [min_eq_right hle] at hrange
    omega

end Constraint

namespace Limiter

/-- A checker that was made has its ids cached. -/
theorem contains_of_prepare {l l' : Limiter} {s s' : Store} {ids : List String}
    (h : l.prepare s ids = (.ok (), l', s')) {id : String} (hid : id ∈ ids) :
    l'.cache.contains id = true := by
  rw [prepare] at h
  split at h
  · cases h
  · next es _ hload =>
    cases h
    obtain ⟨hids, -⟩ := isLoaded_of_loadAll hload
    dsimp only
    rw [Table.contains, get?_foldl_addEntry, Option.isSome_or, Bool.or_eq_true]
    cases hcached : l.cache.contains id with
    | true => exact Or.inl hcached
    | false =>
      have hmissing : id ∈ es.map (·.constraint.id) := by
        rw [hids]
        exact List.mem_filter.mpr ⟨hid, by rw [hcached]; rfl⟩
      obtain ⟨e, he, hsame⟩ := List.mem_map.mp hmissing
      exact Or.inr (List.find?_isSome.mpr ⟨e, he, decide_eq_true hsame⟩)

/-! ## What a list leaves of a constraint that it names -/

namespace Difference

variable {t : Tables} {stored incoming : List Constraint} {c : Constraint}

/-- What can be read of it enforces the definition of the list. -/
theorem enforcedBy_stored (hnodup : (incoming.map (·.id)).Nodup)
    (hstored : t.allConstraints = .ok stored) (hc : c ∈ incoming) {c' : Constraint}
    (h : ((between stored incoming).applyToTables t).constraint? c.id = .ok (some c')) :
    c.EnforcedBy c' := by
  obtain ⟨row, hrow, hread⟩ := exists_row_of_constraint? h
  have hupsert := filter_upsert stored hnodup hc
  rw [between_eq] at hupsert
  rw [get?_applyToTables, if_neg (not_mem_delete stored hc), hupsert] at hrow
  cases hredefines : redefines stored c with
  | true =>
    rw [hredefines, if_pos rfl, List.getLast?_singleton, Option.map_some, Option.some_or,
      Option.some.injEq] at hrow
    rw [← hrow] at hread
    obtain ⟨hcount, hrange⟩ := Constraint.of_constraintOfRow_rowOfConstraint hread
    exact ⟨hcount, hrange.ge⟩
  | false =>
    obtain ⟨row', hrow', hread'⟩ := Tables.exists_row_of_mem hstored
      (List.mem_of_find?_eq_some (find?_of_redefines_eq_false hredefines))
    rw [hredefines, if_neg Bool.false_ne_true, List.getLast?_nil, Option.map_none, Option.none_or,
      hrow', Option.some.injEq] at hrow
    rw [← hrow, hread'] at hread
    rw [← Except.ok.inj hread]
    exact .refl c

/-- What is cached of it enforces the definition of the list, if the cached definition was the stored
one. -/
theorem enforcedBy_cached (hnodup : (incoming.map (·.id)).Nodup)
    (hstored : t.allConstraints = .ok stored) (hc : c ∈ incoming) {cache : Table String CacheEntry}
    (hbacked : Backed cache t.constraints) {e : CacheEntry} (he : cache.get? c.id = some e) :
    c.EnforcedBy ((between stored incoming).applyToEntry c.id e).constraint := by
  rw [applyToEntry_of_mem hnodup hc]
  cases hredefines : redefines stored c with
  | true => exact .refl c
  | false =>
    obtain ⟨hid, row, hrow, hread⟩ := hbacked c.id e he
    obtain ⟨row', hrow', hread'⟩ := Tables.exists_row_of_mem hstored
      (List.mem_of_find?_eq_some (find?_of_redefines_eq_false hredefines))
    rw [hrow, Option.some.injEq] at hrow'
    rw [← hrow'] at hread'
    rw [if_neg Bool.false_ne_true]
    rcases hread with hread | rfl
    · rw [hread] at hread'
      rw [Except.ok.inj hread']
      exact .refl c
    · obtain ⟨hcount, hrange⟩ := Constraint.of_constraintOfRow_rowOfConstraint hread'
      refine ⟨hcount.symm, ?_⟩
      show min c.range.toMillis Tables.longestRange ≤ e.constraint.range.toMillis
      omega

end Difference

namespace Service

variable {v : Service} {c : Constraint} {id : String} {made : Bool}

/-! ## What covers a constraint -/

/-- Whether a checker that names a constraint has been made since a list left the constraint out,
after one more request. -/
def coveredAfter (v : Service) (id : String) (made : Bool) (r : Request) : Bool :=
  match r, (v.serve r).1 with
  | .prepare ids, .outcome (.ok ()) => made || ids.contains id
  | .reconcile incoming, .outcome (.ok ()) => made && (incoming.map (·.id)).contains id
  | _, _ => made

/-- Whether, after a run, a checker that names a constraint has been made since a list left the
constraint out. -/
def covered (id : String) : Service → Bool → List Request → Bool
  | _, made, [] => made
  | v, made, r :: rs => covered id (v.serve r).2 (v.coveredAfter id made r) rs

/-- What is covered is cached. -/
theorem contains_of_coveredAfter (hv : v.Consistent)
    (hmade : made = true → v.limiter.cache.contains id = true) {r : Request}
    (h : v.coveredAfter id made r = true) : (v.serve r).2.limiter.cache.contains id = true := by
  cases r with
  | check ids now => exact hmade h
  | increment ids now => exact contains_serve v (fun _ hr => by cases hr) (hmade h)
  | prepare ids =>
    have hkept : v.limiter.cache.contains id = true →
        (v.serve (.prepare ids)).2.limiter.cache.contains id = true :=
      contains_serve v fun _ hr => by cases hr
    rcases hprepare : v.limiter.prepare v.store ids with ⟨_ | _, l', s'⟩
    · simp only [coveredAfter, Service.serve, hprepare] at h
      exact hkept (hmade h)
    · simp only [coveredAfter, Service.serve, hprepare, Bool.or_eq_true, List.contains_iff_mem] at h
      rcases h with h | h
      · exact hkept (hmade h)
      · simp only [Service.serve, hprepare]
        exact contains_of_prepare hprepare h
  | reconcile incoming =>
    rcases hset : v.limiter.setConstraints v.store incoming with ⟨r, l', s'⟩
    simp only [Service.serve, hset]
    rcases setConstraints_cases hv.losesOnlyOccurrences hv.pending hset with
      ⟨rfl, -, e, rfl, -⟩ | ⟨stored, -, -, -, rfl, rfl, -⟩
    · simp only [coveredAfter, Service.serve, hset] at h
      exact hmade h
    · simp only [coveredAfter, Service.serve, hset, Bool.and_eq_true, List.contains_iff_mem] at h
      obtain ⟨c, hc, rfl⟩ := List.mem_map.mp h.2
      dsimp only
      rw [Table.contains, get?_applyToCache, if_neg (Difference.not_mem_delete stored hc),
        Option.isSome_map]
      exact hmade h.1
  | drain => exact contains_serve v (fun _ hr => by cases hr) (hmade h)
  | flush => exact contains_serve v (fun _ hr => by cases hr) (hmade h)

theorem contains_of_covered {rs : List Request} (hv : v.Consistent)
    (hmade : made = true → v.limiter.cache.contains id = true)
    (h : covered id v made rs = true) : (v.run rs).limiter.cache.contains id = true := by
  induction rs generalizing v made with
  | nil => exact hmade h
  | cons r rs ih => exact ih (consistent_serve v r hv) (contains_of_coveredAfter hv hmade) h

/-! ## What enforces a definition -/

/-- What is stored and what is cached of a constraint enforces a definition. -/
structure Enforces (v : Service) (c : Constraint) : Prop where
  stored : ∀ c', v.store.tables.constraint? c.id = .ok (some c') → c.EnforcedBy c'
  cached : ∀ e, v.limiter.cache.get? c.id = some e → c.EnforcedBy e.constraint

theorem Enforces.of_eq {v' : Service} (h : v.Enforces c)
    (hrows : v'.store.tables.constraints = v.store.tables.constraints)
    (hcache : ∀ e', v'.limiter.cache.get? c.id = some e' →
      ∃ e, v.limiter.cache.get? c.id = some e ∧ e.constraint = e'.constraint) : v'.Enforces c := by
  refine ⟨fun c' hc' => h.stored c' ?_, fun e' he' => ?_⟩
  · rw [Tables.constraint?] at hc' ⊢
    exact hrows ▸ hc'
  · obtain ⟨e, he, hsame⟩ := hcache e' he'
    exact hsame ▸ h.cached e he

/-- Only a list changes what enforces a definition. -/
theorem Enforces.serve (h : v.Enforces c) (hv : v.Consistent) {r : Request}
    (hr : ∀ incoming, r ≠ .reconcile incoming) : (v.serve r).2.Enforces c := by
  cases r with
  | check ids now => exact h
  | increment ids now =>
    refine h.of_eq rfl fun e' he' => ?_
    have hsame : ((v.limiter.checkAndIncrement ids now).2.cache.get? c.id).map
        CacheEntry.constraint = (v.limiter.cache.get? c.id).map CacheEntry.constraint :=
      get?_checkAndIncrement_constraint c.id
    rw [show (v.limiter.checkAndIncrement ids now).2.cache.get? c.id = some e' from he',
      Option.map_some] at hsame
    exact Option.map_eq_some_iff.mp hsame.symm
  | prepare ids =>
    rcases hprepare : v.limiter.prepare v.store ids with ⟨answer, l', s'⟩
    obtain ⟨hread, -, es, hes, hcache⟩ := prepare_spec hprepare
    simp only [Service.serve, hprepare]
    refine ⟨fun c' hc' => h.stored c' (hread.tables ▸ hc'), fun e he => ?_⟩
    rw [hcache, get?_foldl_addEntry, Option.or_eq_some_iff] at he
    rcases he with he | ⟨-, hfind⟩
    · exact h.cached e he
    · have hid : e.constraint.id = c.id := by simpa using List.find?_some hfind
      exact h.stored _ (hid ▸ (hes e (List.mem_of_find?_eq_some hfind)).definition)
  | reconcile incoming => exact absurd rfl (hr incoming)
  | drain =>
    obtain ⟨⟨cache, pending⟩, store⟩ := v
    cases pending with
    | nil => exact h
    | cons w rest =>
      obtain ⟨batch, rfl⟩ := hv.pending w List.mem_cons_self
      exact h.of_eq (perform_occurrences batch store).1 fun e' he' => ⟨e', he', rfl⟩
  | flush =>
    simp only [Service.serve, flush, performAll_store]
    exact h.of_eq (foldl_perform_occurrences hv.pending v.store).1 fun e' he' => ⟨e', he', rfl⟩

theorem Enforces.run (h : v.Enforces c) (hv : v.Consistent) {rs : List Request}
    (hrs : ∀ incoming, .reconcile incoming ∉ rs) : (v.run rs).Enforces c := by
  induction rs generalizing v with
  | nil => exact h
  | cons r rs ih =>
    refine ih (h.serve hv fun incoming hr => hrs incoming (hr ▸ List.mem_cons_self))
      (consistent_serve v r hv) fun incoming hmem => hrs incoming (List.mem_cons_of_mem _ hmem)

/-- A list that is taken is enforced by what it leaves, as far as that is cached. -/
theorem enforces_reconcile (hv : v.Consistent) {incoming : List Constraint}
    (hnodup : (incoming.map (·.id)).Nodup) (hc : c ∈ incoming)
    (hok : (v.serve (.reconcile incoming)).1 = .outcome (.ok ())) :
    (v.serve (.reconcile incoming)).2.Enforces c := by
  rcases hset : v.limiter.setConstraints v.store incoming with ⟨r, l', s'⟩
  simp only [Service.serve, hset] at hok ⊢
  rcases setConstraints_cases hv.losesOnlyOccurrences hv.pending hset with
    ⟨-, -, _, rfl, -⟩ | ⟨stored, s₁, hstored, hs₁, -, rfl, htables, -⟩
  · cases hok
  have hrows : (v.limiter.pending.foldl (fun s w => (w.perform s).2) s₁).tables.constraints =
      v.store.tables.constraints := by
    rw [(foldl_perform_occurrences hv.pending s₁).1, hs₁.tables]
  have hstored' : (v.limiter.pending.foldl (fun s w => (w.perform s).2) s₁).tables.allConstraints =
      .ok stored := by
    rw [Tables.allConstraints, hrows]
    exact hstored
  refine ⟨fun c' hc' => ?_, fun e he => ?_⟩
  · rw [htables] at hc'
    exact Difference.enforcedBy_stored hnodup hstored' hc hc'
  · obtain ⟨-, e₀, he₀, rfl⟩ := exists_get?_of_applyToCache he
    exact Difference.enforcedBy_cached hnodup hstored hc hv.backed he₀

/-! ## Every window -/

/-- **A listed constraint is enforced once it is covered.**  After the latest list, from when on a
checker that names a constraint of it has been made since the constraint was last left out, whatever
checkers are asked: what is accepted for the constraint in a window as long as its range has whole
milliseconds is at most its count. -/
theorem accepted_le_of_covered {s : Store} (hs : s.LosesOnlyOccurrences)
    (past first rest : List Request) {incoming : List Constraint}
    (hnodup : (incoming.map (·.id)).Nodup) (hc : c ∈ incoming)
    (hok : (((start s).run past).serve (.reconcile incoming)).1 = .outcome (.ok ()))
    (hlast : ∀ constraints, .reconcile constraints ∉ first ++ rest)
    (hcovered : covered c.id (start s) false (past ++ .reconcile incoming :: first) = true)
    (hclock : (readings rest).Pairwise (· ≤ ·)) {u w : Instant} (hu : u.IsPlain) (hw : w.IsPlain)
    (hlen : w.since u ≤ c.asStored.range.nanos)
    (hplain : ∀ t ∈ ((start s).run (past ++ .reconcile incoming :: first)).accepted c.id rest,
      u ≤ t → t ≤ w → t.IsPlain) :
    ((((start s).run (past ++ .reconcile incoming :: first)).accepted c.id rest).filter fun t =>
      u ≤ t ∧ t ≤ w).length ≤ c.count := by
  have hbefore := consistent_run (consistent_start hs) past
  have henforces : ((start s).run (past ++ .reconcile incoming :: first)).Enforces c := by
    rw [run_append, run_cons]
    exact (enforces_reconcile hbefore hnodup hc hok).run (consistent_serve _ _ hbefore)
      fun constraints hmem => hlast constraints (List.mem_append_left _ hmem)
  obtain ⟨e, he⟩ := Option.isSome_iff_exists.mp
    (contains_of_covered (consistent_start hs) (fun h => absurd h Bool.false_ne_true) hcovered)
  have hcapped : Capped u e [] := .start (ascending_run s _ _ _ he)
  have henforced := henforces.cached e he
  rw [← henforced.count]
  exact length_filter_accepted_le_of_kept (P := fun _ => True) (fun _ _ _ => trivial) hu hw trivial
    he (henforced.window_le hlen)
    (fun r hr v' e' _ he' _ => get?_serve_of_no_list he' fun constraints heq =>
      hlast constraints (List.mem_append_right _ (heq ▸ hr)))
    hclock hcapped (fun t ht => absurd ht List.not_mem_nil) hplain

/-! ## A constraint that comes back -/

/-- A constraint is used through a checker, left out of a list and listed again. -/
def leftOut : List Request :=
  [.reconcile [halfSecond], .prepare ["c"], .increment ["c"] (.ofMillis 900), .reconcile []]

/-- The checker from before skips it, and a new one is made. -/
def reloading : List Request :=
  [.increment ["c"] (.ofMillis 1000), .increment ["c"] (.ofMillis 1000), .prepare ["c", "c"]]

/-- Three increments through either checker. -/
def renewed : List Request :=
  [.increment ["c"] (.ofMillis 2000), .increment ["c", "c"] (.ofMillis 2500),
    .increment ["c"] (.ofMillis 2501)]

/-- The bound at that run, between seconds 2 and 2.5. -/
theorem accepted_renewed_le :
    ((((start forgetful).run (leftOut ++ .reconcile [halfSecond] :: reloading)).accepted "c"
      renewed).filter fun t => .ofMillis 2000 ≤ t ∧ t ≤ .ofMillis 2500).length ≤ 1 ∧
    ((start forgetful).run (leftOut ++ .reconcile [halfSecond] :: reloading)).accepted "c" renewed =
      [.ofMillis 2000, .ofMillis 2501] :=
  ⟨accepted_le_of_covered losesOnlyOccurrences_forgetful leftOut reloading renewed (c := halfSecond)
    (by decide) (List.mem_singleton_self _) rfl (by simp [reloading, renewed]) (by decide) (by decide)
    (by decide) (by decide) (by decide) (by decide), by decide⟩

/-- The bound needs its conditions.  A checker from before a constraint was left out skips it when it
is listed again.  From inside a leap second to the next second the clock measures a whole second where
there is no room for one.  And half a millisecond is loaded as none. -/
theorem redefined_constraint_is_skipped :
    ((((start (.ofTables .empty)).run leftOut).serve (.reconcile [halfSecond])).1 =
        .outcome (.ok ()) ∧
      (Instant.ofMillis 1500).since (.ofMillis 1000) = halfSecond.range.nanos ∧
      halfSecond.count < ((((start (.ofTables .empty)).run
        (leftOut ++ [.reconcile [halfSecond]])).accepted "c"
          [.increment ["c"] (.ofMillis 1000), .increment ["c"] (.ofMillis 1000)]).filter fun t =>
            .ofMillis 1000 ≤ t ∧ t ≤ .ofMillis 1500).length) ∧
    ((Instant.ofMillis 60300).since (.ofMillis 59800) = halfSecond.range.nanos ∧
      leapSecond ≤ .ofMillis 60000 ∧
      halfSecond.count < ((((start (.ofTables .empty)).run
        [.reconcile [halfSecond], .prepare ["c"]]).accepted "c"
          [.increment ["c"] leapSecond, .increment ["c"] (.ofMillis 60000)]).filter fun t =>
            .ofMillis 59800 ≤ t ∧ t ≤ .ofMillis 60300).length) ∧
    (halfMilliIn.since (.ofMillis 0) = halfMilli.range.nanos ∧
      halfMilli.count < ((((start (.ofTables .empty)).run
        [.reconcile [halfMilli], .prepare ["c"]]).accepted "c"
          [.increment ["c"] (.ofMillis 0), .increment ["c"] halfMilliIn]).filter fun t =>
            .ofMillis 0 ≤ t ∧ t ≤ halfMilliIn).length) :=
  ⟨⟨rfl, by decide, by decide⟩, by decide, by decide⟩

end Service

end Limiter
end Automation
