import Automation.Proofs.Limit.Upkeep

/-!
# What a reconciliation is an authority on

After a reconciliation that succeeds, whatever failed before it, every cached constraint is named by
the list.  Its definition need not be the one of the list: what has to change is found by comparing
the list with the stored definitions, and the cache is not looked at.  So the definition is the one
of the list exactly where the stored one differed from it or the cached one did not
(`Service.definition_after_reconcile`).

## Why the cache can be behind

The cache follows a list at once and the tables follow as far as they can be written.  When a
redefinition is refused, the reconciliation says so and the cache keeps what the tables do not have.
A later list that names the stored definition finds nothing to change, so it succeeds and the cache
goes on limiting by the refused definition (`Service.refused_definition_stays`).

## What failures cannot do

No failure caches a constraint that is not defined.  A replacement may stop half way, but what it
takes from the tables it has taken from the cache before, and defining constraints only adds rows.
`Service.Grounded` is this invariant, and it holds over every store.
-/

namespace Automation

/-- A constraint has a definition, readable or not. -/
def Tables.Defines (t : Tables) (id : String) : Prop := ∃ row, t.constraints.get? id = some row

theorem Tables.contains_iff_defines {t : Tables} {id : String} :
    t.constraints.contains id = true ↔ t.Defines id := Option.isSome_iff_exists

namespace Limiter

/-! ## Writing, whatever is refused -/

section Writing

variable {s : Store} {id : String}

/-- Defining constraints leaves every constraint defined that was, however far it gets. -/
theorem defines_upsertAll (cs : List Constraint) (h : s.tables.Defines id) :
    (PendingWrite.upsertAll cs s).2.tables.Defines id := by
  induction cs generalizing s with
  | nil => exact h
  | cons c rest ih =>
    have hfirst : (s.writeConstraint c).2.tables.Defines id := by
      rcases Store.command_tables s .writeConstraint true (fun t => .ok (t.putConstraint c)) with
        hsame | hput
      · exact hsame.symm ▸ h
      · have hput' := Except.ok.inj hput
        rw [Store.writeConstraint, ← hput', Tables.Defines, Tables.putConstraint,
          Table.get?_insert]
        split
        · exact ⟨_, rfl⟩
        · exact h
    rw [PendingWrite.upsertAll]
    split
    · next hwrite =>
      rw [hwrite] at hfirst
      exact hfirst
    · next hwrite =>
      rw [hwrite] at hfirst
      exact ih hfirst

theorem defines_deleteConstraints {ids : List String} (hid : id ∉ ids) (h : s.tables.Defines id) :
    (s.deleteConstraints ids).2.tables.Defines id := by
  rcases Store.command_tables s .deleteConstraints (!ids.isEmpty)
    (fun t => .ok (t.deleteConstraints ids)) with hsame | hdelete
  · exact hsame.symm ▸ h
  · rw [Store.deleteConstraints, ← Except.ok.inj hdelete, Tables.Defines, Tables.deleteConstraints,
      Table.get?_filter_key _ (fun id => !ids.contains id), if_pos (by simpa using hid)]
    exact h

theorem defines_deleteOccurrences (ids : List String) (h : s.tables.Defines id) :
    (s.deleteOccurrences ids).2.tables.Defines id := by
  rcases Store.command_tables s .deleteOccurrences (!ids.isEmpty)
    (fun t => .ok (t.deleteOccurrences ids)) with hsame | hdelete
  · exact hsame.symm ▸ h
  · rw [Store.deleteOccurrences, ← Except.ok.inj hdelete]
    exact h

/-- Wherever a replacement stops, it has deleted no definition but those it was to delete. -/
theorem defines_perform_replacement {delete reset : List String} {upsert : List Constraint}
    (hid : id ∉ delete) (h : s.tables.Defines id) :
    ((PendingWrite.replacement delete reset upsert).perform s).2.tables.Defines id := by
  have hdeleted := defines_deleteConstraints hid h
  rw [PendingWrite.perform]
  split
  · next hdelete =>
    rw [hdelete] at hdeleted
    exact hdeleted
  · next s₁ hdelete =>
    rw [hdelete] at hdeleted
    have hcleared := defines_deleteOccurrences reset hdeleted
    split
    · next hreset =>
      rw [hreset] at hcleared
      exact hcleared
    · next hreset =>
      rw [hreset] at hcleared
      exact defines_upsertAll upsert hcleared

/-- A reconciliation that cannot read the stored definitions changes nothing.  Any other changes the
cache by the difference to what is stored, and its answer is that of the replacement. -/
theorem setConstraints_spec {l l' : Limiter} {s' : Store} {incoming : List Constraint}
    {r : Except LimitError Unit} (h : l.setConstraints s incoming = (r, l', s')) :
    (l' = l ∧ s'.tables = s.tables ∧ ∃ e, r = .error e) ∨
      ∃ (stored : List Constraint) (s₁ : Store),
        s.tables.allConstraints = .ok stored ∧ s₁.tables = s.tables ∧
        l' = ⟨(Difference.between stored incoming).applyToCache l.cache, []⟩ ∧
        s' = ((PendingWrite.replacement (Difference.between stored incoming).delete
          (Difference.between stored incoming).reset
          (Difference.between stored incoming).upsert).perform
            (l.pending.foldl (fun s w => (w.perform s).2) s₁)).2 := by
  rw [setConstraints] at h
  split at h
  · next e s₁ hread =>
    cases h
    exact Or.inl ⟨rfl, (Store.isReadOf_query hread).tables, _, rfl⟩
  · next stored s₁ hread =>
    simp only [performAll_append, Prod.mk.injEq] at h
    obtain ⟨-, rfl, rfl⟩ := h
    exact Or.inr ⟨stored, s₁, Store.read_of_query hread, (Store.isReadOf_query hread).tables, rfl,
      rfl⟩

end Writing

/-! ## What is cached is defined -/

/-- Only occurrences wait to be written, and every cached constraint stands under its own id and is
defined. -/
structure Service.Grounded (v : Service) : Prop where
  pending : ∀ w ∈ v.limiter.pending, ∃ batch, w = .occurrences batch
  id_eq : ∀ id e, v.limiter.cache.get? id = some e → e.constraint.id = id
  defined : ∀ id e, v.limiter.cache.get? id = some e → v.store.tables.Defines id

/-- An increment leaves at most occurrences to be written. -/
theorem checkAndIncrement_waiting {l : Limiter} (ids : List String) (now : Instant)
    (h : ∀ w ∈ l.pending, ∃ batch, w = .occurrences batch) :
    ∀ w ∈ (l.checkAndIncrement ids now).2.pending, ∃ batch, w = .occurrences batch := by
  intro w hw
  cases hover : l.isOver ids now with
  | true =>
    rw [checkAndIncrement_of_isOver hover] at hw
    exact h w hw
  | false =>
    rw [checkAndIncrement_pending hover, List.mem_append] at hw
    rcases hw with hw | hw
    · exact h w hw
    · split at hw
      · cases hw
      · exact ⟨_, List.mem_singleton.mp hw⟩

/-- What is cached after a difference was cached before and is not deleted. -/
theorem exists_get?_of_applyToCache {d : Difference} {cache : Table String CacheEntry} {id : String}
    {e : CacheEntry} (h : (d.applyToCache cache).get? id = some e) :
    id ∉ d.delete ∧ ∃ e₀, cache.get? id = some e₀ ∧ e = d.applyToEntry id e₀ := by
  rw [get?_applyToCache] at h
  split at h
  · cases h
  · next hkept =>
    obtain ⟨e₀, he₀, he⟩ := Option.map_eq_some_iff.mp h
    exact ⟨hkept, e₀, he₀, he.symm⟩

theorem Difference.applyToEntry_id {d : Difference} {id : String} {e : CacheEntry}
    (h : e.constraint.id = id) : (d.applyToEntry id e).constraint.id = id := by
  rw [applyToEntry]
  cases hlast : (d.upsert.filter fun c => c.id = id).getLast? with
  | none => exact h
  | some c => exact of_decide_eq_true (List.mem_filter.mp (List.mem_of_getLast? hlast)).2

namespace Service

variable {v : Service}

theorem grounded_start (s : Store) : (start s).Grounded where
  pending _ hw := absurd hw List.not_mem_nil
  id_eq _ _ he := by cases he
  defined _ _ he := by cases he

/-- Neither histories nor the tables' occurrences matter. -/
theorem Grounded.of_eq {v' : Service} (h : v.Grounded)
    (hpending : ∀ w ∈ v'.limiter.pending, ∃ batch, w = .occurrences batch)
    (hcache : ∀ id, (v'.limiter.cache.get? id).map CacheEntry.constraint =
      (v.limiter.cache.get? id).map CacheEntry.constraint)
    (hrows : v'.store.tables.constraints = v.store.tables.constraints) : v'.Grounded := by
  have hbefore : ∀ id e, v'.limiter.cache.get? id = some e →
      ∃ e₀, v.limiter.cache.get? id = some e₀ ∧ e₀.constraint = e.constraint := by
    intro id e he
    have hsame := hcache id
    rw [he, Option.map_some] at hsame
    exact Option.map_eq_some_iff.mp hsame.symm
  refine ⟨hpending, fun id e he => ?_, fun id e he => ?_⟩
  · obtain ⟨e₀, he₀, hc⟩ := hbefore id e he
    rw [← hc, h.id_eq id e₀ he₀]
  · obtain ⟨e₀, he₀, -⟩ := hbefore id e he
    rw [Tables.Defines, hrows]
    exact h.defined id e₀ he₀

/-- Every request keeps the invariant, whatever the store refuses. -/
theorem grounded_serve (v : Service) (r : Request) (h : v.Grounded) : (v.serve r).2.Grounded := by
  cases r with
  | check ids now => exact h
  | increment ids now =>
    exact h.of_eq (checkAndIncrement_waiting ids now h.pending)
      (fun id => get?_checkAndIncrement_constraint id) rfl
  | prepare ids =>
    rcases hprep : v.limiter.prepare v.store ids with ⟨answer, l', s'⟩
    obtain ⟨hread, hpending, es, hes, hcache⟩ := prepare_spec hprep
    have hnew : ∀ id e, l'.cache.get? id = some e → v.limiter.cache.get? id = some e ∨
        e.constraint.id = id ∧ v.store.tables.Defines id := by
      intro id e he
      rw [hcache, get?_foldl_addEntry, Option.or_eq_some_iff] at he
      refine he.imp_right fun ⟨_, hfind⟩ => ?_
      have hid : e.constraint.id = id := by simpa using List.find?_some hfind
      obtain ⟨row, hrow, -⟩ :=
        exists_row_of_constraint? (hes e (List.mem_of_find?_eq_some hfind)).definition
      exact ⟨hid, row, hid ▸ hrow⟩
    simp only [serve, hprep]
    refine ⟨by rw [hpending]; exact h.pending, fun id e he => ?_, fun id e he => ?_⟩
    · exact (hnew id e he).elim (h.id_eq id e) And.left
    · rw [hread.tables]
      exact (hnew id e he).elim (h.defined id e) And.right
  | reconcile incoming =>
    rcases hset : v.limiter.setConstraints v.store incoming with ⟨answer, l', s'⟩
    simp only [serve, hset]
    rcases setConstraints_spec hset with ⟨rfl, htables, -⟩ | ⟨stored, s₁, -, hs₁, rfl, rfl⟩
    · exact h.of_eq h.pending (fun _ => rfl) (congrArg Tables.constraints htables)
    · have hrows := (foldl_perform_occurrences h.pending s₁).1
      refine ⟨fun w hw => absurd hw List.not_mem_nil, fun id e he => ?_, fun id e he => ?_⟩
      · obtain ⟨-, e₀, he₀, rfl⟩ := exists_get?_of_applyToCache he
        exact Difference.applyToEntry_id (h.id_eq id e₀ he₀)
      · obtain ⟨hkept, e₀, he₀, -⟩ := exists_get?_of_applyToCache he
        refine defines_perform_replacement hkept ?_
        rw [Tables.Defines, hrows, hs₁]
        exact h.defined id e₀ he₀
  | drain =>
    simp only [serve, drain]
    cases hpending : v.limiter.pending with
    | nil => exact h
    | cons w rest =>
      obtain ⟨batch, rfl⟩ := h.pending w (hpending ▸ List.mem_cons_self)
      refine h.of_eq (fun w' hw' => h.pending w' ?_) (fun _ => rfl)
        (perform_occurrences batch v.store).1
      rw [hpending]
      exact List.mem_cons_of_mem _ hw'
  | flush =>
    simp only [serve, flush, performAll_store]
    exact h.of_eq (fun w hw => absurd hw List.not_mem_nil) (fun _ => rfl)
      (foldl_perform_occurrences h.pending v.store).1

theorem grounded_run (s : Store) (rs : List Request) : ((start s).run rs).Grounded :=
  run_induction grounded_serve (grounded_start s) rs

/-! ## After a list was taken -/

/-- What a definition is compared with: it is left alone just if the stored one is the same. -/
theorem redefines_eq_false_iff {stored : List Constraint} {c₀ c : Constraint}
    (hfind : stored.find? (fun current => current.id = c.id) = some c₀) :
    Difference.redefines stored c = false ↔ c₀ = c := by
  have hid : c₀.id = c.id := by simpa using List.find?_some hfind
  rw [Difference.redefines, hfind, Option.all_some, Bool.or_eq_false_iff,
    decide_eq_false_iff_not, decide_eq_false_iff_not, not_not, not_not]
  obtain ⟨id₀, range₀, count₀⟩ := c₀
  obtain ⟨id, range, count⟩ := c
  rw [Constraint.mk.injEq]
  exact ⟨fun h => ⟨hid, h⟩, fun h => h.2⟩

/-- **Every constraint that is cached after a list was taken is named by the list.**  Its definition
is the one of the list exactly where the stored one was another or the cached one was the same,
whatever the store refused before. -/
theorem definition_after_reconcile (s : Store) (before : List Request)
    {incoming : List Constraint} (hnodup : (incoming.map (·.id)).Nodup)
    (hok : (((start s).run before).serve (.reconcile incoming)).1 = .outcome (.ok ()))
    {id : String} {e : CacheEntry}
    (he : (((start s).run before).serve (.reconcile incoming)).2.limiter.cache.get? id = some e) :
    ∃ c ∈ incoming, c.id = id ∧ ∃ e₀, ((start s).run before).limiter.cache.get? id = some e₀ ∧
      (e.constraint = c ↔ ((start s).run before).store.tables.constraint? id ≠ .ok (some c) ∨
        e₀.constraint = c) := by
  have hv := grounded_run s before
  revert hok he
  generalize (start s).run before = v at hv ⊢
  intro hok he
  rcases hset : v.limiter.setConstraints v.store incoming with ⟨answer, l', s'⟩
  simp only [serve, hset] at hok he
  rcases setConstraints_spec hset with ⟨-, -, _, rfl⟩ | ⟨stored, s₁, hstored, -, rfl, -⟩
  · cases hok
  obtain ⟨hkept, e₀, he₀, rfl⟩ := exists_get?_of_applyToCache he
  obtain ⟨row, hrow⟩ := hv.defined id e₀ he₀
  obtain ⟨c₀, hread, hfind⟩ := find?_of_allConstraints hstored hrow
  have hid₀ : c₀.id = id := constraintOfRow_id hread
  obtain ⟨c, hc, hid⟩ := Difference.exists_of_not_mem_delete (List.mem_of_find?_eq_some hfind)
    (hid₀ ▸ hkept)
  have hid' : c.id = id := hid.trans hid₀
  subst hid'
  have hdefined : v.store.tables.constraint? c.id = .ok (some c₀) := by
    rw [Tables.constraint?, hrow]
    exact congrArg (Except.map some) hread
  refine ⟨c, hc, rfl, e₀, he₀, ?_⟩
  rw [Difference.applyToEntry_of_mem hnodup hc, hdefined]
  cases hredefines : Difference.redefines stored c with
  | true =>
    have hother : c₀ ≠ c := fun heq => by
      rw [(redefines_eq_false_iff hfind).mpr heq] at hredefines
      cases hredefines
    exact iff_of_true rfl (Or.inl fun h => hother (Option.some.inj (Except.ok.inj h)))
  | false =>
    rw [(redefines_eq_false_iff hfind).mp hredefines, if_neg Bool.false_ne_true]
    exact (or_iff_right fun h => h rfl).symm

/-! ## A definition that was refused -/

/-- A store that refuses the redefinition of a constraint when it is called for the tenth time. -/
def refusing : Store :=
  { Store.ofTables .empty with
    plan := fun call op =>
      if call = 9 ∧ op = .writeConstraint then some (.refused "tenth call") else none }

/-- Once, then once more, in half a second. -/
def once : Constraint := ⟨"c", .ofMillis 500, 1⟩

/-- Twice in half a second. -/
def twice : Constraint := { once with count := 2 }

/-- A constraint is defined and cached, and redefining it is refused. -/
def refusal : List Request := [.reconcile [once], .prepare ["c"], .reconcile [twice]]

/-- The list names the stored definition, so what decides is the cached one. -/
theorem definition_after_refusal :
    ∃ c ∈ [once], c.id = "c" ∧ ∃ e₀, ((start refusing).run refusal).limiter.cache.get? "c" = some e₀ ∧
      ((⟨twice, []⟩ : CacheEntry).constraint = c ↔
        ((start refusing).run refusal).store.tables.constraint? "c" ≠ .ok (some c) ∨
          e₀.constraint = c) :=
  definition_after_reconcile refusing refusal (by decide) rfl (by decide)

/-- A list may succeed and leave the cache limiting by another definition: where one is allowed two
increments are accepted. -/
theorem refused_definition_stays :
    (((start refusing).run refusal).serve (.reconcile [once])).1 = .outcome (.ok ()) ∧
      (((start refusing).run refusal).serve (.reconcile [once])).2.limiter.cache.get? "c" =
        some ⟨twice, []⟩ ∧
      ((((start refusing).run refusal).serve (.reconcile [once])).2.limiter.checkAndIncrement
        ["c", "c"] .epoch).1 = true :=
  ⟨rfl, by decide, by decide⟩

end Service

end Limiter
end Automation
