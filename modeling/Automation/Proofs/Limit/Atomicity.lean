import Automation.Proofs.Limit.Enforcement
import Automation.Proofs.Limit.Loading

/-!
# All of a list or nothing

A new checker may need constraints that are not cached yet.  Each takes two calls, one for the
definition and one for the history, and every call may fail: the store refuses it, or a row cannot
be read, or there is no definition.  `LoadFails` says which of these happens at a given call, and
`load_cases` that one of them does whenever a constraint is not loaded.

The constraints are read one after another and put into the cache together.  So a list of which one
cannot be read leaves the cache as it was, whatever had been read before, and the error is that of
the first one that cannot (`FirstFailure`).  A list that is read brings into the cache what was
missing and leaves the rest, which may know of occurrences that the store has not seen
(`prepare_atomic`).
-/

namespace Automation
namespace Limiter

/-! ## One constraint -/

/-- A constraint cannot be loaded from these tables when the call that reads its definition has this
number. -/
inductive LoadFails (plan : FaultPlan) (t : Tables) (call : Nat) (id : String) : LimitError → Prop
  | definitionRefused {e : StorageError} (h : plan call .readConstraint = some e) :
    LoadFails plan t call id (.storage e)
  | definitionUnreadable {e : StorageError} (hcall : plan call .readConstraint = none)
    (h : t.constraint? id = .error e) : LoadFails plan t call id (.storage e)
  | undefined (hcall : plan call .readConstraint = none) (h : t.constraint? id = .ok none) :
    LoadFails plan t call id (.notFound id)
  | historyRefused {c : Constraint} {e : StorageError} (hcall : plan call .readConstraint = none)
    (hdefinition : t.constraint? id = .ok (some c))
    (h : plan (call + 1) .readOccurrences = some e) : LoadFails plan t call id (.storage e)
  | historyUnreadable {c : Constraint} {e : StorageError} (hcall : plan call .readConstraint = none)
    (hdefinition : t.constraint? id = .ok (some c))
    (hcall' : plan (call + 1) .readOccurrences = none) (h : t.occurrencesOf id = .error e) :
    LoadFails plan t call id (.storage e)

/-- Loading takes two calls, or it fails.  It changes nothing in a store but the number of calls. -/
theorem load_cases (id : String) (s : Store) :
    (∃ e, load id s = (.ok e, { s with calls := s.calls + 2 })) ∨
    ∃ e n, load id s = (.error e, { s with calls := n }) ∧
      LoadFails s.plan s.tables s.calls id e := by
  cases hcall : s.plan s.calls .readConstraint with
  | some e =>
    refine Or.inr ⟨.storage e, s.calls + 1, ?_, .definitionRefused hcall⟩
    simp only [load, Store.readConstraint, Store.query, hcall]
  | none =>
    rcases hdefinition : s.tables.constraint? id with e | _ | c
    · refine Or.inr ⟨.storage e, s.calls + 1, ?_, .definitionUnreadable hcall hdefinition⟩
      simp only [load, Store.readConstraint, Store.query, hcall, hdefinition]
    · refine Or.inr ⟨.notFound id, s.calls + 1, ?_, .undefined hcall hdefinition⟩
      simp only [load, Store.readConstraint, Store.query, hcall, hdefinition]
    · cases hcall' : s.plan (s.calls + 1) .readOccurrences with
      | some e =>
        refine Or.inr ⟨.storage e, s.calls + 2, ?_, .historyRefused hcall hdefinition hcall'⟩
        simp only [load, Store.readConstraint, Store.readOccurrences, Store.query, hcall,
          hdefinition, hcall']
      | none =>
        cases hhistory : s.tables.occurrencesOf id with
        | error e =>
          refine Or.inr ⟨.storage e, s.calls + 2, ?_,
            .historyUnreadable hcall hdefinition hcall' hhistory⟩
          simp only [load, Store.readConstraint, Store.readOccurrences, Store.query, hcall,
            hdefinition, hcall', hhistory]
        | ok os =>
          refine Or.inl ⟨⟨c, sortBy Instant.rank (os.map (·.time))⟩, ?_⟩
          simp only [load, Store.readConstraint, Store.readOccurrences, Store.query, hcall,
            hdefinition, hcall', hhistory]

variable {plan : FaultPlan} {t : Tables} {call : Nat} {id : String} {rest : List String}

/-- Whether a constraint can be loaded, and if not why, is settled by the tables and the plan. -/
theorem load_of_loadFails {s : Store} {e : LimitError}
    (h : LoadFails s.plan s.tables s.calls id e) : (load id s).1 = .error e := by
  cases h with
  | definitionRefused h => simp only [load, Store.readConstraint, Store.query, h]
  | definitionUnreadable hcall h => simp only [load, Store.readConstraint, Store.query, hcall, h]
  | undefined hcall h => simp only [load, Store.readConstraint, Store.query, hcall, h]
  | historyRefused hcall hdefinition h =>
    simp only [load, Store.readConstraint, Store.readOccurrences, Store.query, hcall, hdefinition,
      h]
  | historyUnreadable hcall hdefinition hcall' h =>
    simp only [load, Store.readConstraint, Store.readOccurrences, Store.query, hcall, hdefinition,
      hcall', h]

/-! ## Constraints that are read one after another -/

/-- Of constraints that are read one after another from a call on, the first that cannot be loaded
fails with this error.  Each one before it has taken two calls. -/
def FirstFailure (plan : FaultPlan) (t : Tables) (call : Nat) (ids : List String) (e : LimitError) :
    Prop :=
  ∃ k id, ids[k]? = some id ∧ LoadFails plan t (call + 2 * k) id e ∧
    ∀ j < k, ∀ id', ids[j]? = some id' → ∀ e', ¬ LoadFails plan t (call + 2 * j) id' e'

theorem not_firstFailure_nil {e : LimitError} : ¬ FirstFailure plan t call [] e := by
  rintro ⟨k, id, hid, -⟩
  cases hid

/-- The first failure is that of the first constraint, or it comes later and the first constraint is
loaded. -/
theorem firstFailure_cons {e : LimitError} : FirstFailure plan t call (id :: rest) e ↔
    LoadFails plan t call id e ∨
      (∀ e', ¬ LoadFails plan t call id e') ∧ FirstFailure plan t (call + 2) rest e := by
  have hnext : ∀ k, call + 2 * (k + 1) = call + 2 + 2 * k := fun k => by omega
  constructor
  · rintro ⟨_ | k, id', hid', hfails, hbefore⟩
    · cases hid'
      exact Or.inl hfails
    · refine Or.inr ⟨hbefore 0 k.succ_pos id rfl, k, id', hid', hnext k ▸ hfails, fun j hj => ?_⟩
      exact hnext j ▸ hbefore (j + 1) (Nat.succ_lt_succ hj)
  · rintro (hfails | ⟨hfirst, k, id', hid', hfails, hbefore⟩)
    · exact ⟨0, id, rfl, hfails, fun j hj => absurd hj j.not_lt_zero⟩
    · refine ⟨k + 1, id', hid', (hnext k).symm ▸ hfails, fun j hj => ?_⟩
      cases j with
      | zero =>
        intro id'' hid''
        cases hid''
        exact hfirst
      | succ j => exact (hnext j).symm ▸ hbefore j (Nat.lt_of_succ_lt_succ hj)

/-- Reading stops at the first failure.  It changes nothing in a store but the number of calls. -/
theorem loadAll_spec (ids : List String) (s : Store) :
    (∀ e, (loadAll ids s).1 = .error e ↔ FirstFailure s.plan s.tables s.calls ids e) ∧
    ∃ n, (loadAll ids s).2 = { s with calls := n } := by
  induction ids generalizing s with
  | nil => exact ⟨fun e => iff_of_false (fun h => by cases h) not_firstFailure_nil, s.calls, rfl⟩
  | cons id rest ih =>
    rcases load_cases id s with ⟨entry, hload⟩ | ⟨e, n, hload, hfails⟩
    · obtain ⟨hanswer, n, hstore⟩ := ih { s with calls := s.calls + 2 }
      have hloaded : ∀ e', ¬ LoadFails s.plan s.tables s.calls id e' := by
        intro e' hfails
        have herror := load_of_loadFails hfails
        rw [hload] at herror
        cases herror
      rcases hrest : loadAll rest { s with calls := s.calls + 2 } with ⟨answer, s'⟩
      rw [hrest] at hanswer hstore
      refine ⟨fun e => ?_, n, ?_⟩
      · rw [firstFailure_cons, or_iff_right (hloaded e), and_iff_right hloaded, ← hanswer]
        cases answer with
        | error e' => simp only [loadAll, hload, hrest]
        | ok es => simp only [loadAll, hload, hrest, reduceCtorEq]
      · cases answer with
        | error e' => simpa only [loadAll, hload, hrest] using hstore
        | ok es => simpa only [loadAll, hload, hrest] using hstore
    · have hall : loadAll (id :: rest) s = (.error e, { s with calls := n }) := by
        simp only [loadAll, hload]
      rw [hall]
      refine ⟨fun e' => ?_, n, rfl⟩
      rw [firstFailure_cons]
      constructor
      · intro h
        cases h
        exact Or.inl hfails
      · rintro (hfails' | ⟨hloaded, -⟩)
        · have herror := load_of_loadFails hfails'
          rw [hload] at herror
          cases herror
          rfl
        · exact absurd hfails (hloaded e)

/-! ## New checkers -/

/-- The ids of a list that are not cached. -/
def missing (l : Limiter) (ids : List String) : List String :=
  ids.filter fun id => !l.cache.contains id

/-- What a new checker brings into the cache is what the tables have for it, and it was missing. -/
theorem loaded?_of_prepare {l l' : Limiter} {s s' : Store} {ids : List String}
    (h : l.prepare s ids = (.ok (), l', s')) {id : String} {e : CacheEntry}
    (hnew : l.cache.get? id = none) (he : l'.cache.get? id = some e) :
    id ∈ ids ∧ s.tables.loaded? id = some e := by
  rw [prepare] at h
  split at h
  · cases h
  · next es s₁ hload =>
    cases h
    obtain ⟨hids, hes⟩ := isLoaded_of_loadAll hload
    rw [get?_foldl_addEntry, hnew, Option.none_or] at he
    have hmem : e ∈ es := List.mem_of_find?_eq_some he
    have hid : e.constraint.id = id := by simpa using List.find?_some he
    have hmissing : e.constraint.id ∈ es.map (·.constraint.id) := List.mem_map_of_mem hmem
    rw [hids] at hmissing
    exact ⟨hid ▸ (List.mem_filter.mp hmissing).1, hid ▸ isLoaded_iff.mp (hes e hmem)⟩

/-- **Loading is all or nothing and replaces nothing.**  In every state of a limiter and over every
store a new checker fails exactly with the error of the first id that is not cached and cannot be
loaded, and then the cache and the queue are as before, whatever had been read.  Otherwise every id
of its list is cached, what was cached and what waits to be written are as before, and what is new
belongs to the list and has the stored definition with exactly the stored occurrences, all of them
read, in ascending order.  The store only counts the calls. -/
theorem prepare_atomic (l : Limiter) (s : Store) (ids : List String) :
    (∀ e, (l.prepare s ids).1 = .error e ↔
      FirstFailure s.plan s.tables s.calls (l.missing ids) e) ∧
    (∃ n, (l.prepare s ids).2.2 = { s with calls := n }) ∧
    (∀ e, (l.prepare s ids).1 = .error e → (l.prepare s ids).2.1 = l) ∧
    ((l.prepare s ids).1 = .ok () →
      (l.prepare s ids).2.1.pending = l.pending ∧
      (∀ id ∈ ids, (l.prepare s ids).2.1.cache.contains id = true) ∧
      (∀ id e, l.cache.get? id = some e → (l.prepare s ids).2.1.cache.get? id = some e) ∧
      ∀ id e, l.cache.get? id = none → (l.prepare s ids).2.1.cache.get? id = some e →
        id ∈ ids ∧ s.tables.constraint? id = .ok (some e.constraint) ∧
        s.tables.IsReadableFor id ∧ e.times.Pairwise (· ≤ ·) ∧
        e.times.Perm (s.tables.timesOf id)) := by
  obtain ⟨hanswer, n, hstore⟩ := loadAll_spec (l.missing ids) s
  rcases hload : loadAll (l.missing ids) s with ⟨e | es, s'⟩
  · have hprepare : l.prepare s ids = (.error e, l, s') := by
      rw [missing] at hload
      simp only [prepare, hload]
    rw [hload] at hanswer hstore
    refine ⟨fun e' => ?_, ⟨n, by rw [hprepare]; exact hstore⟩, fun _ _ => by rw [hprepare],
      fun h => ?_⟩
    · rw [hprepare, ← hanswer]
      exact ⟨fun h => congrArg Except.error (Except.error.inj h),
        fun h => congrArg Except.error (Except.error.inj h)⟩
    · rw [hprepare] at h
      cases h
  · have hprepare : l.prepare s ids =
        (.ok (), { l with cache := es.foldl addEntry l.cache }, s') := by
      rw [missing] at hload
      simp only [prepare, hload]
    rw [hload] at hanswer hstore
    refine ⟨fun e => ?_, ⟨n, by rw [hprepare]; exact hstore⟩, fun e h => ?_, fun _ => ?_⟩
    · rw [hprepare, ← hanswer]
      exact iff_of_false (fun h => by cases h) fun h => by cases h
    · rw [hprepare] at h
      cases h
    · refine ⟨by rw [hprepare], fun id hid => ?_, fun id e he => ?_, fun id e hnew he => ?_⟩
      · rw [hprepare]
        exact contains_of_prepare hprepare hid
      · rw [hprepare]
        dsimp only
        rw [get?_foldl_addEntry, he, Option.some_or]
      · rw [hprepare] at he
        obtain ⟨hid, hloaded⟩ := loaded?_of_prepare hprepare hnew he
        exact ⟨hid, Tables.loaded?_spec hloaded⟩

/-! ## A history that cannot be read -/

namespace Service

/-- A store that has a limit with a history and refuses its eleventh call. -/
def interrupted : Store :=
  { Store.ofTables { Tables.empty with
      constraints := .ofList [("b", ⟨500, 1⟩)]
      occurrences := [⟨"b", 700⟩, ⟨"b", 300⟩] } with
    plan := fun call _ => if call = 10 then some (.refused "locked") else none }

/-- A limit is in use, and what it has recorded is not written yet. -/
def occupied : Service :=
  (start interrupted).run
    [.reconcile [⟨"a", .ofMillis 500, 1⟩, ⟨"b", .ofMillis 500, 1⟩, ⟨"c", .ofMillis 500, 1⟩],
      .prepare ["a"], .increment ["a"] (.ofMillis 0)]

/-- Two checkers are asked for, one after the other, for the same list with a repetition. -/
def reloaded : Service :=
  occupied.run [.prepare ["b", "a", "c", "b"], .prepare ["b", "a", "c", "b"]]

/-- The history of the third id is refused when the first has been read already, and nothing is
cached.  When the same list is asked for again everything is, and what has not been written is still
there. -/
theorem prepare_atomic_occupied :
    occupied.limiter.missing ["b", "a", "c", "b"] = ["b", "c", "b"] ∧
    FirstFailure interrupted.plan occupied.store.tables 7 ["b", "c", "b"]
      (.storage (.refused "locked")) ∧
    (occupied.limiter.prepare occupied.store ["b", "a", "c", "b"]).2.1 = occupied.limiter ∧
    (∀ e, ¬ FirstFailure interrupted.plan occupied.store.tables 11 ["b", "c", "b"] e) ∧
    reloaded.limiter.pending = [.occurrences [⟨"a", .ofMillis 0⟩]] ∧
    ∀ e, reloaded.limiter.cache.get? "b" = some e →
      e.times.Perm [.ofMillis 700, .ofMillis 300] := by
  obtain ⟨hanswer, -, hkept, -⟩ :=
    prepare_atomic occupied.limiter occupied.store ["b", "a", "c", "b"]
  have herror : (occupied.limiter.prepare occupied.store ["b", "a", "c", "b"]).1 =
      .error (.storage (.refused "locked")) := rfl
  obtain ⟨hanswer', -, -, hloaded⟩ := prepare_atomic
    (occupied.limiter.prepare occupied.store ["b", "a", "c", "b"]).2.1
    (occupied.limiter.prepare occupied.store ["b", "a", "c", "b"]).2.2 ["b", "a", "c", "b"]
  obtain ⟨hpending, -, -, hnew⟩ := hloaded rfl
  refine ⟨rfl, (hanswer _).mp herror, hkept _ herror, fun e hfails => ?_, hpending, fun e he => ?_⟩
  · cases (hanswer' e).mpr hfails
  · exact (hnew "b" e rfl he).2.2.2.2

end Service
end Limiter
end Automation
