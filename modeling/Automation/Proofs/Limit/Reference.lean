import Automation.Proofs.Limit.Upkeep

/-!
# The tables as the reference

What a limiter at work answers is a function of its settled tables and of the request, and so are
the settled tables afterwards.  `Tables.respond` is that function: it knows neither cache nor queue,
decides by what it would load, writes at once and takes a list of definitions as a whole.

`Service.InStep` is what makes a limiter follow it: its store refuses nothing, every row can be
read, the clock shows whole milliseconds, and the cache mirrors the settled tables.  A new limiter
over readable rows is in step (`inStep_start`), and every request keeps it so (`InStep.serve`),
whatever ids a check names.  The answers are those of the reference where the ids of a check or an
increment are cached (`InStep.respond`), and that is what a checker guarantees.
-/

namespace Automation

/-- Every row that a limiter reads can be read. -/
structure Tables.IsReadable (t : Tables) : Prop where
  constraints : t.HasReadableConstraints
  occurrences : ∀ id, t.IsReadableFor id

/-- The answer of tables to a list of ids that a checker is wanted for: the first id that is not
defined, or that there is none. -/
def Tables.requireAll (t : Tables) (ids : List String) : Except LimitError Unit :=
  match ids.find? fun id => !t.constraints.contains id with
  | some id => .error (.notFound id)
  | none => .ok ()

namespace Limiter

/-- The ids that a request decides on, if it decides. -/
def Request.asked? : Request → Option (List String)
  | .check ids _ | .increment ids _ => some ids
  | _ => none

/-- What tables answer to a request, and what they are after it. -/
def respond (t : Tables) : Request → Reply × Tables
  | .check ids now => (.decision (!t.permits ids now), t)
  | .increment ids now =>
    (.decision (t.permits ids now), if t.permits ids now then t.use ids now else t)
  | .prepare ids => (.outcome (t.requireAll ids), t)
  | .reconcile constraints =>
    match t.allConstraints with
    | .ok stored => (.outcome (.ok ()), (Difference.between stored constraints).applyToTables t)
    | .error e => (.outcome (.error (.storage e)), t)
  | .drain | .flush => (.silence, t)

/-! ## Increments for any list -/

section Increments

variable {l : Limiter} {s : Store} {now : Instant} {ids : List String}

/-- Ids that are not cached do not count. -/
theorem isOver_filter (l : Limiter) (ids : List String) (now : Instant) :
    l.isOver (ids.filter l.cache.contains) now = l.isOver ids now := by
  rw [isOver, isOver, List.any_filter]
  refine congrArg ids.any (funext fun id => ?_)
  rw [Table.contains]
  cases l.cache.get? id <;> rfl

theorem checkAndIncrement_filter (l : Limiter) (ids : List String) (now : Instant) :
    (l.checkAndIncrement (ids.filter l.cache.contains) now).2 =
      (l.checkAndIncrement ids now).2 := by
  cases hover : l.isOver ids now with
  | true =>
    rw [checkAndIncrement_of_isOver hover,
      checkAndIncrement_of_isOver ((isOver_filter l ids now).trans hover)]
  | false =>
    have hover' := (isOver_filter l ids now).trans hover
    refine ext_of_get? (fun id => ?_) ?_
    · rw [get?_checkAndIncrement hover, get?_checkAndIncrement hover']
      cases he : l.cache.get? id with
      | none => rfl
      | some e =>
        have hcached : l.cache.contains id = true := by rw [Table.contains, he]; rfl
        rw [List.count_filter hcached]
    · rw [checkAndIncrement_pending hover, checkAndIncrement_pending hover', batchOf, batchOf,
        List.filter_filter]
      simp only [Bool.and_self]

/-- What the settled tables gain by an increment is what is recorded for cached ids. -/
theorem Mirrors.increment (h : l.asStored.Mirrors s now) (hl : l.IsWhole) (hnow : now.IsWhole)
    (ids : List String) :
    (l.checkAndIncrement ids now).2.asStored.Mirrors s now ∧
      (l.checkAndIncrement ids now).2.settled s =
        if l.isOver ids now then l.settled s
        else (l.settled s).use (ids.filter l.cache.contains) now := by
  cases hover : l.isOver ids now with
  | true =>
    rw [checkAndIncrement_of_isOver hover, if_pos rfl]
    exact ⟨h, rfl⟩
  | false =>
    have hcached : ∀ id ∈ ids.filter l.cache.contains, l.asStored.cache.contains id = true := by
      intro id hid
      rw [contains_asStored]
      exact (List.mem_filter.mp hid).2
    have hover' : l.asStored.isOver (ids.filter l.cache.contains) now = false := by
      rw [isOver_asStored hl hnow, isOver_filter, hover]
    obtain ⟨hafter, husing⟩ := h.checkAndIncrement hnow hcached hover'
    rw [← asStored_checkAndIncrement hl hnow, checkAndIncrement_filter] at hafter husing
    exact ⟨hafter, husing⟩

end Increments

/-! ## Checkers -/

section Checkers

variable {s : Store} {l : Limiter} {ids : List String}

/-- Where everything can be read, what is defined can be loaded. -/
theorem exists_load {id : String} (hs : s.IsReliable) (hread : s.tables.IsReadable)
    (hid : s.tables.constraints.contains id = true) : ∃ e s', load id s = (.ok e, s') := by
  obtain ⟨row, hrow⟩ := Option.isSome_iff_exists.mp hid
  obtain ⟨c, hc⟩ := hread.constraints id row hrow
  have hdefinition : s.tables.constraint? id = .ok (some c) := by
    simp only [Tables.constraint?, hrow, hc]
    rfl
  obtain ⟨e, he, -⟩ := Tables.exists_loaded? hdefinition (hread.occurrences id)
  exact ⟨e, load_of_loaded? (hs _) (hs _) he⟩

/-- What is not defined is not found. -/
theorem load_of_not_contains {id : String} (hs : s.IsReliable)
    (hid : s.tables.constraints.contains id = false) :
    ∃ s', load id s = (.error (.notFound id), s') := by
  have hanswer : (s.readConstraint id).1 = .ok none := by
    rw [Store.readConstraint, Store.query_answer (hs _), Tables.constraint?,
      Option.not_isSome_iff_eq_none.mp (Bool.eq_false_iff.mp hid)]
  rcases hread : s.readConstraint id with ⟨answer, s₁⟩
  rw [hread] at hanswer
  cases hanswer
  exact ⟨s₁, by rw [load, hread]⟩

/-- A list is loaded unless an id of it is not defined, and the first such id is the answer. -/
theorem loadAll_answer (hs : s.IsReliable) (hread : s.tables.IsReadable) (ids : List String) :
    (loadAll ids s).1.map (fun _ => ()) = s.tables.requireAll ids := by
  induction ids generalizing s with
  | nil => rfl
  | cons id rest ih =>
    rw [loadAll, Tables.requireAll, List.find?_cons]
    cases hid : s.tables.constraints.contains id with
    | false =>
      obtain ⟨s₁, hload⟩ := load_of_not_contains hs hid
      rw [hload]
      rfl
    | true =>
      obtain ⟨e, s₁, hload⟩ := exists_load hs hread hid
      have hs₁ := isReadOf_load hload
      have hrest := ih (fun op => (hs₁.allows op).mpr (hs op)) (hs₁.tables ▸ hread)
      rw [hs₁.tables, Tables.requireAll] at hrest
      rw [hload]
      dsimp only
      rw [Bool.not_true, ← hrest]
      rcases loadAll rest s₁ with ⟨answer, s₂⟩
      cases answer <;> rfl

/-- A list that cannot be loaded leaves a limiter as it was. -/
theorem eq_of_prepare_error {l' : Limiter} {s' : Store} {e : LimitError}
    (h : l.prepare s ids = (.error e, l', s')) : l' = l := by
  rw [prepare] at h
  split at h
  · cases h
    rfl
  · cases h

/-- Leaving out defined ids does not change what is missing. -/
theorem requireAll_filter {t : Tables} {p : String → Bool}
    (h : ∀ id, p id = false → t.constraints.contains id = true) (ids : List String) :
    t.requireAll (ids.filter p) = t.requireAll ids := by
  rw [Tables.requireAll, Tables.requireAll, List.find?_filter]
  have hsame : (fun id => decide (p id = true ∧ (!t.constraints.contains id) = true)) =
      fun id => !t.constraints.contains id := by
    funext id
    cases hp : p id with
    | true => simp
    | false => simp [h id hp]
  rw [hsame]

end Checkers

/-! ## A limiter in step with its settled tables -/

namespace Service

/-- The tables of a service once everything that waits is written. -/
def settled (v : Service) : Tables := v.limiter.settled v.store

/-- A service at a time that goes on as its settled tables would. -/
structure InStep (v : Service) (now : Instant) : Prop where
  clock : now.IsWhole
  reliable : v.store.IsReliable
  readable : v.settled.IsReadable
  whole : v.limiter.IsWhole
  mirrors : v.limiter.asStored.Mirrors v.store now

variable {v : Service} {now : Instant}

/-- A new service is in step at any time. -/
theorem inStep_start {s : Store} (hs : s.IsReliable) (hread : s.tables.IsReadable)
    (hnow : now.IsWhole) : (start s).InStep now ∧ (start s).settled = s.tables := by
  have hsettled : (start s).settled = s.tables := settled_of_pending_eq_nil rfl s
  refine ⟨⟨hnow, hs, hsettled ▸ hread, ?_, List.forall_mem_nil _, List.forall_mem_nil _, ?_⟩,
    hsettled⟩
  · intro id e he
    cases he
  · intro id e he
    cases he

theorem InStep.later (h : v.InStep now) {later : Instant} (hlater : later.IsWhole)
    (hle : now ≤ later) : v.InStep later :=
  ⟨hlater, h.reliable, h.readable, h.whole, h.mirrors.later h.clock.isPlain hlater.isPlain hle⟩

/-- What is cached is defined. -/
theorem InStep.defined (h : v.InStep now) {id : String}
    (hid : v.limiter.cache.contains id = true) : v.settled.constraints.contains id = true :=
  h.mirrors.defined ((congrFun (contains_asStored _) id).trans hid)

/-- What is stored already can be read if all that is settled can be. -/
theorem InStep.readable_tables (h : v.InStep now) : v.store.tables.IsReadable :=
  ⟨h.readable.constraints, fun id row hrow =>
    h.readable.occurrences id row (List.mem_append_left _ hrow)⟩

/-- A use at a whole millisecond can be read. -/
theorem isReadable_use {t : Tables} (ht : t.IsReadable) (hnow : now.IsWhole) (ids : List String) :
    (t.use ids now).IsReadable := by
  refine ⟨ht.constraints, fun id row hrow hid => ?_⟩
  rcases List.mem_append.mp hrow with hrow | hrow
  · exact ht.occurrences id row hrow hid
  · obtain ⟨id', -, rfl⟩ := List.mem_map.mp hrow
    rw [hnow.ofMillis?_toMillis]
    rfl

theorem InStep.increment (h : v.InStep now) (ids : List String) :
    (v.serve (.increment ids now)).2.InStep now ∧
      (v.serve (.increment ids now)).2.settled =
        if v.limiter.isOver ids now then v.settled
        else v.settled.use (ids.filter v.limiter.cache.contains) now := by
  obtain ⟨hmirrors, hgain⟩ := h.mirrors.increment h.whole h.clock ids
  have hsettled : (v.serve (.increment ids now)).2.settled =
      if v.limiter.isOver ids now then v.settled
      else v.settled.use (ids.filter v.limiter.cache.contains) now := hgain
  refine ⟨⟨h.clock, h.reliable, ?_, h.whole.checkAndIncrement h.clock ids, hmirrors⟩, hsettled⟩
  rw [hsettled]
  split
  · exact h.readable
  · exact isReadable_use h.readable h.clock _

/-- A list that a checker is wanted for is turned down just for an id that is not defined. -/
theorem InStep.prepare_answer (h : v.InStep now) (ids : List String) :
    (v.limiter.prepare v.store ids).1 = v.settled.requireAll ids := by
  have hrequire : v.store.tables.requireAll (ids.filter fun id => !v.limiter.cache.contains id) =
      v.settled.requireAll ids :=
    requireAll_filter (t := v.settled) (fun id hid => h.defined (by simpa using hid)) ids
  rw [← hrequire, ← loadAll_answer h.reliable h.readable_tables, Limiter.prepare]
  rcases loadAll (ids.filter fun id => !v.limiter.cache.contains id) v.store with ⟨answer, s'⟩
  cases answer <;> rfl

theorem InStep.prepare (h : v.InStep now) (ids : List String) :
    (v.serve (.prepare ids)).2.InStep now ∧
      (v.serve (.prepare ids)).2.settled = v.settled ∧
      (v.settled.requireAll ids = .ok () →
        ∀ id ∈ ids, (v.serve (.prepare ids)).2.limiter.cache.contains id = true) := by
  have hanswer := h.prepare_answer ids
  rcases hprepare : v.limiter.prepare v.store ids with ⟨answer, l', s'⟩
  rw [hprepare] at hanswer
  simp only [serve, hprepare]
  subst hanswer
  obtain ⟨hread, -, es, hes, hcache⟩ := prepare_spec hprepare
  have hreliable : s'.IsReliable := fun op => (hread.allows op).mpr (h.reliable op)
  have hwhole : l'.IsWhole := fun id e he =>
    h.whole.addEntries hes id e (by rw [← hcache]; exact he)
  have hstored := prepare_asStored hprepare
  cases hrequire : v.settled.requireAll ids with
  | error e =>
    rw [hrequire] at hprepare
    cases eq_of_prepare_error hprepare
    have hsettled : (⟨v.limiter, s'⟩ : Service).settled = v.settled := by
      rw [settled, Limiter.settled, hread.tables]
      rfl
    refine ⟨⟨h.clock, hreliable, hsettled ▸ h.readable, hwhole,
      h.mirrors.of_tables (by rw [hread.tables]) (by rw [hread.tables])⟩, hsettled, ?_⟩
    intro hok
    cases hok
  | ok u =>
    cases u
    rw [hrequire] at hstored
    obtain ⟨hmirrors, hsame, -, hcached⟩ := h.mirrors.prepare hstored
    have hsettled : (⟨l', s'⟩ : Service).settled = v.settled := hsame
    refine ⟨⟨h.clock, hreliable, hsettled ▸ h.readable, hwhole, hmirrors⟩, hsettled,
      fun _ id hid => ?_⟩
    rw [← contains_asStored]
    exact hcached id hid

theorem InStep.reconcile (h : v.InStep now) {constraints : List Constraint}
    (hnodup : (constraints.map (·.id)).Nodup) (hfits : ∀ c ∈ constraints, c.Fits) :
    (v.serve (.reconcile constraints)).2.InStep now ∧
      ∃ stored, v.settled.allConstraints = .ok stored ∧
        (v.serve (.reconcile constraints)).1 = .outcome (.ok ()) ∧
        (v.serve (.reconcile constraints)).2.settled =
          (Difference.between stored constraints).applyToTables v.settled := by
  obtain ⟨stored, l', s', hstored, hset, hmirrors, hsettled, hallows⟩ :=
    h.mirrors.setConstraints h.reliable h.readable.constraints hnodup hfits
  have hcache := setConstraints_cache v.limiter v.store constraints
  simp only [serve, hset] at hcache ⊢
  refine ⟨⟨h.clock, fun op => (hallows op).mpr (h.reliable op), ?_, ?_, hmirrors⟩, stored, hstored,
    trivial, hsettled⟩
  · show Tables.IsReadable (Limiter.settled _ _)
    rw [hsettled]
    exact ⟨Difference.hasReadableConstraints h.readable.constraints fun c hc => (hfits c hc).count,
      fun id row hrow =>
        h.readable.occurrences id row (Difference.mem_occurrences_applyToTables.mp hrow).1⟩
  · intro id e he time htime
    rcases hcache with hcache | ⟨d, hcache⟩
    · exact h.whole id e (hcache ▸ he) time htime
    · rw [hcache] at he
      rcases times_of_applyToCache he with hnil | ⟨e₀, he₀, hsame⟩
      · rw [hnil] at htime
        cases htime
      · exact h.whole id e₀ he₀ time (hsame ▸ htime)

theorem InStep.drain (h : v.InStep now) :
    (v.serve .drain).2.InStep now ∧ (v.serve .drain).2.settled = v.settled := by
  obtain ⟨hmirrors, hsame, hallows⟩ := h.mirrors.drain (h.reliable _)
  rw [drain_asStored] at hmirrors hsame hallows
  have hsettled : (v.serve .drain).2.settled = v.settled := hsame
  have hcache : (v.serve .drain).2.limiter.cache = v.limiter.cache := drain_cache _ _
  refine ⟨⟨h.clock, fun op => (hallows op).mpr (h.reliable op), hsettled ▸ h.readable, ?_,
    hmirrors⟩, hsettled⟩
  rw [IsWhole, hcache]
  exact h.whole

theorem InStep.flush (h : v.InStep now) :
    (v.serve .flush).2.InStep now ∧ (v.serve .flush).2.settled = v.settled := by
  have hwrites : v.store.Allows .addOccurrences := h.reliable _
  obtain ⟨hmirrors, hsame⟩ := h.mirrors.written hwrites
  have hsettled : (v.serve .flush).2.settled = v.settled := hsame
  exact ⟨⟨h.clock, fun op => ((h.mirrors.flush hwrites).2 op).mpr (h.reliable op),
    hsettled ▸ h.readable, h.whole, hmirrors⟩, hsettled⟩

/-- Every request keeps a service in step, at the time that the clock showed to it. -/
theorem InStep.serve (h : v.InStep now) {r : Request}
    (hclock : ∀ t, r.reading? = some t → t.IsWhole ∧ now ≤ t)
    (hlist : ∀ constraints, r = .reconcile constraints →
      (constraints.map (·.id)).Nodup ∧ ∀ c ∈ constraints, c.Fits) :
    (v.serve r).2.InStep (r.reading?.getD now) := by
  cases r with
  | check ids t => exact h.later (hclock t rfl).1 (hclock t rfl).2
  | increment ids t => exact ((h.later (hclock t rfl).1 (hclock t rfl).2).increment ids).1
  | prepare ids => exact (h.prepare ids).1
  | reconcile constraints => exact (h.reconcile (hlist _ rfl).1 (hlist _ rfl).2).1
  | drain => exact h.drain.1
  | flush => exact h.flush.1

/-- What the cache decides on cached ids is what the settled tables decide. -/
theorem InStep.isOver (h : v.InStep now) {ids : List String}
    (hids : ∀ id ∈ ids, v.limiter.cache.contains id = true) :
    v.limiter.isOver ids now = !v.settled.permits ids now := by
  rw [← isOver_asStored h.whole h.clock]
  exact h.mirrors.isOver_eq h.clock.isPlain (by rwa [contains_asStored])

/-- **A service in step answers as its settled tables and goes on as they do**, as long as what
decides is about cached ids. -/
theorem InStep.respond (h : v.InStep now) {r : Request}
    (hclock : ∀ t, r.reading? = some t → t.IsWhole ∧ now ≤ t)
    (hlist : ∀ constraints, r = .reconcile constraints →
      (constraints.map (·.id)).Nodup ∧ ∀ c ∈ constraints, c.Fits)
    (hids : ∀ ids ∈ r.asked?, ∀ id ∈ ids, v.limiter.cache.contains id = true) :
    ((v.serve r).1, (v.serve r).2.settled) = Limiter.respond v.settled r := by
  cases r with
  | check ids t =>
    have hnow := h.later (hclock t rfl).1 (hclock t rfl).2
    have hover := hnow.isOver (hids ids rfl)
    exact congrArg (fun b => (Reply.decision b, v.settled)) hover
  | increment ids t =>
    have hnow := h.later (hclock t rfl).1 (hclock t rfl).2
    have hover := hnow.isOver (hids ids rfl)
    have hsettled := (hnow.increment ids).2
    rw [List.filter_eq_self.mpr (hids ids rfl), hover] at hsettled
    refine Prod.ext ?_ ?_
    · show Reply.decision (v.limiter.checkAndIncrement ids t).1 = _
      rw [checkAndIncrement_fst, hover, Bool.not_not]
      rfl
    · rw [hsettled, Limiter.respond]
      cases v.settled.permits ids t <;> rfl
  | prepare ids =>
    refine Prod.ext ?_ (h.prepare ids).2.1
    exact congrArg Reply.outcome (h.prepare_answer ids)
  | reconcile constraints =>
    obtain ⟨-, stored, hstored, hanswer, hsettled⟩ := h.reconcile (hlist _ rfl).1 (hlist _ rfl).2
    rw [Limiter.respond, hstored, hanswer, hsettled]
  | drain => exact congrArg (Prod.mk _) h.drain.2
  | flush => exact congrArg (Prod.mk _) h.flush.2

end Service

end Limiter
end Automation
