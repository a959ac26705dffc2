import Automation.Proofs.Simulation.Stepping

/-!
# What decides

A decision about an execution is told by the tables that the simulation begins with and by the
decisions before it.  Every accepted execution has recorded an occurrence for each constraint id of
its schedule, at its own date, and nothing else has recorded any (`recordedBy`).  So `HasRoom` asks
of a constraint id that it is defined and that fewer occurrences are in range than it allows, among
the ones of the tables and the recorded ones; and an execution is due to be accepted if all the ids
of its schedule have room.

`Stands` is the invariant that carries this: the tables at any moment are the ones of the beginning
with the recorded occurrences behind.  `Stands.judge` takes it through all that has fired in a step.
The firings of a step are checked one after another, so what the first of them uses up is not there
for the second.
-/

namespace Automation

/-! ## What decisions record -/

/-- The occurrences that a decision records. -/
def Decision.recorded (schedules : List Schedule) (d : Decision) : List Occurrence :=
  match d.kind, d.accepted with
  | .execution, true => (idsOf schedules d.scheduleId).map fun id => ⟨id, d.date⟩
  | _, _ => []

/-- The occurrences that decisions record, in their order. -/
def recordedBy (schedules : List Schedule) (ds : List Decision) : List Occurrence :=
  ds.flatMap (Decision.recorded schedules)

/-- When a constraint occurred. -/
def timesAmong (os : List Occurrence) (id : String) : List Instant :=
  (os.filter fun o => o.constraintId = id).map (·.time)

variable {schedules : List Schedule}

theorem recordedBy_append (ds ds' : List Decision) :
    recordedBy schedules (ds ++ ds') = recordedBy schedules ds ++ recordedBy schedules ds' :=
  List.flatMap_append

theorem recordedBy_singleton (d : Decision) : recordedBy schedules [d] = d.recorded schedules :=
  List.flatMap_singleton _ d

/-! ## Room -/

/-- Whether a constraint has room for one more occurrence at a time, when there are some besides the
ones of the tables. -/
def Tables.HasRoom (t : Tables) (os : List Occurrence) (now : Instant) (id : String) : Prop :=
  ∃ c, t.constraint? id = .ok (some c) ∧
    ((t.timesOf id ++ timesAmong os id).countP fun time =>
      now.elapsed time ≤ c.range.nanos) < c.count

/-- Whether a decision is due to be accepted, after others. -/
def Decision.IsDue (schedules : List Schedule) (t : Tables) (before : List Decision)
    (d : Decision) : Prop :=
  d.kind = .delayCancellation ∨
    ∀ id ∈ idsOf schedules d.scheduleId, t.HasRoom (recordedBy schedules before) d.date id

/-- Every decision accepts what is due after the ones before it. -/
def AreJudged (schedules : List Schedule) (t : Tables) (ds : List Decision) : Prop :=
  ∀ before d after, ds = before ++ d :: after →
    (d.accepted = true ↔ d.IsDue schedules t before)

section Judged

variable {t : Tables} {ds : List Decision} {d : Decision}

theorem areJudged_nil : AreJudged schedules t [] := fun before d after h =>
  absurd h.symm (List.append_ne_nil_of_right_ne_nil before (List.cons_ne_nil d after))

theorem AreJudged.concat (h : AreJudged schedules t ds)
    (hd : d.accepted = true ↔ d.IsDue schedules t ds) : AreJudged schedules t (ds ++ [d]) := by
  intro before other after hsplit
  rcases List.eq_nil_or_concat after with rfl | ⟨rest, last, rfl⟩
  · obtain ⟨rfl, hlast⟩ := List.append_inj' hsplit rfl
    cases hlast
    exact hd
  · rw [List.concat_eq_append, ← List.cons_append, ← List.append_assoc] at hsplit
    exact h before other rest (List.append_inj' hsplit rfl).1

end Judged

/-! ## The tables at any moment -/

/-- Tables are those of the beginning with some occurrences behind. -/
structure Tables.Stands (t₀ : Tables) (os : List Occurrence) (t : Tables) : Prop where
  constraints : t.constraints = t₀.constraints
  occurrences : t.occurrences = t₀.occurrences ++ os.map Tables.rowOfOccurrence
  whole : ∀ o ∈ os, o.time.IsWhole
  readable : ∀ id, t₀.IsReadableFor id

namespace Tables

variable {t₀ t : Tables} {os : List Occurrence} {now : Instant}

theorem stands_self (h : ∀ id, t.IsReadableFor id) : t.Stands [] t :=
  ⟨rfl, (List.append_nil _).symm, List.forall_mem_nil _, h⟩

theorem Stands.congr {t' : Tables} (h : t₀.Stands os t)
    (hconstraints : t'.constraints = t.constraints) (hoccurrences : t'.occurrences = t.occurrences) :
    t₀.Stands os t' :=
  ⟨hconstraints.trans h.constraints, hoccurrences.trans h.occurrences, h.whole, h.readable⟩

/-- An occurrence at a whole millisecond is read as it was written. -/
theorem Stands.timesOf (h : t₀.Stands os t) (id : String) :
    t.timesOf id = t₀.timesOf id ++ timesAmong os id := by
  have hrows : ∀ os : List Occurrence, (∀ o ∈ os, o.time.IsWhole) →
      ((os.map rowOfOccurrence).filter fun row => row.constraintId = id).filterMap
        (fun row => Instant.ofMillis? row.millis) = timesAmong os id := by
    intro os hos
    have hwhole : ∀ o ∈ os.filter (fun o => o.constraintId = id),
        Instant.ofMillis? (rowOfOccurrence o).millis = some o.time := fun o ho =>
      (hos o (List.mem_filter.mp ho).1).ofMillis?_toMillis
    rw [List.filter_map, List.filterMap_map, timesAmong, ← List.filterMap_eq_map]
    exact List.filterMap_congr hwhole
  rw [Tables.timesOf, h.occurrences, List.filter_append, List.filterMap_append, hrows os h.whole,
    Tables.timesOf]

theorem Stands.isReadableFor (h : t₀.Stands os t) (id : String) : t.IsReadableFor id := by
  intro row hrow hid
  rw [h.occurrences, List.mem_append] at hrow
  rcases hrow with hrow | hrow
  · exact h.readable id row hrow hid
  · obtain ⟨o, ho, rfl⟩ := List.mem_map.mp hrow
    rw [rowOfOccurrence, (h.whole o ho).ofMillis?_toMillis]
    rfl

/-- Tables permit a list just if all of its ids have room. -/
theorem Stands.permits_iff (h : t₀.Stands os t) (hnow : now.IsPlain) (ids : List String) :
    t.permits ids now = true ↔ ∀ id ∈ ids, t₀.HasRoom os now id := by
  have hconstraint : ∀ id, t.constraint? id = t₀.constraint? id := fun id => by
    rw [constraint?, constraint?, h.constraints]
  -- what would be loaded has the history that stands, in another order
  have hover : ∀ id e, t.loaded? id = some e →
      (e.isOver now = false ↔ ((t₀.timesOf id ++ timesAmong os id).countP fun time =>
        now.elapsed time ≤ e.constraint.range.nanos) < e.constraint.count) := fun id e he => by
    obtain ⟨-, -, hsorted, hperm⟩ := loaded?_spec he
    have hplain : ∀ time ∈ e.times, time.IsPlain := fun time htime =>
      isPlain_of_mem_timesOf (hperm.mem_iff.mp htime)
    rw [← Bool.not_eq_true, CacheEntry.isOver_iff_count hsorted hnow hplain, hperm.countP_eq,
      h.timesOf, Nat.not_le]
    rfl
  rw [permits, List.all_eq_true]
  refine forall_congr' fun id => forall_congr' fun _ => ?_
  rw [HasRoom, ← hconstraint]
  constructor
  · intro hroom
    obtain ⟨e, he, hopen⟩ := (Option.any_eq_true _ _).mp hroom
    rw [Bool.not_eq_true'] at hopen
    exact ⟨e.constraint, (loaded?_spec he).1, (hover id e he).mp hopen⟩
  · rintro ⟨c, hc, hcount⟩
    obtain ⟨e, he, rfl⟩ := exists_loaded? hc (h.isReadableFor id)
    rw [he, Option.any_some, (hover id e he).mpr hcount]
    rfl

/-- A use puts its occurrences behind. -/
theorem Stands.use (h : t₀.Stands os t) (hnow : now.IsWhole) (ids : List String) :
    t₀.Stands (os ++ ids.map fun id => ⟨id, now⟩) (t.use ids now) := by
  refine ⟨h.constraints, ?_, fun o ho => ?_, h.readable⟩
  · rw [Tables.use, h.occurrences, List.map_append, List.map_map, List.append_assoc]
    rfl
  · rcases List.mem_append.mp ho with ho | ho
    · exact h.whole o ho
    · obtain ⟨id, -, rfl⟩ := List.mem_map.mp ho
      exact hnow

/-! ## Judging what has fired -/

variable {ds : List Decision}

/-- The answer to one firing is what is due, and it records what the decision says. -/
theorem Stands.answer (h : t₀.Stands (recordedBy schedules ds) t) (hnow : now.IsWhole) {f : Firing}
    (hdate : f.info.date = now) :
    let d := Simulation.decisionOn f (t.answer (idsOf schedules) now f).1
    (d.accepted = true ↔ d.IsDue schedules t₀ ds) ∧
      t₀.Stands (recordedBy schedules (ds ++ [d])) (t.answer (idsOf schedules) now f).2 := by
  intro d
  have hpermits := h.permits_iff hnow.isPlain (idsOf schedules f.scheduleId)
  have hd : d = Simulation.decisionOn f (t.answer (idsOf schedules) now f).1 := rfl
  rw [recordedBy_append, recordedBy_singleton]
  cases hkind : f.kind with
  | delayCancellation =>
    rw [Tables.answer, hkind] at hd ⊢
    have hnone : d.recorded schedules = [] := by
      rw [hd, Decision.recorded, Simulation.decisionOn, hkind]
    rw [hnone, List.append_nil, hd]
    exact ⟨iff_of_true rfl (Or.inl hkind), h⟩
  | execution =>
    rw [Tables.answer, hkind] at hd ⊢
    have hdue : d.IsDue schedules t₀ ds ↔ t.permits (idsOf schedules f.scheduleId) now = true := by
      have hexecution : d.kind ≠ .delayCancellation := by
        show f.kind ≠ _
        rw [hkind]
        exact fun heq => by cases heq
      rw [hpermits, Decision.IsDue, or_iff_right hexecution, ← hdate]
      rfl
    rw [hdue, hd]
    by_cases hroom : t.permits (idsOf schedules f.scheduleId) now = true
    · have huse := h.use hnow (idsOf schedules f.scheduleId)
      simp only [hroom, if_true]
      refine ⟨iff_of_true rfl trivial, ?_⟩
      rw [Decision.recorded, Simulation.decisionOn, hkind, hdate]
      exact huse
    · simp only [hroom, Bool.false_eq_true, if_false]
      refine ⟨iff_of_false (fun heq => by cases heq) not_false, ?_⟩
      rw [Decision.recorded, Simulation.decisionOn, hkind, List.append_nil]
      exact h

/-- **Judging.**  Each firing gets a decision of its own, in the same order, which accepts what is
due after the ones before it, and the tables have recorded what the decisions say. -/
theorem Stands.judge {fs : List Firing} (h : t₀.Stands (recordedBy schedules ds) t)
    (hnow : now.IsWhole) (hdates : ∀ f ∈ fs, f.info.date = now)
    (hjudged : AreJudged schedules t₀ ds) :
    let judged := t.judge (idsOf schedules) now fs
    List.Forall₂ (fun f d => d = Simulation.decisionOn f d.accepted) fs judged.1 ∧
      AreJudged schedules t₀ (ds ++ judged.1) ∧
      t₀.Stands (recordedBy schedules (ds ++ judged.1)) judged.2 := by
  induction fs generalizing t ds with
  | nil =>
    intro judged
    rw [show judged.1 = [] from rfl, List.append_nil]
    exact ⟨.nil, hjudged, h⟩
  | cons f rest ih =>
    rw [List.forall_mem_cons] at hdates
    obtain ⟨hdue, hnext⟩ := h.answer hnow hdates.1
    obtain ⟨hanswers, hlater, hlast⟩ := ih hnext hdates.2 (hjudged.concat hdue)
    rw [List.append_assoc, List.singleton_append] at hlater hlast
    exact ⟨.cons rfl hanswers, hlater, hlast⟩

end Tables
end Automation
