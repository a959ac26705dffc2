import Automation.Proofs.Limit.Window

/-!
# All or nothing

An increment first looks at every id of its list and only then records, so what the last id refuses
has taken nothing from the others.  What is accepted is recorded once for every appearance of a
cached id, in the histories and in the one batch that it leaves in the queue, and ids that are not
cached, because nobody has asked for them or because a list has dropped them, gain nothing in either
(`Records`).

## Runs without their refusals

Since a refusal leaves the limiter as it was, a run can do without it.  `Service.trace` lists what
happens in a run with the answers and the states; the writer may work in between and a
reconciliation may be half done.  Leaving out what was refused gives the same trace without it
(`trace_withoutRefusals`), so the remaining answers are the same, and so is what there is in the
end, in the cache, in the queue and in the store.
-/

namespace Automation
namespace Limiter

/-! ## One increment -/

/-- What an increment that is accepted does: every cached id of the list gains an occurrence for
every appearance and loses what is out of range, nothing else in the cache changes, and the
occurrences wait as one batch, if there are any. -/
structure Records (l : Limiter) (ids : List String) (now : Instant) (l' : Limiter) : Prop where
  gained : ∀ id ∈ ids, ∀ e, l.cache.get? id = some e → ∃ e', l'.cache.get? id = some e' ∧
    e'.constraint = e.constraint ∧
    e'.times.Perm (List.replicate (ids.count id) now ++ e.times.filter (e.isWithinRange now))
  untouched : ∀ id, id ∉ ids ∨ l.cache.get? id = none → l'.cache.get? id = l.cache.get? id
  queued : l'.pending = l.pending ++
    if (l.batchOf ids now).isEmpty then [] else [.occurrences (l.batchOf ids now)]

variable {l : Limiter} {ids : List String} {now : Instant}

theorem records_checkAndIncrement (h : l.isOver ids now = false) :
    l.Records ids now (l.checkAndIncrement ids now).2 where
  gained := by
    intro id hid e he
    obtain ⟨n, hn⟩ := Nat.exists_eq_succ_of_ne_zero (List.count_pos_iff.mpr hid).ne'
    refine ⟨e.recordTimes now (ids.count id), ?_, CacheEntry.recordTimes_constraint, ?_⟩
    · rw [get?_checkAndIncrement h, he, Option.map_some]
    · rw [hn]
      exact CacheEntry.recordTimes_perm n
  untouched := by
    intro id hid
    rw [get?_checkAndIncrement h]
    rcases hid with hid | hid
    · rw [List.count_eq_zero.mpr hid]
      exact Option.map_id'
    · rw [hid, Option.map_none]
  queued := checkAndIncrement_pending h

namespace Service

/-! ## Runs -/

/-- What happens to a limiter: a request, or the first half of a reconciliation, whose writes are
left to the writer. -/
inductive Activity where
  | request (r : Request)
  | announce (incoming : List Constraint)

/-- Something that has happened, how it was answered, and what it left behind. -/
structure Exchange where
  activity : Activity
  reply : Reply
  after : Service

/-- One activity: the answer, and what it leaves behind. -/
def act (v : Service) : Activity → Reply × Service
  | .request r => v.serve r
  | .announce incoming => (.silence, v.announce incoming)

/-- What happens in a run. -/
def trace : Service → List Activity → List Exchange
  | _, [] => []
  | v, a :: rest => ⟨a, (v.act a).1, (v.act a).2⟩ :: trace (v.act a).2 rest

/-- What a run of activities leaves behind. -/
def afterAll (v : Service) (as : List Activity) : Service := as.foldl (fun v a => (v.act a).2) v

/-- An increment that was turned down. -/
def Exchange.isRefusal : Exchange → Bool
  | ⟨.request (.increment _ _), .decision false, _⟩ => true
  | _ => false

/-- What happens in a run, without what was refused. -/
def withoutRefusals (v : Service) (as : List Activity) : List Exchange :=
  (v.trace as).filter fun x => !x.isRefusal

variable {v : Service}

/-- Only increments are refused. -/
theorem isRefusal_eq_true_iff {x : Exchange} : x.isRefusal = true ↔
    ∃ ids now, x.activity = .request (.increment ids now) ∧ x.reply = .decision false := by
  constructor
  · intro h
    unfold Exchange.isRefusal at h
    split at h
    · exact ⟨_, _, rfl, rfl⟩
    · cases h
  · obtain ⟨activity, reply, after⟩ := x
    rintro ⟨ids, now, rfl, rfl⟩
    rfl

/-- A refusal leaves everything as it was. -/
theorem act_of_isRefusal {a : Activity}
    (h : Exchange.isRefusal ⟨a, (v.act a).1, (v.act a).2⟩ = true) : (v.act a).2 = v := by
  obtain ⟨ids, now, rfl, hreply⟩ := isRefusal_eq_true_iff.mp h
  have hanswer : (v.limiter.checkAndIncrement ids now).1 = false := Reply.decision.inj hreply
  have hover : v.limiter.isOver ids now = true := by
    rwa [checkAndIncrement_fst, Bool.not_eq_false'] at hanswer
  show Service.mk (v.limiter.checkAndIncrement ids now).2 v.store = v
  rw [checkAndIncrement_of_isOver hover]

theorem trace_withoutRefusals (v : Service) (as : List Activity) :
    v.trace ((v.withoutRefusals as).map (·.activity)) = v.withoutRefusals as := by
  induction as generalizing v with
  | nil => rfl
  | cons a rest ih =>
    rw [withoutRefusals, trace, List.filter_cons]
    split
    · rw [List.map_cons, trace]
      exact congrArg _ (ih (v.act a).2)
    · next hrefused =>
      rw [act_of_isRefusal (by simpa using hrefused)]
      exact ih v

theorem afterAll_withoutRefusals (v : Service) (as : List Activity) :
    v.afterAll ((v.withoutRefusals as).map (·.activity)) = v.afterAll as := by
  induction as generalizing v with
  | nil => rfl
  | cons a rest ih =>
    rw [withoutRefusals, trace, List.filter_cons]
    split
    · exact ih (v.act a).2
    · next hrefused =>
      have hsame := act_of_isRefusal (v := v) (a := a) (by simpa using hrefused)
      rw [hsame]
      exact (ih v).trans (congrArg (afterAll · rest) hsame.symm)

/-- **An increment is all or nothing.**  In every state of a limiter it is refused just if some
cached id of its list allows nothing more, and a refusal changes neither the cache nor the queue;
otherwise every appearance of a cached id is recorded and nothing else is.  So any run, with the
writer and reconciliations in between, goes the same without what was refused: the other requests
are answered the same in the same states, and the same is there in the end. -/
theorem increment_all_or_nothing (l : Limiter) (ids : List String) (now : Instant) :
    ((l.checkAndIncrement ids now).1 = false ↔
      ∃ id ∈ ids, ∃ e, l.cache.get? id = some e ∧ e.isOver now = true) ∧
    ((l.checkAndIncrement ids now).1 = false → (l.checkAndIncrement ids now).2 = l) ∧
    ((l.checkAndIncrement ids now).1 = true →
      l.Records ids now (l.checkAndIncrement ids now).2) ∧
    ∀ (v : Service) (as : List Activity),
      v.trace ((v.withoutRefusals as).map (·.activity)) = v.withoutRefusals as ∧
      v.afterAll ((v.withoutRefusals as).map (·.activity)) = v.afterAll as := by
  have hanswer : (l.checkAndIncrement ids now).1 = !l.isOver ids now := checkAndIncrement_fst
  refine ⟨?_, fun h => ?_, fun h => ?_, fun v as =>
    ⟨trace_withoutRefusals v as, afterAll_withoutRefusals v as⟩⟩
  · rw [hanswer, Bool.not_eq_false', isOver_iff_exists]
  · rw [hanswer, Bool.not_eq_false'] at h
    exact checkAndIncrement_of_isOver h
  · rw [hanswer, Bool.not_eq_true'] at h
    exact records_checkAndIncrement h

/-! ## Two constraints that are used together -/

/-- A limiter with a limit of three times in half a second and one of once in half a second. -/
def sharing : Service :=
  (start (.ofTables .empty)).run
    [.reconcile [⟨"a", .ofMillis 500, 3⟩, ⟨"b", .ofMillis 500, 1⟩], .prepare ["a", "b"]]

/-- Both are used at once, the first one twice, and a list that is not written yet drops the second
one. -/
def contended : List Activity :=
  [.request (.increment ["a", "x", "a", "b"] (.ofMillis 0)),
    .request (.increment ["a", "b"] (.ofMillis 100)), .request (.check ["a"] (.ofMillis 100)),
    .announce [⟨"a", .ofMillis 500, 3⟩], .request (.increment ["a", "b"] (.ofMillis 200)),
    .request .drain, .request (.increment ["b", "a"] (.ofMillis 500)), .request .flush]

/-- The second increment is refused for its last id and takes nothing from the first one, which is
used up only by the third. -/
theorem increment_all_or_nothing_contended :
    ((sharing.trace contended).map (·.reply) =
      [.decision true, .decision false, .decision false, .silence, .decision true, .silence,
        .decision false, .silence]) ∧
    (∃ l, sharing.limiter.Records ["a", "x", "a", "b"] (.ofMillis 0) l ∧
      l.pending = [.occurrences [⟨"a", .ofMillis 0⟩, ⟨"a", .ofMillis 0⟩, ⟨"b", .ofMillis 0⟩]] ∧
      (l.checkAndIncrement ["a", "b"] (.ofMillis 100)).1 = false ∧
      (l.checkAndIncrement ["a", "b"] (.ofMillis 100)).2 = l) ∧
    (sharing.withoutRefusals contended).length = 6 ∧
    (sharing.afterAll ((sharing.withoutRefusals contended).map (·.activity))).store.tables =
      (sharing.afterAll contended).store.tables := by
  obtain ⟨-, -, hrecords, hrun⟩ :=
    increment_all_or_nothing sharing.limiter ["a", "x", "a", "b"] (.ofMillis 0)
  refine ⟨rfl, ⟨_, hrecords rfl, rfl, rfl, ?_⟩, rfl, ?_⟩
  · exact (increment_all_or_nothing _ ["a", "b"] (.ofMillis 100)).2.1 rfl
  · rw [(hrun sharing contended).2]

end Service
end Limiter
end Automation
