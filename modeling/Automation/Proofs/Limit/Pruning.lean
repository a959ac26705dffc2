import Automation.Proofs.Limit.Takeover
import Automation.Proofs.Limit.Window

/-!
# Who notices that histories are pruned

An increment throws away what is out of range.  A limiter that throws nothing away, the `Archive`,
appends every occurrence to a log and counts those in range whenever it is asked.  As long as the
clock goes on nobody can tell the two apart: what is out of range once is out of range from then on.

## A clock that goes back

A clock may be set back, and then an occurrence that was out of range can be in range again.  The
archive finds it and the limiter does not, so the limiter allows more
(`pruned_occurrence_is_missed`).  That is the only way in which going back shows.
`Archive.NothingReturns` says that it does not happen along a run, in terms of the archive alone:
what is out of range at an increment that is accepted is out of range at every later reading.  It
holds in particular if no reading lies before an increment that was accepted earlier
(`Archive.StaysAhead`); between the accepted increments the clock may go where it likes.

## The invariant

`CacheEntry.Prunes` ties a cached history to the whole one: the whole one is the cached one and what
is gone, and nothing that is gone will be in range at any reading that is still to come.  So both
have the same occurrences in range at each of these, and the limiter counts by looking up one.
-/

namespace Automation
namespace Limiter

/-! ## A limiter that keeps everything -/

/-- The constraints with the histories it began with, and every occurrence that was accepted since,
in the order in which they were. -/
structure Archive where
  entries : Table String CacheEntry
  log : List Occurrence

namespace Archive

/-- An archive that begins with what a limiter has cached. -/
def ofLimiter (l : Limiter) : Archive := ⟨l.cache, []⟩

/-- All occurrences of a constraint. -/
def timesOf (a : Archive) (id : String) (e : CacheEntry) : List Instant :=
  e.times ++ (a.log.filter fun o => o.constraintId = id).map (·.time)

/-- Whether as many occurrences of a constraint are in range as it allows.  Ids that are unknown do
not limit. -/
def isUsedUp (a : Archive) (now : Instant) (id : String) : Bool :=
  (a.entries.get? id).any fun e =>
    e.constraint.count ≤ (a.timesOf id e).countP fun t => now.elapsed t ≤ e.constraint.range.nanos

/-- Whether some constraint of a list allows nothing more. -/
def isOver (a : Archive) (ids : List String) (now : Instant) : Bool := ids.any (a.isUsedUp now)

/-- Appends an occurrence for every appearance of a known id. -/
def record (a : Archive) (ids : List String) (now : Instant) : Archive :=
  { a with log := a.log ++ (ids.filter a.entries.contains).map fun id => ⟨id, now⟩ }

/-- What an archive answers to checks and increments; it is not asked for anything else. -/
def serve (a : Archive) : Request → Reply × Archive
  | .check ids now => (.decision (a.isOver ids now), a)
  | .increment ids now =>
    if a.isOver ids now then (.decision false, a) else (.decision true, a.record ids now)
  | .prepare _ | .reconcile _ | .drain | .flush => (.silence, a)

/-- What a run is answered. -/
def replies : Archive → List Request → List Reply
  | _, [] => []
  | a, r :: rs => (a.serve r).1 :: replies (a.serve r).2 rs

/-- The list and the time of an increment that is accepted. -/
def accepted? (a : Archive) : Request → Option (List String × Instant)
  | .increment ids now => if a.isOver ids now then none else some (ids, now)
  | _ => none

/-- Along a run, what is out of range for a constraint at an accepted increment that names it is out
of range at every later reading. -/
def NothingReturns : Archive → List Request → Prop
  | _, [] => True
  | a, r :: rs =>
    (∀ p ∈ a.accepted? r, ∀ id ∈ p.1, ∀ e ∈ a.entries.get? id, ∀ t ∈ a.timesOf id e,
      e.constraint.range.nanos < p.2.elapsed t →
        ∀ later ∈ readings rs, e.constraint.range.nanos < later.elapsed t) ∧
      NothingReturns (a.serve r).2 rs

/-- Along a run, no reading is earlier than an accepted increment before it. -/
def StaysAhead : Archive → List Request → Prop
  | _, [] => True
  | a, r :: rs =>
    (∀ p ∈ a.accepted? r, ∀ later ∈ readings rs, p.2 ≤ later) ∧ StaysAhead (a.serve r).2 rs

instance decidableNothingReturns : (a : Archive) → (rs : List Request) →
    Decidable (a.NothingReturns rs)
  | _, [] => inferInstanceAs (Decidable True)
  | a, r :: rs =>
    have := decidableNothingReturns (a.serve r).2 rs
    inferInstanceAs (Decidable ((∀ p ∈ a.accepted? r, ∀ id ∈ p.1, ∀ e ∈ a.entries.get? id,
      ∀ t ∈ a.timesOf id e, e.constraint.range.nanos < p.2.elapsed t →
        ∀ later ∈ readings rs, e.constraint.range.nanos < later.elapsed t) ∧ _))

instance decidableStaysAhead : (a : Archive) → (rs : List Request) → Decidable (a.StaysAhead rs)
  | _, [] => inferInstanceAs (Decidable True)
  | a, r :: rs =>
    have := decidableStaysAhead (a.serve r).2 rs
    inferInstanceAs (Decidable ((∀ p ∈ a.accepted? r, ∀ later ∈ readings rs, p.2 ≤ later) ∧ _))

variable {a : Archive} {id : String} {ids : List String} {now : Instant} {r : Request}

theorem accepted?_eq_some_iff {p : List String × Instant} :
    a.accepted? r = some p ↔ r = .increment p.1 p.2 ∧ a.isOver p.1 p.2 = false := by
  constructor
  · intro h
    unfold accepted? at h
    split at h
    · split at h
      · cases h
      · next hover =>
        cases h
        exact ⟨rfl, Bool.eq_false_iff.mpr hover⟩
    · cases h
  · rintro ⟨rfl, hover⟩
    rw [accepted?, hover, if_neg Bool.false_ne_true]

/-- A known constraint gains an occurrence for every appearance of its id. -/
theorem timesOf_record {e : CacheEntry} (he : a.entries.get? id = some e) :
    (a.record ids now).timesOf id e = a.timesOf id e ++ List.replicate (ids.count id) now := by
  have hknown : a.entries.contains id = true := by rw [Table.contains, he]; rfl
  have hone : (ids.filter a.entries.contains).filter (fun x => x = id) =
      List.replicate (ids.count id) id := by
    rw [List.filter_filter, ← List.filter_eq]
    refine List.filter_congr fun x _ => ?_
    by_cases hx : x = id
    · rw [hx, hknown, Bool.and_true]
    · rw [decide_eq_false hx, Bool.false_and]
  rw [timesOf, timesOf, record, List.filter_append, List.map_append, ← List.append_assoc,
    List.filter_map, List.map_map]
  refine congrArg _ ?_
  calc ((ids.filter a.entries.contains).filter fun x => x = id).map (fun _ => now)
      = (List.replicate (ids.count id) id).map fun _ => now := by rw [hone]
    _ = List.replicate (ids.count id) now := List.map_replicate

/-- The constraints of an archive stay. -/
theorem serve_entries : (a.serve r).2.entries = a.entries := by
  cases r with
  | increment ids now =>
    rw [serve]
    split <;> rfl
  | _ => rfl

/-- What a history holds after a request was there or is the time of the request. -/
theorem mem_timesOf_serve {e : CacheEntry} (he : a.entries.get? id = some e) {t : Instant}
    (h : t ∈ (a.serve r).2.timesOf id e) : t ∈ a.timesOf id e ∨ r.reading? = some t := by
  cases r with
  | increment ids now =>
    rw [serve] at h
    split at h
    · exact Or.inl h
    · rw [timesOf_record he] at h
      refine (List.mem_append.mp h).imp_right fun hnew => ?_
      rw [List.eq_of_mem_replicate hnew]
      rfl
  | _ => exact Or.inl h

/-- What is out of range stays out of range for a clock that does not go back behind an accepted
increment. -/
theorem StaysAhead.nothingReturns {rs : List Request} (h : a.StaysAhead rs)
    (hclock : ∀ t ∈ readings rs, t.IsPlain)
    (hplain : ∀ id e, a.entries.get? id = some e → ∀ t ∈ a.timesOf id e, t.IsPlain) :
    a.NothingReturns rs := by
  induction rs generalizing a with
  | nil => trivial
  | cons r rs ih =>
    obtain ⟨hahead, hrest⟩ := h
    have hlater : ∀ t ∈ readings rs, t.IsPlain := fun t ht =>
      hclock t (mem_readings_cons.mpr (Or.inr ht))
    refine ⟨fun p hp id _ e he t ht hout later hmem => ?_, ih hrest hlater fun id e he t ht => ?_⟩
    · obtain ⟨rfl, -⟩ := accepted?_eq_some_iff.mp hp
      have hnow : p.2.IsPlain := hclock p.2 (mem_readings_cons.mpr (Or.inl rfl))
      exact hout.trans_le (Instant.elapsed_mono hnow (hlater later hmem) (hplain id e he t ht)
        (hahead p hp later hmem))
    · rw [serve_entries] at he
      rcases mem_timesOf_serve he ht with ht | hread
      · exact hplain id e he t ht
      · exact hclock t (mem_readings_cons.mpr (Or.inl hread))

end Archive

end Limiter

/-! ## A pruned history beside the whole one -/

/-- A cached entry and the whole history of its constraint: nothing is missing but what is out of
range at all of some readings. -/
structure CacheEntry.Prunes (e : CacheEntry) (c : Constraint) (whole later : List Instant) :
    Prop where
  definition : e.constraint = c
  ascending : e.times.Pairwise (· ≤ ·)
  plain : ∀ t ∈ whole, t.IsPlain
  pruned : ∃ gone, whole.Perm (e.times ++ gone) ∧
    ∀ t ∈ gone, ∀ now ∈ later, c.range.nanos < now.elapsed t

namespace CacheEntry.Prunes

variable {e : CacheEntry} {c : Constraint} {whole later : List Instant} {now : Instant}

/-- At the beginning nothing is missing. -/
theorem start (hs : e.times.Pairwise (· ≤ ·)) (hplain : ∀ t ∈ e.times, t.IsPlain)
    (later : List Instant) : e.Prunes e.constraint e.times later :=
  ⟨rfl, hs, hplain, [], by rw [List.append_nil], List.forall_mem_nil _⟩

theorem mono (h : e.Prunes c whole later) {later' : List Instant}
    (hsub : ∀ t ∈ later', t ∈ later) : e.Prunes c whole later' := by
  obtain ⟨gone, hperm, hout⟩ := h.pruned
  exact ⟨h.definition, h.ascending, h.plain, gone, hperm,
    fun t ht now hnow => hout t ht now (hsub now hnow)⟩

/-- The look-up in a pruned history counts the whole one. -/
theorem isOver_iff (h : e.Prunes c whole later) (hnow : now ∈ later) (hplain : now.IsPlain) :
    e.isOver now = true ↔ c.count ≤ whole.countP fun t => now.elapsed t ≤ c.range.nanos := by
  obtain ⟨rfl, hsorted, hwhole, gone, hperm, hout⟩ := h
  have hkept : ∀ t ∈ e.times, t.IsPlain := fun t ht =>
    hwhole t (hperm.mem_iff.mpr (List.mem_append_left _ ht))
  have hnone : gone.countP (fun t => now.elapsed t ≤ e.constraint.range.nanos) = 0 := by
    rw [List.countP_eq_zero]
    intro t ht
    rw [decide_eq_true_eq, not_le]
    exact hout t ht now hnow
  rw [isOver_iff_count hsorted hplain hkept, hperm.countP_eq, List.countP_append, hnone,
    Nat.add_zero]
  rfl

/-- Recording prunes what will not be in range again and adds to both histories alike. -/
theorem recordTimes (h : e.Prunes c whole later) (hnow : now.IsPlain) {n : Nat}
    (hgone : n ≠ 0 → ∀ t ∈ whole, c.range.nanos < now.elapsed t →
      ∀ t' ∈ later, c.range.nanos < t'.elapsed t) :
    (e.recordTimes now n).Prunes c (whole ++ List.replicate n now) later := by
  obtain ⟨rfl, hsorted, hwhole, gone, hperm, hout⟩ := h
  refine ⟨recordTimes_constraint, sorted_recordTimes hsorted, ?_, ?_⟩
  · intro t ht
    rcases List.mem_append.mp ht with ht | ht
    · exact hwhole t ht
    · rw [List.eq_of_mem_replicate ht]
      exact hnow
  · cases n with
    | zero => exact ⟨gone, by simpa using hperm, hout⟩
    | succ n =>
      -- what is dropped now joins what is gone already
      refine ⟨(e.times.filter fun t => !e.isWithinRange now t) ++ gone, ?_, ?_⟩
      · have hparts : e.times.Perm ((e.times.filter fun t => e.isWithinRange now t) ++
            e.times.filter fun t => !e.isWithinRange now t) :=
          (List.filter_append_perm _ _).symm
        calc (whole ++ List.replicate (n + 1) now).Perm
              (List.replicate (n + 1) now ++ (e.times ++ gone)) :=
            List.perm_append_comm.trans (hperm.append_left _)
          _ |>.Perm (List.replicate (n + 1) now ++
              (((e.times.filter fun t => e.isWithinRange now t) ++
                e.times.filter fun t => !e.isWithinRange now t) ++ gone)) :=
            (hparts.append_right _).append_left _
          _ |>.Perm ((e.recordTimes now (n + 1)).times ++
              ((e.times.filter fun t => !e.isWithinRange now t) ++ gone)) := by
            rw [List.append_assoc, ← List.append_assoc]
            exact (recordTimes_perm n).symm.append_right _
      · intro t ht
        rcases List.mem_append.mp ht with ht | ht
        · obtain ⟨hmem, hdropped⟩ := List.mem_filter.mp ht
          refine hgone (Nat.succ_ne_zero n) t (hperm.mem_iff.mpr (List.mem_append_left _ hmem)) ?_
          rwa [isWithinRange, ← decide_not, decide_eq_true_eq, not_le] at hdropped
        · exact hout t ht

end CacheEntry.Prunes

namespace Limiter

/-! ## The limiter beside the archive -/

/-- A request that loads and defines nothing: a check, an increment, or the writer's work. -/
def Request.isUse : Request → Bool
  | .check _ _ | .increment _ _ | .drain | .flush => true
  | .prepare _ | .reconcile _ => false

namespace Service

/-- A limiter has what an archive has, but for what is out of range at all of some readings. -/
def Prunes (v : Service) (a : Archive) (later : List Instant) : Prop :=
  ∀ id, (v.limiter.cache.get? id = none ∧ a.entries.get? id = none) ∨
    ∃ e e₀, v.limiter.cache.get? id = some e ∧ a.entries.get? id = some e₀ ∧
      e.Prunes e₀.constraint (a.timesOf id e₀) later

variable {v : Service} {a : Archive} {later : List Instant} {now : Instant} {ids : List String}

theorem Prunes.mono (h : v.Prunes a later) {later' : List Instant}
    (hsub : ∀ t ∈ later', t ∈ later) : v.Prunes a later' := by
  intro id
  exact (h id).imp_right fun ⟨e, e₀, he, he₀, hprunes⟩ => ⟨e, e₀, he, he₀, hprunes.mono hsub⟩

/-- Both decide alike. -/
theorem Prunes.isOver (h : v.Prunes a later) (hnow : now ∈ later) (hplain : now.IsPlain)
    (ids : List String) : v.limiter.isOver ids now = a.isOver ids now := by
  rw [Limiter.isOver, Archive.isOver]
  refine congrArg ids.any (funext fun id => ?_)
  rw [Archive.isUsedUp]
  rcases h id with ⟨he, he₀⟩ | ⟨e, e₀, he, he₀, hprunes⟩
  · rw [he, he₀]
    rfl
  · rw [he, he₀, Option.any_some, Option.any_some, Bool.eq_iff_iff, decide_eq_true_eq]
    exact hprunes.isOver_iff hnow hplain

/-- Both record alike. -/
theorem Prunes.record (h : v.Prunes a later) (hplain : now.IsPlain)
    (hover : v.limiter.isOver ids now = false)
    (hgone : ∀ id ∈ ids, ∀ e ∈ a.entries.get? id, ∀ t ∈ a.timesOf id e,
      e.constraint.range.nanos < now.elapsed t →
        ∀ t' ∈ later, e.constraint.range.nanos < t'.elapsed t) :
    (v.serve (.increment ids now)).2.Prunes (a.record ids now) later := by
  intro id
  show ((v.limiter.checkAndIncrement ids now).2.cache.get? id = none ∧ a.entries.get? id = none) ∨
    ∃ e e₀, (v.limiter.checkAndIncrement ids now).2.cache.get? id = some e ∧
      a.entries.get? id = some e₀ ∧ e.Prunes e₀.constraint ((a.record ids now).timesOf id e₀) later
  rw [get?_checkAndIncrement hover]
  rcases h id with ⟨he, he₀⟩ | ⟨e, e₀, he, he₀, hprunes⟩
  · exact Or.inl ⟨by rw [he]; rfl, he₀⟩
  · refine Or.inr ⟨e.recordTimes now (ids.count id), e₀, by rw [he]; rfl, he₀, ?_⟩
    rw [Archive.timesOf_record he₀]
    exact hprunes.recordTimes hplain fun hcount =>
      hgone id (List.count_pos_iff.mp (Nat.pos_of_ne_zero hcount)) e₀ he₀

/-- Whatever a use is, both answer it alike and stay side by side. -/
theorem Prunes.serve {r : Request} {rs : List Request} (h : v.Prunes a (readings (r :: rs)))
    (huse : r.isUse = true) (hclock : ∀ t, r.reading? = some t → t.IsPlain)
    (hgone : a.NothingReturns (r :: rs)) :
    (v.serve r).1 = (a.serve r).1 ∧ (v.serve r).2.Prunes (a.serve r).2 (readings rs) := by
  have hrest : v.Prunes a (readings rs) := h.mono fun t ht => mem_readings_cons.mpr (Or.inr ht)
  cases r with
  | check ids now =>
    have hsame := h.isOver (mem_readings_cons.mpr (Or.inl rfl)) (hclock now rfl) ids
    exact ⟨congrArg Reply.decision hsame, hrest⟩
  | increment ids now =>
    have hsame := h.isOver (mem_readings_cons.mpr (Or.inl rfl)) (hclock now rfl) ids
    have hanswer : (v.serve (.increment ids now)).1 = .decision (!a.isOver ids now) :=
      congrArg Reply.decision (checkAndIncrement_fst.trans (congrArg (!·) hsame))
    rw [hanswer, Archive.serve]
    cases hover : a.isOver ids now with
    | true =>
      refine ⟨rfl, ?_⟩
      show Prunes ⟨(v.limiter.checkAndIncrement ids now).2, v.store⟩ a (readings rs)
      rw [checkAndIncrement_of_isOver (hsame.trans hover)]
      exact hrest
    | false =>
      refine ⟨rfl, hrest.record (hclock now rfl) (hsame.trans hover) fun id hid => ?_⟩
      exact hgone.1 (ids, now) (Archive.accepted?_eq_some_iff.mpr ⟨rfl, hover⟩) id hid
  | prepare ids => cases huse
  | reconcile constraints => cases huse
  | drain =>
    refine ⟨rfl, ?_⟩
    rw [Prunes, show (v.serve .drain).2.limiter.cache = v.limiter.cache from drain_cache _ _]
    exact hrest
  | flush => exact ⟨rfl, hrest⟩

theorem Prunes.replies_eq {rs : List Request} (h : v.Prunes a (readings rs))
    (huses : ∀ r ∈ rs, r.isUse = true) (hclock : ∀ t ∈ readings rs, t.IsPlain)
    (hgone : a.NothingReturns rs) : v.replies rs = a.replies rs := by
  induction rs generalizing v a with
  | nil => rfl
  | cons r rs ih =>
    obtain ⟨huse, huses'⟩ := List.forall_mem_cons.mp huses
    obtain ⟨hanswer, hnext⟩ := h.serve huse
      (fun t ht => hclock t (mem_readings_cons.mpr (Or.inl ht))) hgone
    rw [replies, Archive.replies, hanswer, ih hnext huses'
      (fun t ht => hclock t (mem_readings_cons.mpr (Or.inr ht))) hgone.2]

/-- **Pruning changes no answer while nothing comes back.**  A limiter in any state, asked for
checks and increments at readings outside leap seconds and in any order, answers as an archive that
began with the same histories, if what is out of range at an accepted increment stays out of range;
and so it does if no reading is earlier than an accepted increment before it. -/
theorem replies_eq_archive {s : Store} (h : Reachable s v) (hplain : v.IsPlain) {rs : List Request}
    (huses : ∀ r ∈ rs, r.isUse = true) (hclock : ∀ t ∈ readings rs, t.IsPlain) :
    ((Archive.ofLimiter v.limiter).NothingReturns rs →
      v.replies rs = (Archive.ofLimiter v.limiter).replies rs) ∧
    ((Archive.ofLimiter v.limiter).StaysAhead rs →
      v.replies rs = (Archive.ofLimiter v.limiter).replies rs) := by
  have hwhole (id : String) (e : CacheEntry) :
      (Archive.ofLimiter v.limiter).timesOf id e = e.times := List.append_nil _
  have hbegin : v.Prunes (Archive.ofLimiter v.limiter) (readings rs) := by
    intro id
    cases he : v.limiter.cache.get? id with
    | none => exact Or.inl ⟨rfl, he⟩
    | some e =>
      refine Or.inr ⟨e, e, rfl, he, ?_⟩
      rw [hwhole]
      exact .start (ascending_of_reachable h id e he) (hplain id e he) _
  have hequal := hbegin.replies_eq huses hclock
  refine ⟨hequal, fun hahead => hequal (hahead.nothingReturns hclock fun id e he => ?_)⟩
  rw [hwhole]
  exact hplain id e he

/-! ## Setting a clock back -/

/-- Twice in half a second, used and looked at by a clock that is set back from 900 to 600. -/
def settingBack : List Request :=
  [.increment ["c"] (.ofMillis 0), .increment ["c", "d"] (.ofMillis 400),
    .check ["c"] (.ofMillis 300), .drain, .increment ["c"] (.ofMillis 900),
    .check ["c"] (.ofMillis 600)]

/-- The same, looked at long before and after. -/
def lookingAhead : List Request :=
  [.increment ["c"] (.ofMillis 0), .check ["c"] (.ofMillis 5000), .increment ["c"] (.ofMillis 400),
    .check ["d", "c"] (.ofMillis 450), .flush, .increment ["c"] (.ofMillis 501)]

/-- What was out of range at 900 is not asked for again at 600, and a look ahead forgets nothing. -/
theorem replies_eq_archive_settingBack :
    (Archive.ofLimiter (serving twiceInHalfSecond).limiter).NothingReturns settingBack ∧
    (Archive.ofLimiter (serving twiceInHalfSecond).limiter).StaysAhead lookingAhead ∧
    (Archive.ofLimiter (serving twiceInHalfSecond).limiter).replies settingBack =
      [.decision true, .decision true, .decision true, .silence, .decision true, .decision true] ∧
    (Archive.ofLimiter (serving twiceInHalfSecond).limiter).replies lookingAhead =
      [.decision true, .decision false, .decision true, .decision true, .silence, .decision true] ∧
    (serving twiceInHalfSecond).replies settingBack =
      (Archive.ofLimiter (serving twiceInHalfSecond).limiter).replies settingBack ∧
    (serving twiceInHalfSecond).replies lookingAhead =
      (Archive.ofLimiter (serving twiceInHalfSecond).limiter).replies lookingAhead := by
  have hreach : Reachable (.ofTables .empty) (serving twiceInHalfSecond) := reachable_run _ _
  have hplain : (serving twiceInHalfSecond).IsPlain :=
    isPlain_run (fun _ _ he => by cases he) fun ids now hmem => by simp at hmem
  have hback : ∀ r ∈ settingBack, r.isUse = true := by decide
  have hahead : ∀ r ∈ lookingAhead, r.isUse = true := by decide
  exact ⟨by decide, by decide, rfl, rfl,
    (replies_eq_archive hreach hplain hback (by decide)).1 (by decide),
    (replies_eq_archive hreach hplain hahead (by decide)).2 (by decide)⟩

/-- A clock that goes back finds again what an increment has thrown away: at 1000 the limiter prunes
the occurrence of 0, and by a clock set back to 100 only one of the two is left.  Across a leap
second the two differ although the clock goes on and nothing is pruned, since the limiter does not
count. -/
theorem pruned_occurrence_is_missed :
    ((serving twiceInHalfSecond).replies [.increment ["c"] (.ofMillis 0),
        .increment ["c"] (.ofMillis 1000), .check ["c"] (.ofMillis 100)] =
          [.decision true, .decision true, .decision false] ∧
      (Archive.ofLimiter (serving twiceInHalfSecond).limiter).replies
        [.increment ["c"] (.ofMillis 0), .increment ["c"] (.ofMillis 1000),
          .check ["c"] (.ofMillis 100)] = [.decision true, .decision true, .decision true]) ∧
    (serving twiceInHalfSecond).replies [.increment ["c"] (.ofMillis 59900),
        .increment ["c"] leapSecond, .check ["c"] (.ofMillis 60000)] =
          [.decision true, .decision true, .decision true] ∧
      (Archive.ofLimiter (serving twiceInHalfSecond).limiter).replies
        [.increment ["c"] (.ofMillis 59900), .increment ["c"] leapSecond,
          .check ["c"] (.ofMillis 60000)] = [.decision true, .decision true, .decision false] :=
  ⟨⟨rfl, rfl⟩, rfl, rfl⟩

end Service
end Limiter
end Automation
