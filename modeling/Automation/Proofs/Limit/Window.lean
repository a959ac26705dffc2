import Automation.Proofs.Limit.Queueing
import Automation.Proofs.Limit.RateCap
import Automation.Proofs.Limit.Rounding

/-!
# One look-up is a count

A limit says how many occurrences may lie in a window, and the limiter never counts them.  It takes
the occurrence whose place from the end is the limit and asks how long ago that was.  In an
ascending history the ages descend, so the occurrences in range are at its end, and there are as
many as the limit just if the one at that place is among them (`CacheEntry.isOver_iff_count`).

The histories are ascending in every state of a limiter, wherever the clock goes: what is loaded is
sorted, what is recorded is put between the past and the future, and a list keeps a history or
clears it (`ascending_of_reachable`).  An occurrence that lies ahead of the clock has age zero and
stands behind all others, so it counts and is found in its place.

## Leap seconds

In ascending order the ages descend only outside leap seconds.  From inside one to the next second
the clock measures more than from the second before, and by a clock that shows one, yesterday's last
second is younger than today's first.  In both cases the look-up finds an occurrence in range and
fewer are (`look_up_is_no_count`).  What is loaded is never inside a leap second, so a history is
free of them if no increment came in one (`isPlain_run`).
-/

namespace Automation
namespace Limiter

/-- Some cached constraint of a list allows no occurrence at all, or as many as it allows are in
range. -/
def IsUsedUp (l : Limiter) (ids : List String) (now : Instant) : Prop :=
  ∃ id ∈ ids, ∃ e, l.cache.get? id = some e ∧ (e.constraint.count = 0 ∨
    e.constraint.count ≤ e.times.countP fun t => now.elapsed t ≤ e.constraint.range.nanos)

/-- A limit is over for a list when it is for a cached constraint of it. -/
theorem isOver_iff_exists {l : Limiter} {ids : List String} {now : Instant} :
    l.isOver ids now = true ↔ ∃ id ∈ ids, ∃ e, l.cache.get? id = some e ∧ e.isOver now = true := by
  rw [isOver, List.any_eq_true]
  refine exists_congr fun id => and_congr_right fun _ => ?_
  rw [Option.any_eq_true]

namespace Service

variable {s : Store} {v : Service}

/-! ## Ascending histories -/

/-- A difference leaves the order of the histories. -/
theorem ascending_announce (h : Ascending v.limiter.cache) (incoming : List Constraint) :
    Ascending (v.announce incoming).limiter.cache := by
  rcases hread : v.store.readConstraints with ⟨_ | stored, s'⟩
  · simp only [announce, Limiter.announce, hread]
    exact h
  · simp only [announce, Limiter.announce, hread]
    intro id e he
    rcases times_of_applyToCache he with hnil | ⟨e₀, he₀, hsame⟩
    · rw [hnil]
      exact List.Pairwise.nil
    · rw [← hsame]
      exact h id e₀ he₀

/-- Every cached history is in ascending order in every state of a limiter. -/
theorem ascending_of_reachable (h : Reachable s v) : Ascending v.limiter.cache := by
  induction h with
  | start => exact ascending_run s []
  | increment ids now _ ih => exact ascending_serve _ (.increment ids now) ih
  | prepare ids _ _ ih => exact ascending_serve _ (.prepare ids) ih
  | announce incoming _ ih => exact ascending_announce ih incoming
  | drain _ ih => exact ascending_serve _ .drain ih

/-! ## Histories outside leap seconds -/

/-- No cached occurrence lies inside a leap second. -/
def IsPlain (v : Service) : Prop :=
  ∀ id e, v.limiter.cache.get? id = some e → ∀ t ∈ e.times, t.IsPlain

theorem isPlain_serve (h : v.IsPlain) {r : Request}
    (hr : ∀ ids now, r = .increment ids now → now.IsPlain) : (v.serve r).2.IsPlain := by
  cases r with
  | check ids now => exact h
  | increment ids now =>
    intro id e he t ht
    change (v.limiter.checkAndIncrement ids now).2.cache.get? id = some e at he
    cases hover : v.limiter.isOver ids now with
    | true =>
      rw [checkAndIncrement_of_isOver hover] at he
      exact h id e he t ht
    | false =>
      rw [get?_checkAndIncrement hover] at he
      obtain ⟨e₀, he₀, rfl⟩ := Option.map_eq_some_iff.mp he
      rcases CacheEntry.mem_recordTimes ht with rfl | ht
      · exact hr ids t rfl
      · exact h id e₀ he₀ t ht
  | prepare ids =>
    rcases hprep : v.limiter.prepare v.store ids with ⟨answer, l', s'⟩
    obtain ⟨-, -, es, hes, hcache⟩ := prepare_spec hprep
    intro id e he t ht
    simp only [serve, hprep, hcache] at he
    rw [get?_foldl_addEntry, Option.or_eq_some_iff] at he
    rcases he with he | ⟨-, he⟩
    · exact h id e he t ht
    · exact ((hes e (List.mem_of_find?_eq_some he)).isWhole t ht).isPlain
  | reconcile constraints =>
    intro id e he t ht
    change (v.limiter.setConstraints v.store constraints).2.1.cache.get? id = some e at he
    rcases setConstraints_cache v.limiter v.store constraints with hcache | ⟨d, hcache⟩
    · rw [hcache] at he
      exact h id e he t ht
    · rw [hcache] at he
      rcases times_of_applyToCache he with hnil | ⟨e₀, he₀, hsame⟩
      · rw [hnil] at ht
        cases ht
      · exact h id e₀ he₀ t (hsame ▸ ht)
  | drain =>
    rw [IsPlain, show (v.serve .drain).2.limiter.cache = v.limiter.cache from drain_cache _ _]
    exact h
  | flush => exact h

/-- Where no increment came inside a leap second, no cached occurrence lies in one. -/
theorem isPlain_run (h : v.IsPlain) {rs : List Request}
    (hrs : ∀ ids now, .increment ids now ∈ rs → now.IsPlain) : (v.run rs).IsPlain := by
  induction rs generalizing v with
  | nil => exact h
  | cons r rs ih =>
    refine ih (isPlain_serve h fun ids now hr => ?_) fun ids now hmem => ?_
    · exact hrs ids now (hr ▸ List.mem_cons_self)
    · exact hrs ids now (List.mem_cons_of_mem _ hmem)

/-! ## Counting -/

/-- **One look-up is a count.**  In every state of a limiter, whatever the clock shows, every cached
history is in ascending order; and where neither the clock nor the histories of a list are inside a
leap second, the limit is over for the list just when some cached constraint of it allows nothing or
has as many occurrences in range as it allows.  Histories are outside leap seconds if no increment
came in one. -/
theorem isOver_iff_isUsedUp (h : Reachable s v) :
    (∀ id e, v.limiter.cache.get? id = some e → e.times.Pairwise (· ≤ ·)) ∧
    (∀ (ids : List String) (now : Instant), now.IsPlain →
      (∀ id ∈ ids, ∀ e, v.limiter.cache.get? id = some e → ∀ t ∈ e.times, t.IsPlain) →
      (v.limiter.isOver ids now = true ↔ v.limiter.IsUsedUp ids now)) ∧
    (∀ rs, (∀ ids now, .increment ids now ∈ rs → now.IsPlain) → ((start s).run rs).IsPlain) := by
  have hsorted := ascending_of_reachable h
  refine ⟨hsorted, fun ids now hnow hplain => ?_, fun rs hrs => isPlain_run ?_ hrs⟩
  · rw [isOver_iff_exists]
    refine exists_congr fun id => and_congr_right fun hid => exists_congr fun e =>
      and_congr_right fun he => ?_
    rw [CacheEntry.isOver_iff_count (hsorted id e he) hnow (hplain id hid e he)]
    -- a constraint of count zero has as many in range as it allows
    constructor
    · exact Or.inr
    · rintro (hzero | hcount)
      · rw [hzero]
        exact Nat.zero_le _
      · exact hcount
  · intro id e he
    cases he

/-! ## A clock that goes back, and what leap seconds do -/

/-- A store with a limit of twice in half a second and an occurrence that is still to come. -/
def foreseeing : Store :=
  .ofTables ⟨.empty, .ofList [("a", ⟨500, 2⟩)], [⟨"a", 5000⟩]⟩

/-- The limit is used at second 2. -/
def usedAhead : List Request := [.prepare ["a"], .increment ["a"] (.ofMillis 2000)]

/-- Both occurrences are in range shortly afterwards and for a clock that goes back before them, and
later only the one that is still to come. -/
theorem isUsedUp_usedAhead :
    ((start foreseeing).run usedAhead).limiter.IsUsedUp ["a"] (.ofMillis 2400) ∧
      ((start foreseeing).run usedAhead).limiter.IsUsedUp ["b", "a"] (.ofMillis 1000) ∧
      ¬ ((start foreseeing).run usedAhead).limiter.IsUsedUp ["a"] (.ofMillis 2600) := by
  obtain ⟨-, hcount, hplain⟩ := isOver_iff_isUsedUp (reachable_run foreseeing usedAhead)
  have hplain := hplain usedAhead fun ids now hmem => by
    have hone : ids = ["a"] ∧ now = .ofMillis 2000 := by simpa [usedAhead] using hmem
    exact hone.2 ▸ (Instant.isWhole_ofMillis 2000).isPlain
  have hcount (ids : List String) (millis : Int) :=
    hcount ids (.ofMillis millis) (Instant.isWhole_ofMillis millis).isPlain
      fun id _ e he => hplain id e he
  exact ⟨(hcount _ _).mp (by decide), (hcount _ _).mp (by decide),
    fun hused => absurd ((hcount _ _).mpr hused) (by decide)⟩

/-- Twice in half a second. -/
def twiceInHalfSecond : Constraint := ⟨"c", .ofMillis 500, 2⟩

/-- Twice in half a day and a minute, less a quarter of a second. -/
def twiceInHalfDay : Constraint := ⟨"c", .ofMillis 43259750, 2⟩

/-- The first instant of a leap second, one minute past noon of the second day of 1970. -/
def noonLeapSecond : Instant :=
  { leapSecond with
    day := 1, second := 43259, day_ge := by decide, day_le := by decide, second_lt := by decide,
    leap := fun _ => rfl }

/-- Counting needs its conditions.  From inside a leap second to the next second the clock measures
a whole second and from the second before only a tenth of one; and inside a leap second it measures
half a second less to yesterday's last second than to today's first.  Either way the look-up finds
the earlier of two occurrences in range where the later one is not. -/
theorem look_up_is_no_count :
    (Reachable (.ofTables .empty) ((serving twiceInHalfSecond).run
        [.increment ["c"] (.ofMillis 59900), .increment ["c"] leapSecond]) ∧
      ¬ (((serving twiceInHalfSecond).run
          [.increment ["c"] (.ofMillis 59900), .increment ["c"] leapSecond]).limiter.isOver ["c"]
            (.ofMillis 60000) = true ↔
        ((serving twiceInHalfSecond).run
          [.increment ["c"] (.ofMillis 59900), .increment ["c"] leapSecond]).limiter.IsUsedUp ["c"]
            (.ofMillis 60000))) ∧
    (Reachable (.ofTables .empty) ((serving twiceInHalfDay).run
        [.increment ["c"] (.ofMillis 86399500), .increment ["c"] (.ofMillis 86400000)]) ∧
      ¬ (((serving twiceInHalfDay).run
          [.increment ["c"] (.ofMillis 86399500),
            .increment ["c"] (.ofMillis 86400000)]).limiter.isOver ["c"] noonLeapSecond = true ↔
        ((serving twiceInHalfDay).run
          [.increment ["c"] (.ofMillis 86399500),
            .increment ["c"] (.ofMillis 86400000)]).limiter.IsUsedUp ["c"] noonLeapSecond)) := by
  have hreach (c : Constraint) (rs : List Request) :
      Reachable (.ofTables .empty) ((serving c).run rs) := by
    rw [serving, ← run_append]
    exact reachable_run _ _
  refine ⟨⟨hreach _ _, fun hiff => ?_⟩, hreach _ _, fun hiff => ?_⟩
  · obtain ⟨id, hid, e, he, hcount⟩ := hiff.mp (by decide)
    cases List.mem_singleton.mp hid
    have hentry : e = ⟨twiceInHalfSecond, [.ofMillis 59900, leapSecond]⟩ :=
      (Option.some.inj he).symm
    subst hentry
    exact absurd hcount (by decide)
  · obtain ⟨id, hid, e, he, hcount⟩ := hiff.mp (by decide)
    cases List.mem_singleton.mp hid
    have hentry : e = ⟨twiceInHalfDay, [.ofMillis 86399500, .ofMillis 86400000]⟩ :=
      (Option.some.inj he).symm
    subst hentry
    exact absurd hcount (by decide)

end Service
end Limiter
end Automation
