import Automation.Proofs.Limit.RateCap
import Automation.Proofs.Limit.Reference

/-!
# A new limiter takes over

A limiter whose writes have all been carried out can be replaced by one that knows nothing but a
copy of the store, and nobody can tell.  Both are in step with the same settled tables, so
`InStep.respond` gives both the same answers and leaves both with the same settled tables again
(`replies_eq`).  What the old cache has pruned, kept through a change of a count or not yet written
does not matter, in whatever order it came about.

## What may be asked

A check looks at the cache alone, so for an id that is not cached the old limiter and the new one
may differ.  What rules that out is a checker: making one caches its ids, or says which is not
defined.  `Service.UsesCheckers` says that a run checks and increments through checkers only, which
were made after the last list of definitions.

## Leap seconds

Times are stored as milliseconds, and one inside a leap second is stored as one in the second that
follows.  The old limiter has it as it was and the new one as it was stored, and half a second later
they do not agree how long ago it is (`leap_second_is_forgotten`).  So the clock has to show whole
milliseconds outside leap seconds, which is what comes back from the store.
-/

namespace Automation
namespace Limiter

/-- A run of requests as they should be: no list of definitions repeats an id, rows have room for
every definition, and the clock shows whole milliseconds and does not go back. -/
structure IsRegular (rs : List Request) : Prop where
  lists : ∀ constraints, .reconcile constraints ∈ rs →
    (constraints.map (·.id)).Nodup ∧ ∀ c ∈ constraints, c.Fits
  forward : (readings rs).Pairwise (· ≤ ·)
  whole : ∀ t ∈ readings rs, t.IsWhole

/-- What a regular run says about its first request and about the others. -/
theorem IsRegular.uncons {r : Request} {rs : List Request} {now : Instant}
    (h : IsRegular (r :: rs)) (hlater : ∀ t ∈ readings (r :: rs), now ≤ t) :
    (∀ t, r.reading? = some t → t.IsWhole ∧ now ≤ t) ∧
      (∀ constraints, r = .reconcile constraints →
        (constraints.map (·.id)).Nodup ∧ ∀ c ∈ constraints, c.Fits) ∧
      IsRegular rs ∧ ∀ t ∈ readings rs, r.reading?.getD now ≤ t := by
  have hfirst : ∀ t, r.reading? = some t → t ∈ readings (r :: rs) := fun t ht =>
    mem_readings_cons.mpr (Or.inl ht)
  have hrest : ∀ t ∈ readings rs, t ∈ readings (r :: rs) := fun t ht =>
    mem_readings_cons.mpr (Or.inr ht)
  obtain ⟨hforward, hafter⟩ := pairwise_readings_of_cons h.forward
  refine ⟨fun t ht => ⟨h.whole t (hfirst t ht), hlater t (hfirst t ht)⟩,
    fun constraints hr => h.lists constraints (hr ▸ List.mem_cons_self),
    ⟨fun constraints hmem => h.lists constraints (List.mem_cons_of_mem _ hmem), hforward,
      fun t ht => h.whole t (hrest t ht)⟩, fun t ht => ?_⟩
  cases hread : r.reading? with
  | none => exact hlater t (hrest t ht)
  | some time => exact hafter time hread t ht

theorem IsRegular.right {rs more : List Request} (h : IsRegular (rs ++ more)) :
    IsRegular more := by
  have hreadings : readings (rs ++ more) = readings rs ++ readings more := List.filterMap_append
  have hforward := h.forward
  have hwhole := h.whole
  rw [hreadings] at hforward hwhole
  exact ⟨fun constraints hmem => h.lists constraints (List.mem_append_right _ hmem),
    (List.pairwise_append.mp hforward).2.1, fun t ht => hwhole t (List.mem_append_right _ ht)⟩

namespace Service

/-- What a run answers. -/
def replies : Service → List Request → List Reply
  | _, [] => []
  | v, r :: rs => (v.serve r).1 :: replies (v.serve r).2 rs

/-! ## Checkers -/

/-- The lists of the checkers that there are after a request: a new one joins them, and after a new
list of definitions they have to be made again. -/
def checkersAfter (v : Service) (made : List (List String)) : Request → List (List String)
  | .prepare ids =>
    match (v.limiter.prepare v.store ids).1 with
    | .ok _ => ids :: made
    | .error _ => made
  | .reconcile _ => []
  | _ => made

/-- Every check and every increment of a run goes through a checker that there is then. -/
def UsesCheckers : Service → List (List String) → List Request → Prop
  | _, _, [] => True
  | v, made, r :: rs =>
    (∀ ids ∈ r.asked?, ids ∈ made) ∧ UsesCheckers (v.serve r).2 (v.checkersAfter made r) rs

instance decidableUsesCheckers : (v : Service) → (made : List (List String)) →
    (rs : List Request) → Decidable (v.UsesCheckers made rs)
  | _, _, [] => inferInstanceAs (Decidable True)
  | v, made, r :: rs =>
    have := decidableUsesCheckers (v.serve r).2 (v.checkersAfter made r) rs
    inferInstanceAs (Decidable ((∀ ids ∈ r.asked?, ids ∈ made) ∧ _))

/-- The ids of some lists are cached. -/
def Caches (v : Service) (made : List (List String)) : Prop :=
  ∀ ids ∈ made, ∀ id ∈ ids, v.limiter.cache.contains id = true

variable {v w : Service} {now : Instant} {made : List (List String)}

/-- What is cached stays cached until the next list of definitions. -/
theorem contains_serve (v : Service) {r : Request} (hr : ∀ constraints, r ≠ .reconcile constraints)
    {id : String} (h : v.limiter.cache.contains id = true) :
    (v.serve r).2.limiter.cache.contains id = true := by
  cases r with
  | check ids t => exact h
  | increment ids t => exact (contains_checkAndIncrement v.limiter ids t id).trans h
  | prepare ids =>
    rcases hprepare : v.limiter.prepare v.store ids with ⟨answer, l', s'⟩
    simp only [serve, hprepare]
    exact contains_prepare hprepare h
  | reconcile constraints => exact absurd rfl (hr constraints)
  | drain =>
    rw [show (v.serve .drain).2.limiter.cache = v.limiter.cache from drain_cache _ _]
    exact h
  | flush => exact h

/-- The ids of checkers are cached. -/
theorem InStep.caches_checkersAfter (h : v.InStep now) (hmade : v.Caches made) (r : Request) :
    (v.serve r).2.Caches (v.checkersAfter made r) := by
  have hkept : (∀ constraints, r ≠ .reconcile constraints) → (v.serve r).2.Caches made :=
    fun hr ids hids id hid => contains_serve v hr (hmade ids hids id hid)
  cases r with
  | prepare ids =>
    have hkept := hkept fun _ h => by cases h
    have hanswer := h.prepare_answer ids
    rw [checkersAfter, hanswer]
    split
    · next hok =>
      intro ids' hids'
      rcases List.mem_cons.mp hids' with rfl | hids'
      · exact (h.prepare ids').2.2 hok
      · exact hkept ids' hids'
    · exact hkept
  | reconcile constraints => exact List.forall_mem_nil _
  | check ids t => exact hkept fun _ h => by cases h
  | increment ids t => exact hkept fun _ h => by cases h
  | drain => exact hkept fun _ h => by cases h
  | flush => exact hkept fun _ h => by cases h

/-- Which checkers there are is a matter of the settled tables. -/
theorem InStep.checkersAfter_eq (hv : v.InStep now) (hw : w.InStep now)
    (hsame : w.settled = v.settled) (made : List (List String)) (r : Request) :
    w.checkersAfter made r = v.checkersAfter made r := by
  cases r with
  | prepare ids =>
    rw [checkersAfter, checkersAfter, hv.prepare_answer, hw.prepare_answer, hsame]
  | _ => rfl

/-! ## Going on alike -/

/-- Services in step with the same settled tables answer a run alike. -/
theorem replies_eq {rs : List Request} (hv : v.InStep now) (hw : w.InStep now)
    (hsame : w.settled = v.settled) (hcv : v.Caches made) (hcw : w.Caches made)
    (huses : v.UsesCheckers made rs) (hregular : IsRegular rs)
    (hlater : ∀ t ∈ readings rs, now ≤ t) : v.replies rs = w.replies rs := by
  induction rs generalizing v w now made with
  | nil => rfl
  | cons r rs ih =>
    obtain ⟨hclock, hlist, hrest, hlater'⟩ := hregular.uncons hlater
    obtain ⟨hids, huses'⟩ := huses
    have hrv := hv.respond hclock hlist fun ids hask => hcv ids (hids ids hask)
    have hrw := hw.respond hclock hlist fun ids hask => hcw ids (hids ids hask)
    rw [hsame, ← hrv] at hrw
    obtain ⟨hreply, hsettled⟩ := Prod.mk.inj hrw
    have hcw' := hw.caches_checkersAfter hcw r
    rw [hv.checkersAfter_eq hw hsame] at hcw'
    rw [replies, replies, hreply, ih (hv.serve hclock hlist) (hw.serve hclock hlist) hsettled
      (hv.caches_checkersAfter hcv r) hcw' huses' hrest hlater']

/-- A regular run keeps a service in step, until a time that the clock has not passed. -/
theorem inStep_run {rs more : List Request} (h : v.InStep now) (hregular : IsRegular (rs ++ more))
    (hlater : ∀ t ∈ readings (rs ++ more), now ≤ t) :
    ∃ later, (v.run rs).InStep later ∧ ∀ t ∈ readings more, later ≤ t := by
  induction rs generalizing v now with
  | nil => exact ⟨now, h, hlater⟩
  | cons r rs ih =>
    obtain ⟨hclock, hlist, hrest, hlater'⟩ := hregular.uncons hlater
    exact ih (h.serve hclock hlist) hrest hlater'

/-! ## The old limiter and the new one -/

/-- What a run over a store leaves once all is written. -/
def written (s : Store) (rs : List Request) : Service := (((start s).run rs).serve .flush).2

/-- **A new limiter over a copy of the store takes the place of the old one.**  After a regular run
over a store that refuses nothing and whose rows can be read, once all is written, both make the
same checkers, where all that can stand against one is an id that is not defined, and both answer
alike whatever is asked through checkers from then on. -/
theorem indistinguishable_of_copy {s copy : Store} {rs more : List Request} (hs : s.IsReliable)
    (hread : s.tables.IsReadable) (hregular : IsRegular (rs ++ more))
    (hreliable : copy.IsReliable) (hcopy : copy.tables = (written s rs).store.tables)
    (huses : (written s rs).UsesCheckers [] more) :
    (∀ ids, ∃ answer,
      ((written s rs).serve (.prepare ids)).1 = .outcome answer ∧
      ((start copy).serve (.prepare ids)).1 = .outcome answer ∧
      (answer = .ok () ∨ ∃ id ∈ ids, answer = .error (.notFound id))) ∧
    (written s rs).replies more = (start copy).replies more := by
  obtain ⟨now, hnow, hlater⟩ : ∃ now : Instant, now.IsWhole ∧
      ∀ t ∈ readings (rs ++ more), now ≤ t := by
    cases hreadings : readings (rs ++ more) with
    | nil => exact ⟨.epoch, Instant.isWhole_epoch, List.forall_mem_nil _⟩
    | cons first rest =>
      have hforward := hregular.forward
      have hwhole := hregular.whole
      rw [hreadings] at hforward hwhole
      refine ⟨first, hwhole first List.mem_cons_self, fun t ht => ?_⟩
      rcases List.mem_cons.mp ht with rfl | ht
      · exact le_rfl
      · exact (List.pairwise_cons.mp hforward).1 t ht
  obtain ⟨later, hrun, hafter⟩ := inStep_run (inStep_start hs hread hnow).1 hregular hlater
  have hv : (written s rs).InStep later := hrun.flush.1
  have hsettled : (written s rs).settled = copy.tables :=
    (settled_of_pending_eq_nil rfl _).trans hcopy.symm
  obtain ⟨hw, hcopied⟩ := inStep_start hreliable (hsettled ▸ hv.readable) hv.clock
  rw [← hsettled] at hcopied
  refine ⟨fun ids => ⟨(written s rs).settled.requireAll ids, ?_, ?_, ?_⟩, ?_⟩
  · exact congrArg Reply.outcome (hv.prepare_answer ids)
  · rw [← hcopied]
    exact congrArg Reply.outcome (hw.prepare_answer ids)
  · rw [Tables.requireAll]
    split
    · next id hfind => exact Or.inr ⟨id, List.mem_of_find?_eq_some hfind, rfl⟩
    · exact Or.inl rfl
  · exact replies_eq hv hw hcopied (List.forall_mem_nil _) (List.forall_mem_nil _) huses
      hregular.right hafter

/-! ## A run, and what a leap second does -/

/-- A store with one constraint, used once long ago. -/
def usedOnce : Store :=
  .ofTables ⟨.empty, .ofList [("a", ⟨1000, 1⟩)], [⟨"a", 100⟩]⟩

/-- A limit is used, raised, and used again together with one whose range is no whole number of
milliseconds. -/
def busy : List Request :=
  [.prepare ["a"], .increment ["a"] (.ofMillis 2000), .drain,
    .reconcile [⟨"a", .ofMillis 1000, 2⟩, ⟨"b", ⟨1500000⟩, 1⟩], .prepare ["b", "a"],
    .increment ["b", "a"] (.ofMillis 2500)]

/-- What is asked afterwards. -/
def afterwards : List Request :=
  [.prepare ["a", "b"], .check ["a", "b"] (.ofMillis 2501),
    .increment ["a", "b"] (.ofMillis 2502), .prepare ["c"], .prepare ["a"],
    .increment ["a"] (.ofMillis 3001), .check ["a"] (.ofMillis 3001)]

/-- Old and new limiter at that run. -/
theorem replies_busy :
    (written usedOnce busy).replies afterwards =
        (start (.ofTables (written usedOnce busy).store.tables)).replies afterwards ∧
      (written usedOnce busy).replies afterwards =
        [.outcome (.ok ()), .decision true, .decision false, .outcome (.error (.notFound "c")),
          .outcome (.ok ()), .decision true, .decision true] := by
  have hread : usedOnce.tables.IsReadable := by
    refine ⟨fun id row hrow => ?_, fun id row hrow _ => ?_⟩
    · have hentry : (id, row) ∈ [("a", (⟨1000, 1⟩ : ConstraintRow))] :=
        (Table.get?_eq_some_iff _ _ _).mp hrow
      cases List.mem_singleton.mp hentry
      exact ⟨_, rfl⟩
    · have hone : row ∈ [(⟨"a", 100⟩ : OccurrenceRow)] := hrow
      cases List.mem_singleton.mp hone
      rfl
  have hregular : IsRegular (busy ++ afterwards) := by
    refine ⟨fun constraints hmem => ?_, by decide, fun t ht => ?_⟩
    · have hlist : constraints = [⟨"a", .ofMillis 1000, 2⟩, ⟨"b", ⟨1500000⟩, 1⟩] := by
        simpa [busy, afterwards] using hmem
      subst hlist
      decide
    · have hreadings : readings (busy ++ afterwards) =
          [2000, 2500, 2501, 2502, 3001, 3001].map Instant.ofMillis := rfl
      rw [hreadings] at ht
      obtain ⟨millis, -, rfl⟩ := List.mem_map.mp ht
      exact Instant.isWhole_ofMillis millis
  exact ⟨(indistinguishable_of_copy (Store.isReliable_ofTables _) hread hregular
    (Store.isReliable_ofTables _) rfl (by decide)).2, rfl⟩

/-- A limit of once in half a second is used inside a leap second. -/
def inLeapSecond : List Request :=
  [.reconcile [halfSecond], .prepare ["c"], .increment ["c"] leapSecond]

/-- In the second that follows it is looked at. -/
def nextSecond : List Request := [.prepare ["c"], .check ["c"] (.ofMillis 60000)]

/-- A time inside a leap second has no part of a millisecond either, but it does not come back from
the store: the old limiter measures a second from it and the new one nothing. -/
theorem leap_second_is_forgotten :
    (Store.ofTables .empty).IsReliable ∧ Tables.empty.IsReadable ∧
      (∀ constraints, .reconcile constraints ∈ inLeapSecond ++ nextSecond →
        (constraints.map (·.id)).Nodup ∧ ∀ c ∈ constraints, c.Fits) ∧
      (readings (inLeapSecond ++ nextSecond)).Pairwise (· ≤ ·) ∧
      (∀ t ∈ readings (inLeapSecond ++ nextSecond), t.nano % 1000000 = 0) ∧
      (written (.ofTables .empty) inLeapSecond).UsesCheckers [] nextSecond ∧
      (written (.ofTables .empty) inLeapSecond).replies nextSecond =
        [.outcome (.ok ()), .decision false] ∧
      (start (.ofTables (written (.ofTables .empty) inLeapSecond).store.tables)).replies
        nextSecond = [.outcome (.ok ()), .decision true] := by
  refine ⟨Store.isReliable_ofTables _, ⟨fun id row hrow => ?_, fun id => List.forall_mem_nil _⟩,
    fun constraints hmem => ?_, by decide, by decide, by decide, rfl, rfl⟩
  · cases hrow
  · have hlist : constraints = [halfSecond] := by
      simpa [inLeapSecond, nextSecond] using hmem
    subst hlist
    decide

end Service

end Limiter
end Automation
