import Automation.Proofs.Limit.Reconcile

/-!
# Histories stay ascending

Every cached history is in ascending order, whatever the clock does and whatever fails: what is
loaded is sorted, recording puts a time in its place, and a reconciliation keeps a history or clears
it.
-/

namespace Automation
namespace Limiter

/-- Every cached history is in ascending order. -/
def Ascending (cache : Table String CacheEntry) : Prop :=
  ∀ id e, cache.get? id = some e → e.times.Pairwise (· ≤ ·)

theorem IsLoaded.ascending {t : Tables} {e : CacheEntry} (h : IsLoaded t e) :
    e.times.Pairwise (· ≤ ·) := by
  obtain ⟨-, os, -, htimes⟩ := h
  rw [htimes]
  exact sorted_sortBy Instant.rank _

theorem ascending_foldl_addEntry {cache : Table String CacheEntry} (h : Ascending cache)
    {t : Tables} {es : List CacheEntry} (hes : ∀ e ∈ es, IsLoaded t e) :
    Ascending (es.foldl addEntry cache) := by
  intro id e he
  rw [get?_foldl_addEntry, Option.or_eq_some_iff] at he
  rcases he with he | ⟨-, he⟩
  · exact h id e he
  · exact (hes e (List.mem_of_find?_eq_some he)).ascending

/-- A difference keeps a history or clears it. -/
theorem times_of_applyToCache {d : Difference} {cache : Table String CacheEntry} {id : String}
    {e : CacheEntry} (h : (d.applyToCache cache).get? id = some e) :
    e.times = [] ∨ ∃ e₀, cache.get? id = some e₀ ∧ e₀.times = e.times := by
  rw [get?_applyToCache] at h
  split at h
  · cases h
  · obtain ⟨e₀, he₀, rfl⟩ := Option.map_eq_some_iff.mp h
    dsimp only [Difference.applyToEntry]
    split
    · exact Or.inl rfl
    · exact Or.inr ⟨e₀, he₀, rfl⟩

/-- Whatever fails, a reconciliation changes the cache by a difference or not at all. -/
theorem setConstraints_cache (l : Limiter) (s : Store) (incoming : List Constraint) :
    (l.setConstraints s incoming).2.1.cache = l.cache ∨
      ∃ d : Difference, (l.setConstraints s incoming).2.1.cache = d.applyToCache l.cache := by
  rw [setConstraints]
  split
  · exact Or.inl rfl
  · exact Or.inr ⟨_, rfl⟩

namespace Service

theorem ascending_serve (v : Service) (r : Request) (h : Ascending v.limiter.cache) :
    Ascending (v.serve r).2.limiter.cache := by
  cases r with
  | check ids now => exact h
  | increment ids now =>
    intro id e he
    change (v.limiter.checkAndIncrement ids now).2.cache.get? id = some e at he
    cases hover : v.limiter.isOver ids now with
    | true =>
      rw [checkAndIncrement_of_isOver hover] at he
      exact h id e he
    | false =>
      rw [get?_checkAndIncrement hover] at he
      obtain ⟨e₀, he₀, rfl⟩ := Option.map_eq_some_iff.mp he
      exact CacheEntry.sorted_recordTimes (h id e₀ he₀)
  | prepare ids =>
    rcases hprep : v.limiter.prepare v.store ids with ⟨answer, l', s'⟩
    obtain ⟨-, -, es, hes, hcache⟩ := prepare_spec hprep
    simp only [serve, hprep, hcache]
    exact ascending_foldl_addEntry h hes
  | reconcile constraints =>
    change Ascending (v.limiter.setConstraints v.store constraints).2.1.cache
    rcases setConstraints_cache v.limiter v.store constraints with hcache | ⟨d, hcache⟩
    · rw [hcache]
      exact h
    · rw [hcache]
      intro id e he
      rcases times_of_applyToCache he with hnil | ⟨e₀, he₀, hsame⟩
      · rw [hnil]
        exact List.Pairwise.nil
      · rw [← hsame]
        exact h id e₀ he₀
  | drain =>
    simp only [serve, drain]
    cases v.limiter.pending with
    | nil => exact h
    | cons w rest => exact h
  | flush => exact h

/-- Every cached history is in ascending order at every point of every run. -/
theorem ascending_run (s : Store) (rs : List Request) :
    Ascending ((start s).run rs).limiter.cache := by
  refine run_induction (P := fun v => Ascending v.limiter.cache) ascending_serve ?_ rs
  intro id e he
  cases he

end Service
end Limiter
end Automation
