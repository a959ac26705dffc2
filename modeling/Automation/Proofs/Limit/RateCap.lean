import Automation.Proofs.Limit.Ascending
import Automation.Proofs.Limit.Definitions

/-!
# No window holds more than the count

However requests are mixed, the increments that a constraint accepts stay within its count in every
window of the length of its range, and not only in the windows that end at a check.

## Why looking at one element is enough

The history is pruned and shared, it may hold occurrences from before that lie ahead of the clock,
and a list that names a constraint twice records it twice.  So the history is no list of accepted
increments.  What carries the argument is a split of it into an old part, which is what was there at
the beginning, and a recent part (`Capped`).  Three facts survive every increment:

* everything recent was accepted;
* what was accepted since a time `u` is still there, as long as it is in range;
* from any such increment on, accepted increments and old occurrences together are at most the
  count.

The third is what the look-up preserves.  If the looked-up occurrence lies before such an increment,
fewer than the count lie behind it.  If it does not, it is neither ahead of the clock nor recent, so
it is old and out of range, and recording drops it: one old occurrence makes room for the new one.

## Leap seconds

Inside a leap second the clock shows times that are as late as the next second on the line and
longer ago by the clock's own measure, and a window can hold more than the count.  So the windows
here are those in which nothing was accepted inside a leap second; what the clock showed elsewhere
or before does not matter.
-/

namespace Automation
namespace Limiter

/-! ## What was accepted -/

/-- The time of an increment that was accepted and whose list names a constraint. -/
def acceptedTime? (id : String) : Request → Reply → Option Instant
  | .increment ids now, .decision true => if id ∈ ids then some now else none
  | _, _ => none

namespace Service

/-- The times of the accepted increments of a run whose lists name a constraint. -/
def accepted (id : String) : Service → List Request → List Instant
  | _, [] => []
  | v, r :: rs => (acceptedTime? id r (v.serve r).1).toList ++ accepted id (v.serve r).2 rs

/-- An increment is accepted at the time the clock showed to it. -/
theorem reading?_of_acceptedTime? {id : String} {r : Request} {reply : Reply} {t : Instant}
    (h : acceptedTime? id r reply = some t) : r.reading? = some t := by
  unfold acceptedTime? at h
  split at h
  · split at h
    · exact h
    · cases h
  · cases h

theorem mem_readings_of_mem_accepted {id : String} {v : Service} {rs : List Request} {t : Instant}
    (h : t ∈ v.accepted id rs) : t ∈ readings rs := by
  induction rs generalizing v with
  | nil => cases h
  | cons r rs ih =>
    rw [accepted, List.mem_append, Option.mem_toList] at h
    exact mem_readings_cons.mpr (h.imp reading?_of_acceptedTime? ih)

end Service

/-! ## The split of a history -/

/-- What is known of a history when `seen` are the accepted increments so far, all of them before
the end of a window that begins at `u`. -/
structure Capped (u : Instant) (e : CacheEntry) (seen : List Instant) : Prop where
  sorted : e.times.Pairwise (· ≤ ·)
  ascending : seen.Pairwise (· ≤ ·)
  split : ∃ old recent, e.times.Perm (old ++ recent) ∧ (∀ t ∈ recent, t ∈ seen) ∧
    (seen.filter fun t => u ≤ t).Subperm recent ∧
    ∀ t ∈ seen, u ≤ t → (seen.filter fun t => u ≤ t).countP (fun x => t ≤ x) +
      old.countP (fun x => t ≤ x) ≤ e.constraint.count

namespace Capped

variable {u now : Instant} {e : CacheEntry} {seen : List Instant}

/-- At the beginning everything is old. -/
theorem start (h : e.times.Pairwise (· ≤ ·)) : Capped u e [] where
  sorted := h
  ascending := List.Pairwise.nil
  split := ⟨e.times, [], by rw [List.append_nil], fun t ht => absurd ht List.not_mem_nil,
    List.Subperm.refl _, fun t ht => absurd ht List.not_mem_nil⟩

/-- The first accepted increment since `u` counts all of them. -/
theorem length_le (h : Capped u e seen) :
    (seen.filter fun t => u ≤ t).length ≤ e.constraint.count := by
  obtain ⟨-, hascending, old, recent, -, -, -, hfew⟩ := h
  have hsorted := hascending.filter fun t => decide (u ≤ t)
  cases hinside : seen.filter fun t => decide (u ≤ t) with
  | nil => exact Nat.zero_le _
  | cons first rest =>
    have hfirst : first ∈ seen ∧ u ≤ first := by
      have hmem : first ∈ seen.filter fun t => decide (u ≤ t) := hinside ▸ List.mem_cons_self
      exact ⟨(List.mem_filter.mp hmem).1, of_decide_eq_true (List.mem_filter.mp hmem).2⟩
    have hcount := hfew first hfirst.1 hfirst.2
    rw [hinside] at hcount hsorted
    have hall : (first :: rest).countP (fun x => first ≤ x) = (first :: rest).length := by
      rw [List.countP_eq_length]
      intro x hx
      rcases List.mem_cons.mp hx with rfl | hx
      · exact decide_eq_true le_rfl
      · exact decide_eq_true ((List.pairwise_cons.mp hsorted).1 x hx)
    omega

/-- A list loses strictly when something counted is dropped. -/
theorem countP_filter_lt {l : List Instant} {p q : Instant → Bool} {y : Instant} (hy : y ∈ l)
    (hp : p y = false) (hq : q y = true) : (l.filter p).countP q < l.countP q := by
  rw [List.countP_eq_countP_filter_add l q p]
  have hpos : 0 < (l.filter fun x => !p x).countP q :=
    List.countP_pos_iff.mpr ⟨y, List.mem_filter.mpr ⟨hy, by rw [hp]; rfl⟩, hq⟩
  omega

/-- What the look-up leaves room for: from an increment of the window on, or from now on, what was
accepted and the old occurrences still in range are fewer than the count. -/
theorem countP_lt {old recent : List Instant} (hsorted : e.times.Pairwise (· ≤ ·))
    (hsplit : e.times.Perm (old ++ recent)) (hrecent : ∀ t ∈ recent, t ∈ seen)
    (hkept : (seen.filter fun t => u ≤ t).Subperm recent)
    (hfew : ∀ t ∈ seen, u ≤ t → (seen.filter fun t => u ≤ t).countP (fun x => t ≤ x) +
      old.countP (fun x => t ≤ x) ≤ e.constraint.count)
    (hover : e.isOver now = false) (hnow : now.IsPlain) (hu : u ≤ now)
    (hwithin : ∀ t ∈ seen, u ≤ t → e.isWithinRange now t = true) {t : Instant}
    (ht : t ∈ seen ∨ t = now) (hut : u ≤ t) :
    (seen.filter fun t => u ≤ t).countP (fun x => t ≤ x) +
      (old.filter fun x => e.isWithinRange now x).countP (fun x => t ≤ x) < e.constraint.count := by
  have hless : (old.filter fun x => e.isWithinRange now x).countP (fun x => t ≤ x) ≤
      old.countP (fun x => t ≤ x) := List.Sublist.countP_le List.filter_sublist
  have hinside : (seen.filter fun t => u ≤ t).countP (fun x => t ≤ x) ≤
      recent.countP (fun x => t ≤ x) := hkept.countP_le _
  have hwhole : e.times.countP (fun x => t ≤ x) =
      old.countP (fun x => t ≤ x) + recent.countP (fun x => t ≤ x) := by
    rw [hsplit.countP_eq, List.countP_append]
  obtain ⟨hcount, hshort | ⟨y, hy, hout⟩⟩ := CacheEntry.exists_of_isOver_eq_false hover
  · have hlen : e.times.countP (fun x => t ≤ x) ≤ e.times.length := List.countP_le_length
    omega
  · rcases Nat.lt_or_ge e.times.length e.constraint.count with hshort | hlong
    · have hlen : e.times.countP (fun x => t ≤ x) ≤ e.times.length := List.countP_le_length
      omega
    rcases lt_or_ge y t with hyt | hty
    · have hbound := CacheEntry.countP_le_of_getElem?_lt hsorted hcount hlong hy hyt
      omega
    · -- the looked-up occurrence is out of range, so it is not ahead of the clock and not recent
      have hpast : y < now := by
        by_contra hahead
        have hzero := Instant.elapsed_eq_zero_of_le hnow (not_lt.mp hahead)
        rw [CacheEntry.isWithinRange, hzero] at hout
        exact absurd hout (by simp)
      have htseen : t ∈ seen := by
        rcases ht with ht | rfl
        · exact ht
        · exact absurd (hty.trans_lt hpast) (lt_irrefl _)
      have hyold : y ∈ old := by
        have hmem : y ∈ old ++ recent := hsplit.mem_iff.mp (List.mem_of_getElem? hy)
        rcases List.mem_append.mp hmem with hyold | hyrecent
        · exact hyold
        · rw [hwithin y (hrecent y hyrecent) (hut.trans hty)] at hout
          cases hout
      have hdropped := countP_filter_lt (p := fun x => e.isWithinRange now x)
        (q := fun x => decide (t ≤ x)) hyold hout (decide_eq_true hty)
      have hsum := hfew t htseen hut
      omega

/-- An accepted increment keeps the split. -/
theorem accept (h : Capped u e seen) (hover : e.isOver now = false) (hle : ∀ t ∈ seen, t ≤ now)
    (hin : u ≤ now → now.IsPlain ∧ ∀ t ∈ seen, u ≤ t → e.isWithinRange now t = true) (n : Nat) :
    Capped u (e.recordTimes now (n + 1)) (seen ++ [now]) := by
  obtain ⟨hsorted, hascending, old, recent, hsplit, hrecent, hkept, hfew⟩ := h
  refine ⟨CacheEntry.sorted_recordTimes hsorted, ?_, old.filter (fun x => e.isWithinRange now x),
    recent.filter (fun x => e.isWithinRange now x) ++ List.replicate (n + 1) now, ?_, ?_, ?_, ?_⟩
  · rw [List.pairwise_append]
    refine ⟨hascending, List.pairwise_singleton _ _, ?_⟩
    intro t ht t' ht'
    rw [List.mem_singleton.mp ht']
    exact hle t ht
  · refine (CacheEntry.recordTimes_perm n).trans (List.perm_append_comm.trans ?_)
    rw [← List.append_assoc, ← List.filter_append]
    exact (hsplit.filter _).append_right _
  · intro t ht
    rcases List.mem_append.mp ht with ht | ht
    · exact List.mem_append_left _ (hrecent t (List.mem_filter.mp ht).1)
    · rw [List.eq_of_mem_replicate ht]
      exact List.mem_append_right _ (List.mem_singleton_self _)
  · rw [List.filter_append]
    refine List.Subperm.append ?_ ?_
    · rcases le_or_gt u now with hu | hu
      · -- nothing that was accepted since `u` is dropped
        have hall : (seen.filter fun t => u ≤ t) =
            (seen.filter fun t => u ≤ t).filter fun x => e.isWithinRange now x := by
          rw [eq_comm, List.filter_eq_self]
          intro t ht
          obtain ⟨hmem, hut⟩ := List.mem_filter.mp ht
          exact (hin hu).2 t hmem (of_decide_eq_true hut)
        rw [hall]
        exact hkept.filter _
      · have hnone : (seen.filter fun t => u ≤ t) = [] := by
          rw [List.filter_eq_nil_iff]
          intro t ht hut
          exact absurd ((of_decide_eq_true hut).trans (hle t ht)) (not_le.mpr hu)
        rw [hnone]
        exact List.nil_subperm
    · refine (List.filter_sublist.subperm).trans ?_
      rw [List.replicate_succ]
      exact (List.Sublist.cons_cons _ (List.nil_sublist _)).subperm
  · intro t ht hut
    have hmem : t ∈ seen ∨ t = now := by simpa using ht
    have hu : u ≤ now := by
      rcases hmem with hmem | rfl
      · exact hut.trans (hle t hmem)
      · exact hut
    obtain ⟨hnow, hwithin⟩ := hin hu
    have hroom := countP_lt hsorted hsplit hrecent hkept hfew hover hnow hu hwithin hmem hut
    have hone : ([now].filter fun t => u ≤ t).countP (fun x => t ≤ x) ≤ 1 :=
      List.countP_le_length.trans (List.length_filter_le _ _)
    rw [CacheEntry.recordTimes_constraint, List.filter_append, List.countP_append]
    omega

end Capped

/-! ## Every window -/

namespace Service

variable {v : Service} {id : String} {e : CacheEntry} {r : Request}

/-- Where an increment is accepted, the constraint was not over and has recorded it. -/
theorem get?_serve_of_accepted (he : v.limiter.cache.get? id = some e) {now : Instant}
    (h : acceptedTime? id r (v.serve r).1 = some now) :
    e.isOver now = false ∧
      ∃ n, (v.serve r).2.limiter.cache.get? id = some (e.recordTimes now (n + 1)) := by
  unfold acceptedTime? at h
  split at h
  · next ids time hreply =>
    split at h
    · next hid =>
      cases h
      change Reply.decision (v.limiter.checkAndIncrement ids now).1 = .decision true at hreply
      rw [Reply.decision.injEq, checkAndIncrement_fst, Bool.not_eq_true'] at hreply
      obtain ⟨n, hn⟩ := Nat.exists_eq_succ_of_ne_zero (List.count_pos_iff.mpr hid).ne'
      refine ⟨isOver_eq_false_of_mem hreply hid he, n, ?_⟩
      show (v.limiter.checkAndIncrement ids now).2.cache.get? id = _
      rw [get?_checkAndIncrement hreply, he, hn]
      rfl
    · cases h
  · cases h

/-- A request that is no accepted increment of a constraint and no list leaves it cached as it
was. -/
theorem get?_serve_of_no_list (he : v.limiter.cache.get? id = some e)
    (hr : ∀ incoming, r ≠ .reconcile incoming) (h : acceptedTime? id r (v.serve r).1 = none) :
    (v.serve r).2.limiter.cache.get? id = some e := by
  cases r with
  | check ids now => exact he
  | increment ids now =>
    show (v.limiter.checkAndIncrement ids now).2.cache.get? id = some e
    change acceptedTime? id _ (.decision (v.limiter.checkAndIncrement ids now).1) = none at h
    rw [checkAndIncrement_fst] at h
    cases hover : v.limiter.isOver ids now with
    | true => rw [checkAndIncrement_of_isOver hover, he]
    | false =>
      have hnot : id ∉ ids := by
        intro hid
        simp [hover, acceptedTime?, hid] at h
      rw [get?_checkAndIncrement hover, he, List.count_eq_zero_of_not_mem hnot]
      rfl
  | prepare ids =>
    rcases hprep : v.limiter.prepare v.store ids with ⟨answer, l', s'⟩
    obtain ⟨-, -, es, -, hcache⟩ := prepare_spec hprep
    simp only [serve, hprep, hcache]
    rw [get?_foldl_addEntry, he, Option.some_or]
  | reconcile incoming => exact absurd rfl (hr incoming)
  | drain =>
    simp only [serve, drain]
    cases v.limiter.pending with
    | nil => exact he
    | cons w rest => exact he
  | flush => exact he

/-- So does a list that does not change it. -/
theorem get?_serve_of_not_accepted (hv : v.Consistent) (he : v.limiter.cache.get? id = some e)
    (hc : e.constraint.IsStorable)
    (hr : ∀ incoming, r = .reconcile incoming →
      (incoming.map (·.id)).Nodup ∧ e.constraint ∈ incoming)
    (h : acceptedTime? id r (v.serve r).1 = none) :
    (v.serve r).2.limiter.cache.get? id = some e := by
  by_cases hlist : ∃ incoming, r = .reconcile incoming
  · obtain ⟨incoming, rfl⟩ := hlist
    obtain ⟨hnodup, hmem⟩ := hr incoming rfl
    exact get?_serve_reconcile hv hnodup he hc hmem
  · exact get?_serve_of_no_list he (fun incoming heq => hlist ⟨incoming, heq⟩) h

/-- Once the clock is past a window nothing is accepted in it. -/
theorem filter_accepted_eq_nil {u w now : Instant} {rs : List Request} (hout : w < now)
    (hlater : ∀ t ∈ readings rs, now ≤ t) :
    ((now :: v.accepted id rs).filter fun t => u ≤ t ∧ t ≤ w) = [] := by
  rw [List.filter_eq_nil_iff]
  intro t ht hinside
  have hbound := (of_decide_eq_true hinside).2
  rcases List.mem_cons.mp ht with rfl | ht
  · exact absurd hout (not_lt.mpr hbound)
  · have hafter := hlater t (mem_readings_of_mem_accepted ht)
    exact absurd (hout.trans_le hafter) (not_lt.mpr hbound)

/-- Along a run that leaves a constraint cached where it is not incremented, what was accepted before
it and is accepted in it fills a window up to the count at most.  The induction is on the run; as
soon as the clock is past the window nothing is added. -/
theorem length_filter_accepted_le_of_kept {P : Service → Prop}
    (hstep : ∀ v r, P v → P (v.serve r).2) {u w : Instant} (hu : u.IsPlain) (hw : w.IsPlain)
    {seen : List Instant} {rs : List Request} (hv : P v)
    (he : v.limiter.cache.get? id = some e) (hlen : w.since u ≤ e.constraint.range.nanos)
    (hkept : ∀ r ∈ rs, ∀ (v : Service) (e' : CacheEntry), P v →
      v.limiter.cache.get? id = some e' → e'.constraint = e.constraint →
      acceptedTime? id r (v.serve r).1 = none → (v.serve r).2.limiter.cache.get? id = some e')
    (hclock : (readings rs).Pairwise (· ≤ ·)) (hcapped : Capped u e seen)
    (hseen : ∀ t ∈ seen, t ≤ w ∧ (u ≤ t → t.IsPlain) ∧ ∀ t' ∈ readings rs, t ≤ t')
    (hplain : ∀ t ∈ v.accepted id rs, u ≤ t → t ≤ w → t.IsPlain) :
    ((seen ++ v.accepted id rs).filter fun t => u ≤ t ∧ t ≤ w).length ≤ e.constraint.count := by
  have hpast : (seen.filter fun t => u ≤ t ∧ t ≤ w) = seen.filter fun t => u ≤ t := by
    refine List.filter_congr fun t ht => ?_
    rw [decide_eq_decide]
    exact and_iff_left (hseen t ht).1
  induction rs generalizing v e seen with
  | nil =>
    rw [accepted, List.append_nil, hpast]
    exact hcapped.length_le
  | cons r rs ih =>
    have hnext := hstep v r hv
    obtain ⟨hfirst, hothers⟩ := List.forall_mem_cons.mp hkept
    obtain ⟨hrest, hlater⟩ := pairwise_readings_of_cons hclock
    have hsub : ∀ t ∈ readings rs, t ∈ readings (r :: rs) := fun t ht =>
      mem_readings_cons.mpr (Or.inr ht)
    cases htime : acceptedTime? id r (v.serve r).1 with
    | none =>
      have he' := hfirst v e hv he rfl htime
      rw [accepted, htime, Option.toList_none, List.nil_append] at hplain ⊢
      exact ih hnext he' hlen hothers hrest hcapped (fun t ht => ⟨(hseen t ht).1, (hseen t ht).2.1,
        fun t' ht' => (hseen t ht).2.2 t' (hsub t' ht')⟩) hplain hpast
    | some now =>
      have hread := reading?_of_acceptedTime? htime
      have hnow : now ∈ readings (r :: rs) := mem_readings_cons.mpr (Or.inl hread)
      obtain ⟨hover, n, he'⟩ := get?_serve_of_accepted he htime
      rw [accepted, htime, Option.toList_some] at hplain ⊢
      rcases le_or_gt now w with hin | hout
      · have hplainNow : u ≤ now → now.IsPlain := fun hunow =>
          hplain now List.mem_cons_self hunow hin
        have hcapped' := hcapped.accept hover (fun t ht => (hseen t ht).2.2 now hnow)
          (fun hunow => ⟨hplainNow hunow, fun t ht hut => CacheEntry.isWithinRange_iff.mpr
            (Instant.elapsed_le_of_between hu hw ((hseen t ht).2.1 hut) (hplainNow hunow) hlen hut
              hin)⟩) n
        have hseen' : ∀ t ∈ seen ++ [now],
            t ≤ w ∧ (u ≤ t → t.IsPlain) ∧ ∀ t' ∈ readings rs, t ≤ t' := by
          intro t ht
          rcases List.mem_append.mp ht with ht | ht
          · exact ⟨(hseen t ht).1, (hseen t ht).2.1,
              fun t' ht' => (hseen t ht).2.2 t' (hsub t' ht')⟩
          · rw [List.mem_singleton.mp ht]
            exact ⟨hin, hplainNow, hlater now hread⟩
        have hcount := ih (e := e.recordTimes now (n + 1)) hnext he'
          (by rw [CacheEntry.recordTimes_constraint]; exact hlen)
          (by rw [CacheEntry.recordTimes_constraint]; exact hothers)
          hrest hcapped' hseen' (fun t ht => hplain t (List.mem_cons_of_mem _ ht))
          (List.filter_congr fun t ht => by
            rw [decide_eq_decide]
            exact and_iff_left (hseen' t ht).1)
        rw [CacheEntry.recordTimes_constraint, List.append_assoc] at hcount
        exact hcount
      · -- the clock is past the window and stays past it
        rw [List.singleton_append, List.filter_append, filter_accepted_eq_nil hout (hlater now hread),
          List.append_nil, hpast]
        exact hcapped.length_le

/-- Lists that do not change the constraint keep the bound. -/
theorem length_filter_accepted_le {u w : Instant} (hu : u.IsPlain) (hw : w.IsPlain)
    {seen : List Instant} {rs : List Request} (hv : v.Consistent)
    (he : v.limiter.cache.get? id = some e) (hc : e.constraint.IsStorable)
    (hlen : w.since u ≤ e.constraint.range.nanos)
    (hrs : ∀ incoming, .reconcile incoming ∈ rs →
      (incoming.map (·.id)).Nodup ∧ e.constraint ∈ incoming)
    (hclock : (readings rs).Pairwise (· ≤ ·)) (hcapped : Capped u e seen)
    (hseen : ∀ t ∈ seen, t ≤ w ∧ (u ≤ t → t.IsPlain) ∧ ∀ t' ∈ readings rs, t ≤ t')
    (hplain : ∀ t ∈ v.accepted id rs, u ≤ t → t ≤ w → t.IsPlain) :
    ((seen ++ v.accepted id rs).filter fun t => u ≤ t ∧ t ≤ w).length ≤ e.constraint.count := by
  refine length_filter_accepted_le_of_kept consistent_serve hu hw hv he hlen
    (fun r hr v' e' hv' he' hsame => ?_) hclock hcapped hseen hplain
  rw [← hsame] at hc hrs
  exact get?_serve_of_not_accepted hv' he' hc fun incoming heq => hrs incoming (heq ▸ hr)

/-- However requests are mixed, what a cached constraint accepts in a window as long as its range is
at most its count. -/
theorem accepted_le_count {s : Store} (hs : s.LosesOnlyOccurrences) (before after : List Request)
    {c : Constraint} {e : CacheEntry} (he : ((start s).run before).limiter.cache.get? c.id = some e)
    (hec : e.constraint = c) (hc : c.IsStorable)
    (hafter : ∀ incoming, .reconcile incoming ∈ after →
      (incoming.map (·.id)).Nodup ∧ c ∈ incoming)
    (hclock : (readings after).Pairwise (· ≤ ·)) {u w : Instant} (hu : u.IsPlain) (hw : w.IsPlain)
    (hlen : w.since u ≤ c.range.nanos)
    (hplain : ∀ t ∈ ((start s).run before).accepted c.id after, u ≤ t → t ≤ w → t.IsPlain) :
    ((((start s).run before).accepted c.id after).filter fun t => u ≤ t ∧ t ≤ w).length ≤
      c.count := by
  subst hec
  have hsorted := ascending_run s before _ _ he
  have hcapped : Capped u e [] := .start hsorted
  exact length_filter_accepted_le hu hw (consistent_run (consistent_start hs) before) he hc hlen
    hafter hclock hcapped (fun t ht => absurd ht List.not_mem_nil) hplain

/-! ## A run, and what leap seconds and shorter units do -/

/-- A store that loses every occurrence. -/
def forgetful : Store :=
  ⟨.empty, 0, fun _ op => if op = .addOccurrences then some .readOnly else none, false⟩

theorem losesOnlyOccurrences_forgetful : forgetful.LosesOnlyOccurrences :=
  fun _ hop => ⟨rfl, fun _ => if_neg hop⟩

/-- Once in half a second. -/
def halfSecond : Constraint := ⟨"c", .ofMillis 500, 1⟩

/-- Defining a constraint and asking for a checker, then another use of it. -/
def opening : List Request :=
  [.reconcile [halfSecond], .prepare ["c"], .increment ["c", "c"] (.ofMillis 900)]

/-- A second increment comes too early, a third one in time; in between the list comes again and the
writer works. -/
def traffic : List Request :=
  [.increment ["other", "c"] (.ofMillis 2000), .drain,
    .reconcile [⟨"other", .ofMillis 1, 7⟩, halfSecond], .increment ["c"] (.ofMillis 2500),
    .check ["c"] (.ofMillis 2500), .increment ["c"] (.ofMillis 2501)]

/-- The cap at that run, between seconds 2 and 2.5. -/
theorem accepted_traffic_le :
    ((((start forgetful).run opening).accepted "c" traffic).filter fun t =>
      .ofMillis 2000 ≤ t ∧ t ≤ .ofMillis 2500).length ≤ 1 ∧
      ((start forgetful).run opening).accepted "c" traffic = [.ofMillis 2000, .ofMillis 2501] := by
  refine ⟨?_, by decide⟩
  exact accepted_le_count losesOnlyOccurrences_forgetful opening traffic
    (c := halfSecond) (e := ⟨halfSecond, [.ofMillis 900, .ofMillis 900]⟩) (by decide) rfl
    ⟨500, by decide, rfl⟩ (by
      intro incoming hmem
      have hlist : incoming = [⟨"other", .ofMillis 1, 7⟩, halfSecond] := by
        simpa [traffic] using hmem
      subst hlist
      decide) (by decide) (by decide) (by decide) (by decide) (by decide)

/-- A service that was given one constraint before and after it was asked for a checker. -/
def serving (c : Constraint) : Service :=
  (start (.ofTables .empty)).run [.reconcile [c], .prepare [c.id], .reconcile [c]]

/-- Once in half a millisecond. -/
def halfMilli : Constraint := ⟨"c", ⟨500000⟩, 1⟩

/-- The first instant of a leap second, one minute into 1970. -/
def leapSecond : Instant :=
  { Instant.epoch with
    second := 59, nano := 1000000000, second_lt := by omega, nano_lt := by omega, leap := fun _ => rfl }

/-- Half a millisecond into 1970. -/
def halfMilliIn : Instant :=
  { Instant.epoch with
    nano := 500000, nano_lt := by omega, leap := fun h => absurd h (by omega) }

/-- The cap needs both of its conditions.  From inside a leap second to the next second the clock
measures a whole second where there is no room for one, so half a second is over at once.  A range
below a millisecond is not stored as it is, so a list that names it as it was clears its history. -/
theorem leap_second_exceeds_count :
    ((serving halfSecond).limiter.cache.get? "c" = some ⟨halfSecond, []⟩ ∧
      leapSecond ≤ .ofMillis 60000 ∧
      (Instant.ofMillis 60300).since (.ofMillis 59800) = halfSecond.range.nanos ∧
      halfSecond.count < (((serving halfSecond).accepted "c"
        [.increment ["c"] leapSecond, .increment ["c"] (.ofMillis 60000)]).filter fun t =>
          .ofMillis 59800 ≤ t ∧ t ≤ .ofMillis 60300).length) ∧
    ((serving halfMilli).limiter.cache.get? "c" = some ⟨halfMilli, []⟩ ∧
      halfMilliIn.since (.ofMillis 0) = halfMilli.range.nanos ∧
      halfMilli.count < (((serving halfMilli).accepted "c"
        [.increment ["c"] (.ofMillis 0), .reconcile [halfMilli], .increment ["c"] (.ofMillis 0)]).filter
          fun t => .ofMillis 0 ≤ t ∧ t ≤ halfMilliIn).length) := by
  decide

end Service

end Limiter
end Automation
