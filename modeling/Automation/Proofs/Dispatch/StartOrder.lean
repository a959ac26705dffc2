import Automation.Proofs.Dispatch.Bookkeeping

/-!
# The order of starts

The start gate is open for one number only, the smallest that waits.  A call that wakes from its
sleep comes back with the number it always had, so it goes in front of calls that were submitted
after it and have not started yet.  What it cannot do is change the order in which calls start for
the first time: a number that has never started is in the line from its submission on, and while it
is there no larger one gets through.

## Who is not in the line

An earlier call that does not wait is asleep, at work, or gone.  The first two have started.  A call
that is gone has started unless it was given up, because only what has started can return.  That is
a statement about the events so far, and `Enrolled` ties them to the calls; `start_order` reads the
order off.
-/

namespace Automation
namespace Queue

/-! ## The past -/

/-- A call was abandoned, or ended because the queue was cancelled. -/
def GivenUp (es : List Event) (seq : Nat) : Prop := .abandon seq ∈ es ∨ .endCancelled seq ∈ es

/-- The calls that started, once for every attempt, in the order in which they did. -/
def starts (es : List Event) : List Nat :=
  es.filterMap fun
    | .start seq => some seq
    | _ => none

/-- The calls that started, in the order in which they did for the first time. -/
def firstStarts (es : List Event) : List Nat := (starts es).eraseDups

theorem GivenUp.append {es : List Event} {seq : Nat} (h : GivenUp es seq) (e : Event) :
    GivenUp (es ++ [e]) seq :=
  h.imp (List.mem_append_left _) (List.mem_append_left _)

theorem mem_starts {es : List Event} {seq : Nat} : seq ∈ starts es ↔ .start seq ∈ es := by
  rw [starts, List.mem_filterMap]
  constructor
  · rintro ⟨e, he, hseq⟩
    split at hseq
    · cases hseq
      exact he
    · cases hseq
  · exact fun h => ⟨_, h, rfl⟩

/-- An event that starts no call leaves the order of first starts as it is. -/
theorem firstStarts_concat_of_ne {es : List Event} {e : Event} (h : ∀ seq, e ≠ .start seq) :
    firstStarts (es ++ [e]) = firstStarts es := by
  have hnone : starts [e] = [] := by
    cases e with
    | start seq => exact absurd rfl (h seq)
    | _ => rfl
  rw [firstStarts, starts, List.filterMap_append, ← starts, ← starts, hnone, List.append_nil,
    firstStarts]

/-- A call that starts is the last in the order of first starts, unless it is there already. -/
theorem firstStarts_concat_start (es : List Event) (seq : Nat) :
    firstStarts (es ++ [.start seq]) =
      firstStarts es ++ if .start seq ∈ es then [] else [seq] := by
  have hone : starts [.start seq] = [seq] := rfl
  rw [firstStarts, starts, List.filterMap_append, ← starts, ← starts, hone, List.eraseDups_append,
    firstStarts]
  refine congrArg ((starts es).eraseDups ++ ·) ?_
  split
  · next h => simp [List.removeAll, mem_starts.mpr h]
  · next h => simp [List.removeAll, mem_starts.not.mpr h, List.eraseDups_cons]

/-! ## The queue and its past -/

/-- What the events so far say about the starts of a queue's calls. -/
structure Enrolled (es : List Event) (q : Queue) : Prop where
  /-- What was submitted has started, was given up, or is live. -/
  accounted : ∀ n < q.ledger.nextSeq, .start n ∈ es ∨ GivenUp es n ∨ ∃ c ∈ q.calls, c.seq = n
  /-- A live call has counted its starts. -/
  counted : ∀ c ∈ q.calls, .start c.seq ∈ es ↔ 0 < c.starts
  /-- What has started was submitted, and no call submitted before it still has to start. -/
  ahead : ∀ n, .start n ∈ es → n < q.ledger.nextSeq ∧ ∀ c ∈ q.calls, c.seq < n → .start c.seq ∈ es

namespace Enrolled

variable {es : List Event} {q q' : Queue} {e : Event} {c c' : Call} {l : Ledger}

/-- An event other than a start adds nothing to what has started. -/
theorem mem_concat_of_ne (h : ∀ seq, e ≠ .start seq) {n : Nat} :
    .start n ∈ es ++ [e] ↔ .start n ∈ es := by
  rw [List.mem_append, List.mem_singleton]
  exact or_iff_left fun heq => h n heq.symm

theorem start (config : QueueConfig) : Enrolled [] (Queue.empty config) where
  accounted n hn := absurd hn (Nat.not_lt_zero n)
  counted _ hc := absurd hc List.not_mem_nil
  ahead _ h := absurd h List.not_mem_nil

theorem submit (h : Enrolled es q) : Enrolled (es ++ [.submit]) q.submit.2 := by
  have hpast {n : Nat} : .start n ∈ es ++ [Event.submit] ↔ .start n ∈ es :=
    mem_concat_of_ne fun seq heq => by cases heq
  have hcalls : ∀ c ∈ q.submit.2.calls,
      c ∈ q.calls ∨ c = ⟨q.ledger.nextSeq, .waiting, q.config.initialBackoff, 0⟩ := by
    intro c hc
    rw [Queue.submit, List.mem_append, List.mem_singleton] at hc
    exact hc
  refine ⟨?_, ?_, ?_⟩
  · intro n hn
    rcases Nat.lt_succ_iff_lt_or_eq.mp hn with hn | rfl
    · rcases h.accounted n hn with hstart | hgiven | ⟨c, hc, rfl⟩
      · exact Or.inl (hpast.mpr hstart)
      · exact Or.inr (Or.inl (hgiven.append _))
      · exact Or.inr (Or.inr ⟨c, List.mem_append_left _ hc, rfl⟩)
    · exact Or.inr (Or.inr ⟨_, List.mem_append_right _ (List.mem_singleton_self _), rfl⟩)
  · intro c hc
    rw [hpast]
    rcases hcalls c hc with hc | rfl
    · exact h.counted c hc
    · -- the number is new, so nothing has started under it
      exact ⟨fun hstart => absurd (h.ahead _ hstart).1 (lt_irrefl _),
        fun hpos => absurd hpos (lt_irrefl 0)⟩
  · intro n hn
    obtain ⟨hlt, hbefore⟩ := h.ahead n (hpast.mp hn)
    refine ⟨hlt.trans (Nat.lt_succ_self _), fun c hc hcn => hpast.mpr ?_⟩
    rcases hcalls c hc with hc | rfl
    · exact hbefore c hc hcn
    · exact absurd hcn (not_lt.mpr hlt.le)

theorem cancel (h : Enrolled es q) : Enrolled (es ++ [.cancel]) q.cancel := by
  have hpast {n : Nat} : .start n ∈ es ++ [Event.cancel] ↔ .start n ∈ es :=
    mem_concat_of_ne fun seq heq => by cases heq
  refine ⟨fun n hn => ?_, fun c hc => hpast.trans (h.counted c hc), fun n hn => ?_⟩
  · exact (h.accounted n hn).imp hpast.mpr (Or.imp_left fun hgiven => hgiven.append _)
  · obtain ⟨hlt, hbefore⟩ := h.ahead n (hpast.mp hn)
    exact ⟨hlt, fun c hc hcn => hpast.mpr (hbefore c hc hcn)⟩

/-- What ends a call returns a call that has started, or gives it up. -/
theorem of_ends (h : Enrolled es q) (hq : q.Sound) (hc : c ∈ q.calls) (hends : q.Ends e c) :
    .start c.seq ∈ es ∨ GivenUp (es ++ [e]) c.seq := by
  have hlast : e ∈ es ++ [e] := List.mem_append_right _ (List.mem_singleton_self e)
  cases hends with
  | deliver hphase => exact Or.inl ((h.counted c hc).mpr (hq.started c hc (by rw [hphase]; decide)))
  | unordered hphase =>
    exact Or.inl ((h.counted c hc).mpr (hq.started c hc (by rw [hphase]; decide)))
  | abandon => exact Or.inr (Or.inl hlast)
  | cancelled => exact Or.inr (Or.inr hlast)

theorem discard (h : Enrolled es q) (hq : q.Sound) (hc : c ∈ q.calls) (hends : q.Ends e c) :
    Enrolled (es ++ [e]) (q.discard c) := by
  have hpast {n : Nat} : .start n ∈ es ++ [e] ↔ .start n ∈ es :=
    mem_concat_of_ne fun seq heq => by
      subst heq
      cases hends
  refine ⟨?_, fun d hd => hpast.trans (h.counted d (mem_withoutCall.mp hd).1), ?_⟩
  · intro n hn
    rcases h.accounted n hn with hstart | hgiven | ⟨d, hd, rfl⟩
    · exact Or.inl (hpast.mpr hstart)
    · exact Or.inr (Or.inl (hgiven.append _))
    · by_cases hseq : d.seq = c.seq
      · rw [hseq]
        exact (h.of_ends hq hc hends).imp hpast.mpr Or.inl
      · exact Or.inr (Or.inr ⟨d, mem_withoutCall.mpr ⟨hd, hseq⟩, rfl⟩)
  · intro n hn
    obtain ⟨hlt, hbefore⟩ := h.ahead n (hpast.mp hn)
    exact ⟨hlt, fun d hd hdn => hpast.mpr (hbefore d (mem_withoutCall.mp hd).1 hdn)⟩

/-- When the start gate is open for a number, every earlier live call has started. -/
theorem of_canStart (h : Enrolled es q) (hq : q.Sound) {seq : Nat}
    (hgate : q.ledger.canStart q.config seq = true) {d : Call} (hd : d ∈ q.calls)
    (hlt : d.seq < seq) : .start d.seq ∈ es := by
  rw [h.counted d hd]
  refine hq.started d hd fun hwaits => ?_
  exact absurd hlt (not_lt.mpr (hq.le_of_canStart hgate d hd hwaits))

theorem move (h : Enrolled es q) (hq : q.Sound) (hc : c ∈ q.calls) (hmoves : q.Moves e c c' l) :
    Enrolled (es ++ [e]) { q with ledger := l, calls := q.withCall c' } := by
  have hnext : l.nextSeq = q.ledger.nextSeq := by
    cases hmoves <;> rfl
  have hmem {d : Call} : d ∈ q.withCall c' ↔ d = c' ∨ d ∈ q.calls ∧ d.seq ≠ c.seq :=
    mem_withCall hc hmoves.seq_eq
  have hcounted : .start c.seq ∈ es ++ [e] ↔ 0 < c'.starts := by
    cases hmoves with
    | start => simp
    | hold => exact (mem_concat_of_ne fun seq heq => by cases heq).trans (h.counted c hc)
    | rest => exact (mem_concat_of_ne fun seq heq => by cases heq).trans (h.counted c hc)
    | wake => exact (mem_concat_of_ne fun seq heq => by cases heq).trans (h.counted c hc)
  have hothers {n : Nat} (hn : n ≠ c.seq) : .start n ∈ es ++ [e] ↔ .start n ∈ es := by
    rw [List.mem_append, List.mem_singleton]
    refine or_iff_left fun heq => ?_
    subst heq
    cases hmoves
    exact hn rfl
  have hkeeps {n : Nat} (hn : .start n ∈ es) : .start n ∈ es ++ [e] := List.mem_append_left _ hn
  refine ⟨?_, ?_, ?_⟩
  · intro n hn
    rw [hnext] at hn
    rcases h.accounted n hn with hstart | hgiven | ⟨d, hd, rfl⟩
    · exact Or.inl (hkeeps hstart)
    · exact Or.inr (Or.inl (hgiven.append _))
    · by_cases hseq : d.seq = c.seq
      · exact Or.inr (Or.inr ⟨c', hmem.mpr (Or.inl rfl), hmoves.seq_eq.trans hseq.symm⟩)
      · exact Or.inr (Or.inr ⟨d, hmem.mpr (Or.inr ⟨hd, hseq⟩), rfl⟩)
  · intro d hd
    rcases hmem.mp hd with rfl | ⟨hd, hne⟩
    · rw [hmoves.seq_eq]
      exact hcounted
    · exact (hothers hne).trans (h.counted d hd)
  · intro n hn
    rw [hnext]
    have hearlier : ∀ d ∈ q.calls, d.seq < n → .start d.seq ∈ es := by
      rw [List.mem_append, List.mem_singleton] at hn
      rcases hn with hn | rfl
      · exact (h.ahead n hn).2
      · -- it starts just now, through the gate
        cases hmoves with
        | start _ hgate => exact fun d hd => h.of_canStart hq hgate hd
    refine ⟨?_, fun d hd hdn => ?_⟩
    · by_cases hnc : n = c.seq
      · exact hnc ▸ hq.agrees.lt_nextSeq c hc
      · exact (h.ahead n ((hothers hnc).mp hn)).1
    · rcases hmem.mp hd with rfl | ⟨hd, -⟩
      · rw [hmoves.seq_eq] at hdn ⊢
        exact hkeeps (hearlier c hc hdn)
      · exact hkeeps (hearlier d hd hdn)

theorem step (h : Enrolled es q) (hq : q.Sound) (hstep : q.step? e = some q') :
    Enrolled (es ++ [e]) q' := by
  rcases step?_cases hstep with
    ⟨rfl, rfl⟩ | ⟨rfl, rfl⟩ | ⟨c, hc, hends, rfl⟩ | ⟨c, hc, c', l, hmoves, rfl⟩
  · exact h.submit
  · exact h.cancel
  · exact h.discard hq hc hends
  · exact h.move hq hc hmoves

end Enrolled

/-- Every queue that a run leads to is sound and knows what has started. -/
theorem sound_and_enrolled {config : QueueConfig} {es : List Event} {q : Queue}
    (h : (empty config).run? es = some q) : q.Sound ∧ Enrolled es q :=
  run?_induction (P := fun es q => q.Sound ∧ Enrolled es q)
    ⟨sound_empty config, .start config⟩
    (fun _ _ _ _ hq hstep => ⟨hq.1.step hstep, hq.2.step hq.1 hstep⟩) h

/-! ## The order of starts -/

/-- Starting a call takes a waiting one that the start gate is open for. -/
theorem waiting_of_start? {q q' : Queue} {seq : Nat} (h : q.start? seq = some q') :
    ∃ c ∈ q.calls, c.seq = seq ∧ c.phase = .waiting ∧ q.ledger.canStart q.config seq = true := by
  rw [start?] at h
  split at h
  · next c hc =>
    obtain ⟨hmem, hseq, hphase⟩ := mem_of_callIn? hc
    split at h
    · next hgate => exact ⟨c, hmem, hseq, hphase, hgate⟩
    · cases h
  · cases h

/-- Calls start for the first time in the order of submission. -/
theorem pairwise_firstStarts {config : QueueConfig} {es : List Event} {q : Queue}
    (h : (empty config).run? es = some q) : (firstStarts es).Pairwise (· < ·) := by
  induction es using List.reverseRecOn generalizing q with
  | nil => exact List.Pairwise.nil
  | append_singleton es e ih =>
    rw [run?_concat, Option.bind_eq_some_iff] at h
    obtain ⟨r, hr, hlast⟩ := h
    have hbefore := ih hr
    by_cases hstart : ∃ seq, e = .start seq
    · obtain ⟨seq, rfl⟩ := hstart
      rw [firstStarts_concat_start]
      split
      · rwa [List.append_nil]
      · next hnew =>
        obtain ⟨-, henrolled⟩ := sound_and_enrolled hr
        obtain ⟨c, hc, rfl, -⟩ := waiting_of_start? hlast
        rw [List.pairwise_append]
        refine ⟨hbefore, List.pairwise_singleton _ _, fun n hn k hk => ?_⟩
        rw [List.mem_singleton.mp hk]
        have hstarted : .start n ∈ es := mem_starts.mp (List.mem_eraseDups.mp hn)
        -- what started before a call that has not yet was submitted before it
        by_contra hle
        rcases Nat.lt_or_eq_of_le (not_lt.mp hle) with hlt | heq
        · exact hnew ((henrolled.ahead n hstarted).2 c hc hlt)
        · exact hnew (heq ▸ hstarted)
    · rw [firstStarts_concat_of_ne fun seq heq => hstart ⟨seq, heq⟩]
      exact hbefore

/-- **The order of starts.**  Whenever an attempt starts, its call waits and has the smallest number
of all that wait, to start or to start again; and if it is the first attempt of its call, every call
that was submitted earlier has started before or was abandoned or cancelled.  So calls start for the
first time in the order of submission. -/
theorem start_order {config : QueueConfig} {es : List Event} {q : Queue}
    (h : (empty config).run? es = some q) :
    (∀ k q', q.start? k = some q' →
      (∃ c, q.call? k = some c ∧ c.phase = .waiting) ∧
      (∀ d ∈ q.calls, d.phase = .waiting → k ≤ d.seq) ∧
      (.start k ∉ es → ∀ j < k, .start j ∈ es ∨ GivenUp es j)) ∧
    (firstStarts es).Pairwise (· < ·) := by
  refine ⟨fun k q' hstart => ?_, pairwise_firstStarts h⟩
  obtain ⟨hq, henrolled⟩ := sound_and_enrolled h
  obtain ⟨c, hc, rfl, hphase, hgate⟩ := waiting_of_start? hstart
  refine ⟨⟨c, hq.call?_eq_some hc, hphase⟩, hq.le_of_canStart hgate, fun _ j hj => ?_⟩
  rcases henrolled.accounted j (hj.trans (hq.agrees.lt_nextSeq c hc)) with
    hstarted | hgiven | ⟨d, hd, rfl⟩
  · exact Or.inl hstarted
  · exact Or.inr hgiven
  · exact Or.inl (henrolled.of_canStart hq hgate hd hj)

/-- Of three calls the second is abandoned and the first fails, sleeps and starts again. -/
def firstAgain : List Event :=
  [.submit, .submit, .submit, .start 0, .endAttempt 0 .failure, .abandon 1, .wake 0, .start 0]

/-- What that leads to. -/
def afterFirstAgain : Queue where
  config := .standard
  ledger := ⟨3, [2], [0], 1, 0⟩
  calls := [⟨0, .executing, .ofSeconds 30, 2⟩, ⟨2, .waiting, .ofSeconds 15, 0⟩]
  cancelled := false

/-- There the third call starts for the first time, after the first one has and the second one was
given up. -/
theorem start_order_firstAgain :
    (empty .standard).run? firstAgain = some afterFirstAgain ∧
      (afterFirstAgain.start? 2).isSome = true ∧
      (∀ d ∈ afterFirstAgain.calls, d.phase = .waiting → 2 ≤ d.seq) ∧
      (∀ j < 2, .start j ∈ firstAgain ∨ GivenUp firstAgain j) ∧
      (firstStarts firstAgain).Pairwise (· < ·) := by
  have hrun : (empty .standard).run? firstAgain = some afterFirstAgain := rfl
  obtain ⟨hstart, hfirst⟩ := start_order hrun
  obtain ⟨-, hsmallest, hearlier⟩ := hstart 2 _ rfl
  exact ⟨hrun, rfl, hsmallest, hearlier (by decide), hfirst⟩

end Queue
end Automation
