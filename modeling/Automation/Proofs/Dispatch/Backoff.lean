import Automation.Proofs.Dispatch.Bounds
import Automation.Settings.Basic
import Mathlib.Algebra.Ring.Nat
import Mathlib.Data.List.Infix
import Mathlib.Data.List.TakeWhile

/-!
# How long a call sleeps

A call carries the delay of its next plain retry, and every retry doubles it and cuts it to the
bounds, also a retry that brings a delay of its own and does not use it.  So after `k` attempts the
delay is what `k - 1` doublings of the first one make of it, cut once (`QueueConfig.delayAfter`).

Cutting in between changes nothing, because what has reached the ceiling stays there, and what has
been lifted to the first delay began there.  The doubling itself is cut at the longest span, and
since the ceiling is a span too, that is not seen either (`nextBackoff_delayAfter`).  With a ceiling
below the first delay all delays are the first one.

## Sleeps and attempts

The attempts of a call are found in the events, and its sleeps in what the queue answers to them.
`sleeps_eq` says that the sleeps are what the attempts up to the first success say one by one: their
own delays, or the delays at their place.
-/

namespace Automation

/-! ## Delays -/

namespace Span

theorem nanos_min (a b : Span) : (min a b).nanos = Min.min a.nanos b.nanos := by
  rw [min]
  split
  · next h => exact (Nat.min_eq_left h).symm
  · next h => exact (Nat.min_eq_right (Nat.le_of_not_le h)).symm

theorem nanos_max (a b : Span) : (max a b).nanos = Max.max a.nanos b.nanos := by
  rw [max]
  split
  · next h => exact (Nat.max_eq_right h).symm
  · next h => exact (Nat.max_eq_left (Nat.le_of_not_le h)).symm

theorem eq_of_nanos_eq {a b : Span} (h : a.nanos = b.nanos) : a = b := congrArg Span.mk h

end Span

namespace QueueConfig

/-- The delay after an attempt, the first one being number one, unless the attempt brings its
own: the first delay doubled for every attempt before, and cut to the bounds. -/
def delayAfter (c : QueueConfig) (attempt : Nat) : Span :=
  Span.max c.initialBackoff
    (Span.min c.maxBackoff ⟨c.initialBackoff.nanos * 2 ^ (attempt - 1)⟩)

variable {c : QueueConfig}

theorem nanos_delayAfter (c : QueueConfig) (k : Nat) : (c.delayAfter k).nanos =
    max c.initialBackoff.nanos (min c.maxBackoff.nanos (c.initialBackoff.nanos * 2 ^ (k - 1))) := by
  rw [delayAfter, Span.nanos_max, Span.nanos_min]

/-- Doublings do not make a delay shorter. -/
theorem le_doubled (c : QueueConfig) (k : Nat) :
    c.initialBackoff.nanos ≤ c.initialBackoff.nanos * 2 ^ k :=
  Nat.le_mul_of_pos_right _ (Nat.two_pow_pos k)

/-- A call begins with the first delay. -/
theorem delayAfter_one (c : QueueConfig) : c.delayAfter 1 = c.initialBackoff := by
  refine Span.eq_of_nanos_eq ?_
  rw [nanos_delayAfter, Nat.sub_self, Nat.pow_zero, Nat.mul_one]
  exact Nat.max_eq_left (Nat.min_le_right _ _)

/-- The delay that follows one of the delays is the next one: neither the cut after every doubling
nor the longest span is seen. -/
theorem nextBackoff_delayAfter (hmax : c.maxBackoff ≤ Span.longest) (k : Nat) :
    c.nextBackoff (c.delayAfter (k + 1)) = c.delayAfter (k + 2) := by
  have hceiling : c.maxBackoff.nanos ≤ Span.longest.nanos := hmax
  have hgrown := c.le_doubled k
  have hdoubled : c.initialBackoff.nanos * 2 ^ (k + 2 - 1) =
      2 * (c.initialBackoff.nanos * 2 ^ k) := by
    rw [show k + 2 - 1 = k + 1 by omega, Nat.pow_succ, ← Nat.mul_assoc, Nat.mul_comm]
  refine Span.eq_of_nanos_eq ?_
  rw [nextBackoff, Span.double, Span.nanos_max, Span.nanos_min, Span.nanos_min, nanos_delayAfter,
    nanos_delayAfter, hdoubled, Nat.add_sub_cancel]
  dsimp only
  generalize c.initialBackoff.nanos * 2 ^ k = doubled at hgrown ⊢
  omega

theorem initialBackoff_le_delayAfter (c : QueueConfig) (k : Nat) :
    c.initialBackoff ≤ c.delayAfter k := by
  show c.initialBackoff.nanos ≤ (c.delayAfter k).nanos
  rw [nanos_delayAfter]
  exact Nat.le_max_left _ _

theorem delayAfter_le_succ (c : QueueConfig) (k : Nat) : c.delayAfter k ≤ c.delayAfter (k + 1) := by
  have hpow : c.initialBackoff.nanos * 2 ^ (k - 1) ≤ c.initialBackoff.nanos * 2 ^ (k + 1 - 1) :=
    Nat.mul_le_mul_left _ (Nat.pow_le_pow_right (Nat.succ_pos 1) (by omega))
  show (c.delayAfter k).nanos ≤ (c.delayAfter (k + 1)).nanos
  rw [nanos_delayAfter, nanos_delayAfter]
  omega

/-- No delay is longer than the ceiling and the first delay. -/
theorem delayAfter_le {bound : Span} (hinitial : c.initialBackoff ≤ bound)
    (hmax : c.maxBackoff ≤ bound) (k : Nat) : c.delayAfter k ≤ bound := by
  show (c.delayAfter k).nanos ≤ bound.nanos
  rw [nanos_delayAfter]
  exact Nat.max_le.mpr ⟨hinitial, (Nat.min_le_left _ _).trans hmax⟩

end QueueConfig

/-- The ceiling of settings that are accepted is not below the first delay. -/
theorem RetrySettings.initialBackoff_le_maxBackoff {r : RetrySettings} {config : QueueConfig}
    (h : r.queueConfig = .ok config) : config.initialBackoff ≤ config.maxBackoff := by
  rw [queueConfig] at h
  split at h
  · cases h
  · split at h
    · cases h
    · next hordered =>
      cases h
      exact Nat.mul_le_mul_right _ (Nat.le_of_not_lt hordered)

/-! ## Attempts and sleeps -/

/-- The delay that an attempt brings with it. -/
def AttemptEnd.ownDelay? : AttemptEnd → Option Span
  | .retry after => after
  | .success | .successUnordered | .failure => none

/-- The sleep that follows an attempt, if one does. -/
def AfterAttempt.delay? : AfterAttempt → Option Span
  | .sleeps delay => some delay
  | .returned | .awaitsTurn => none

namespace Queue

/-- How an attempt of a call ends in an event, if one does. -/
def Event.endOf? (seq : Nat) : Event → Option AttemptEnd
  | .endAttempt n outcome => if n = seq then some outcome else none
  | _ => none

/-- How the attempts of a call ended, in order. -/
def attemptEnds (es : List Event) (seq : Nat) : List AttemptEnd := es.filterMap (Event.endOf? seq)

/-- How the attempts of a call ended before the first success. -/
def retries (es : List Event) (seq : Nat) : List AttemptEnd :=
  (attemptEnds es seq).takeWhile AttemptEnd.isRetried

/-- The sleep of a call that begins with an event, if one does. -/
def sleep? (q : Queue) (seq : Nat) (e : Event) : Option Span :=
  (e.endOf? seq).bind fun outcome => (q.endAttempt? seq outcome).bind fun after => after.1.delay?

/-- The sleeps of a call in a run, in order. -/
def sleeps (seq : Nat) : Queue → List Event → List Span
  | _, [] => []
  | q, e :: es => (q.sleep? seq e).toList ++ (q.step? e).elim [] fun r => r.sleeps seq es

variable {q q' : Queue} {es : List Event} {e : Event} {c c' : Call} {l : Ledger} {seq : Nat}

theorem sleeps_concat (h : q.run? es = some q') :
    q.sleeps seq (es ++ [e]) = q.sleeps seq es ++ (q'.sleep? seq e).toList := by
  induction es generalizing q with
  | nil =>
    cases h
    rw [List.nil_append, sleeps, sleeps, List.nil_append]
    cases q'.step? e <;> exact List.append_nil _
  | cons first rest ih =>
    rw [run?, List.foldlM_cons] at h
    obtain ⟨r, hr, hrest⟩ := Option.bind_eq_some_iff.mp h
    rw [List.cons_append, sleeps, sleeps, hr, Option.elim_some, Option.elim_some, ih hrest,
      List.append_assoc]

theorem attemptEnds_concat (es : List Event) (e : Event) (seq : Nat) :
    attemptEnds (es ++ [e]) seq = attemptEnds es seq ++ (e.endOf? seq).toList := by
  rw [attemptEnds, List.filterMap_append, ← attemptEnds]
  cases hend : e.endOf? seq with
  | none => rw [List.filterMap_cons_none hend, List.filterMap_nil, Option.toList_none]
  | some outcome => rw [List.filterMap_cons_some hend, List.filterMap_nil, Option.toList_some]

theorem attemptEnds_concat_of_eq_none (hend : e.endOf? seq = none) :
    attemptEnds (es ++ [e]) seq = attemptEnds es seq := by
  rw [attemptEnds_concat, hend, Option.toList_none, List.append_nil]

/-- While no attempt has succeeded all of them are retries. -/
theorem retries_concat (hall : ∀ o ∈ attemptEnds es seq, o.isRetried = true) :
    retries (es ++ [e]) seq =
      retries es seq ++ (e.endOf? seq).toList.takeWhile AttemptEnd.isRetried := by
  rw [retries, retries, attemptEnds_concat, List.takeWhile_append_of_pos hall,
    List.takeWhile_eq_self_iff.mpr hall]

theorem retries_concat_of_eq_none (hend : e.endOf? seq = none) :
    retries (es ++ [e]) seq = retries es seq := by
  rw [retries, attemptEnds_concat_of_eq_none hend, retries]

/-- An event that ends a call, or changes its phase, ends no attempt of another one. -/
theorem Ends.endOf?_of_ne (h : q.Ends e c) (hne : seq ≠ c.seq) : e.endOf? seq = none := by
  cases h with
  | unordered => exact if_neg (Ne.symm hne)
  | _ => rfl

theorem Moves.endOf?_of_ne (h : q.Moves e c c' l) (hne : seq ≠ c.seq) : e.endOf? seq = none := by
  cases h with
  | hold => exact if_neg (Ne.symm hne)
  | rest => exact if_neg (Ne.symm hne)
  | _ => rfl

/-- An attempt that ends is that of a call that executes, and the call sleeps if it is tried again:
as long as the attempt says, or else for the delay that it carries. -/
theorem sleep?_of_endOf? {outcome : AttemptEnd} (hstep : q.step? e = some q')
    (hend : e.endOf? seq = some outcome) : ∃ c ∈ q.calls, c.seq = seq ∧ c.phase = .executing ∧
      q.sleep? seq e =
        if outcome.isRetried then some (outcome.ownDelay?.getD c.backoff) else none := by
  cases e with
  | endAttempt n o =>
    obtain ⟨rfl, ho⟩ := Option.ite_none_right_eq_some.mp hend
    cases ho
    rw [sleep?, hend, Option.bind_some]
    rw [step?, endAttempt?] at hstep
    split at hstep
    · cases hstep
    · next c hc =>
      obtain ⟨hmem, hseq, hphase⟩ := mem_of_callIn? hc
      refine ⟨c, hmem, hseq, hphase, ?_⟩
      rw [endAttempt?, hc]
      cases outcome <;> rfl
  | _ => cases hend

/-! ## The delay that a call carries -/

/-- What the events so far say about the delays of a queue's calls. -/
structure Delayed (es : List Event) (q : Queue) : Prop where
  /-- No attempt of a call that has not come yet has ended. -/
  fresh : ∀ n, q.ledger.nextSeq ≤ n → attemptEnds es n = []
  /-- All attempts of a call that has no result are retries. -/
  retried : ∀ c ∈ q.calls, c.phase ≠ .finished → ∀ o ∈ attemptEnds es c.seq, o.isRetried = true
  /-- A call carries the delay for its next attempt. -/
  backoff : ∀ c ∈ q.calls, c.backoff = q.config.delayAfter ((retries es c.seq).length + 1)

namespace Delayed

theorem start (config : QueueConfig) : Delayed [] (Queue.empty config) where
  fresh _ _ := rfl
  retried _ hc := absurd hc List.not_mem_nil
  backoff _ hc := absurd hc List.not_mem_nil

theorem submit (h : Delayed es q) : Delayed (es ++ [.submit]) q.submit.2 := by
  have hends : ∀ n, attemptEnds (es ++ [.submit]) n = attemptEnds es n := fun n =>
    attemptEnds_concat_of_eq_none rfl
  have hretries : ∀ n, retries (es ++ [.submit]) n = retries es n := fun n =>
    retries_concat_of_eq_none rfl
  have hcalls : ∀ c ∈ q.submit.2.calls,
      c ∈ q.calls ∨ c = ⟨q.ledger.nextSeq, .waiting, q.config.initialBackoff, 0⟩ := by
    intro c hc
    rw [Queue.submit, List.mem_append, List.mem_singleton] at hc
    exact hc
  have hnone := h.fresh q.ledger.nextSeq le_rfl
  refine ⟨fun n hn => (hends n).trans (h.fresh n ((Nat.le_succ _).trans hn)), ?_, ?_⟩
  · intro c hc hphase
    rw [hends]
    rcases hcalls c hc with hc | rfl
    · exact h.retried c hc hphase
    · rw [hnone]
      exact List.forall_mem_nil _
  · intro c hc
    rw [hretries]
    rcases hcalls c hc with hc | rfl
    · exact h.backoff c hc
    · rw [retries, hnone]
      exact (q.config.delayAfter_one).symm

theorem cancel (h : Delayed es q) : Delayed (es ++ [.cancel]) q.cancel where
  fresh n hn := (attemptEnds_concat_of_eq_none rfl).trans (h.fresh n hn)
  retried c hc hphase := by
    rw [attemptEnds_concat_of_eq_none rfl]
    exact h.retried c hc hphase
  backoff c hc := by
    rw [retries_concat_of_eq_none rfl]
    exact h.backoff c hc

theorem discard (h : Delayed es q) (hq : q.Sound) (hc : c ∈ q.calls) (hends : q.Ends e c) :
    Delayed (es ++ [e]) (q.discard c) := by
  have hlt := hq.agrees.lt_nextSeq c hc
  refine ⟨fun n hn => ?_, fun d hd hphase => ?_, fun d hd => ?_⟩
  · have hne : n ≠ c.seq := (hlt.trans_le hn).ne'
    exact (attemptEnds_concat_of_eq_none (hends.endOf?_of_ne hne)).trans (h.fresh n hn)
  · obtain ⟨hd, hne⟩ := mem_withoutCall.mp hd
    rw [attemptEnds_concat_of_eq_none (hends.endOf?_of_ne hne)]
    exact h.retried d hd hphase
  · obtain ⟨hd, hne⟩ := mem_withoutCall.mp hd
    rw [retries_concat_of_eq_none (hends.endOf?_of_ne hne)]
    exact h.backoff d hd

/-- A call that changes its phase and is not put to sleep keeps its delay, and one that is gets the
next. -/
theorem move (h : Delayed es q) (hq : q.Sound) (hmax : q.config.maxBackoff ≤ Span.longest)
    (hc : c ∈ q.calls) (hmoves : q.Moves e c c' l) :
    Delayed (es ++ [e]) { q with ledger := l, calls := q.withCall c' } := by
  have hlt := hq.agrees.lt_nextSeq c hc
  have hnext : l.nextSeq = q.ledger.nextSeq := by
    cases hmoves <;> rfl
  have hmem {d : Call} : d ∈ q.withCall c' ↔ d = c' ∨ d ∈ q.calls ∧ d.seq ≠ c.seq :=
    mem_withCall hc hmoves.seq_eq
  have hbackoff := h.backoff c hc
  have hown : (c'.phase ≠ .finished → ∀ o ∈ attemptEnds (es ++ [e]) c.seq, o.isRetried = true) ∧
      c'.backoff = q.config.delayAfter ((retries (es ++ [e]) c.seq).length + 1) := by
    cases hmoves with
    | start hphase =>
      rw [attemptEnds_concat_of_eq_none rfl, retries_concat_of_eq_none rfl]
      exact ⟨fun _ => h.retried c hc (by rw [hphase]; decide), hbackoff⟩
    | hold hphase =>
      have hall := h.retried c hc (by rw [hphase]; decide)
      have hend : (Event.endAttempt c.seq .success).endOf? c.seq = some .success := if_pos rfl
      rw [retries_concat hall, hend, Option.toList_some, List.takeWhile_cons_of_neg (by decide),
        List.append_nil]
      exact ⟨fun hne => absurd rfl hne, hbackoff⟩
    | @rest _ outcome hphase hretried =>
      have hall := h.retried c hc (by rw [hphase]; decide)
      have hend : (Event.endAttempt c.seq outcome).endOf? c.seq = some outcome := if_pos rfl
      refine ⟨fun _ o ho => ?_, ?_⟩
      · rw [attemptEnds_concat, hend, Option.toList_some, List.mem_append, List.mem_singleton] at ho
        exact ho.elim (hall o) fun heq => heq ▸ hretried
      · rw [retries_concat hall, hend, Option.toList_some, List.takeWhile_cons_of_pos hretried,
          List.takeWhile_nil, List.length_append, List.length_singleton]
        dsimp only
        rw [hbackoff]
        exact QueueConfig.nextBackoff_delayAfter hmax _
    | wake hphase =>
      rw [attemptEnds_concat_of_eq_none rfl, retries_concat_of_eq_none rfl]
      exact ⟨fun _ => h.retried c hc (by rw [hphase]; decide), hbackoff⟩
  refine ⟨fun n hn => ?_, fun d hd hphase => ?_, fun d hd => ?_⟩
  · rw [hnext] at hn
    have hne : n ≠ c.seq := (hlt.trans_le hn).ne'
    exact (attemptEnds_concat_of_eq_none (hmoves.endOf?_of_ne hne)).trans (h.fresh n hn)
  · rcases hmem.mp hd with rfl | ⟨hd, hne⟩
    · rw [hmoves.seq_eq]
      exact hown.1 hphase
    · rw [attemptEnds_concat_of_eq_none (hmoves.endOf?_of_ne hne)]
      exact h.retried d hd hphase
  · rcases hmem.mp hd with rfl | ⟨hd, hne⟩
    · rw [hmoves.seq_eq]
      exact hown.2
    · rw [retries_concat_of_eq_none (hmoves.endOf?_of_ne hne)]
      exact h.backoff d hd

theorem step (h : Delayed es q) (hq : q.Sound) (hmax : q.config.maxBackoff ≤ Span.longest)
    (hstep : q.step? e = some q') : Delayed (es ++ [e]) q' := by
  rcases step?_cases hstep with
    ⟨rfl, rfl⟩ | ⟨rfl, rfl⟩ | ⟨c, hc, hends, rfl⟩ | ⟨c, hc, c', l, hmoves, rfl⟩
  · exact h.submit
  · exact h.cancel
  · exact h.discard hq hc hends
  · exact h.move hq hmax hc hmoves

end Delayed

/-! ## Sleeps in closed form -/

/-- The sleeps that the retries of a call say. -/
def sleepsOf (config : QueueConfig) (retries : List AttemptEnd) : List Span :=
  retries.mapIdx fun i outcome => outcome.ownDelay?.getD (config.delayAfter (i + 1))

/-- An event adds to the sleeps of a call what it adds to its retries. -/
theorem Delayed.sleepsOf_concat (h : Delayed es q) (hstep : q.step? e = some q') (seq : Nat) :
    sleepsOf q.config (retries (es ++ [e]) seq) =
      sleepsOf q.config (retries es seq) ++ (q.sleep? seq e).toList := by
  cases hend : e.endOf? seq with
  | none =>
    rw [retries_concat_of_eq_none hend, sleep?, hend, Option.bind_none, Option.toList_none,
      List.append_nil]
  | some outcome =>
    obtain ⟨c, hc, rfl, hphase, hsleep⟩ := sleep?_of_endOf? hstep hend
    have hall := h.retried c hc (by rw [hphase]; decide)
    rw [retries_concat hall, hend, hsleep, h.backoff c hc, Option.toList_some]
    cases hretried : outcome.isRetried with
    | true =>
      rw [List.takeWhile_cons_of_pos hretried, List.takeWhile_nil, sleepsOf, List.mapIdx_concat]
      rfl
    | false =>
      rw [List.takeWhile_cons_of_neg (by rw [hretried]; decide), List.append_nil]
      exact (List.append_nil _).symm

/-- **The sleeps of a call in closed form.**  For every configuration whose delays are no longer
than the longest span, as all that can be read are, also with a ceiling below the first delay, and
for every run the sleeps of a call are those of its attempts up to the first success: the attempt's
own delay where it brought one, and otherwise the first delay doubled for every attempt before and
cut once to the bounds, whatever these attempts brought.  What a live call carries is never longer
than the longest span.  Where the configuration comes from settings that are accepted, the delays
ascend from the first one and stay below the ceiling. -/
theorem sleeps_eq {config : QueueConfig} (hinitial : config.initialBackoff ≤ Span.longest)
    (hmax : config.maxBackoff ≤ Span.longest) (h : (empty config).run? es = some q) :
    (∀ seq, (empty config).sleeps seq es =
      (retries es seq).mapIdx fun i outcome =>
        outcome.ownDelay?.getD (config.delayAfter (i + 1))) ∧
    (∀ c ∈ q.calls, c.backoff = config.delayAfter ((retries es c.seq).length + 1) ∧
      c.backoff ≤ Span.longest) ∧
    ∀ r : RetrySettings, r.queueConfig = .ok config → ∀ k,
      config.initialBackoff ≤ config.delayAfter k ∧ config.delayAfter k ≤ config.maxBackoff ∧
        config.delayAfter k ≤ config.delayAfter (k + 1) := by
  obtain ⟨-, -, hconfig, hdelayed, hsleeps⟩ := run?_induction
    (P := fun es q => (empty config).run? es = some q ∧ q.Sound ∧ q.config = config ∧
      Delayed es q ∧ ∀ seq, (empty config).sleeps seq es = sleepsOf config (retries es seq))
    ⟨rfl, sound_empty config, rfl, .start config, fun _ => rfl⟩
    (fun es q e q' ⟨hrun, hq, hconfig, hdelayed, hsleeps⟩ hstep => by
      have hmax' : q.config.maxBackoff ≤ Span.longest := hconfig ▸ hmax
      refine ⟨by rw [run?_concat, hrun, Option.bind_some, hstep], hq.step hstep,
        (config_step hstep).trans hconfig, hdelayed.step hq hmax' hstep, fun seq => ?_⟩
      rw [sleeps_concat hrun, hsleeps seq, ← hconfig, hdelayed.sleepsOf_concat hstep]) h
  refine ⟨hsleeps, fun c hc => ?_, fun r hr k => ?_⟩
  · have hbackoff := hdelayed.backoff c hc
    rw [hconfig] at hbackoff
    exact ⟨hbackoff, hbackoff ▸ config.delayAfter_le hinitial hmax _⟩
  · have hordered := r.initialBackoff_le_maxBackoff hr
    exact ⟨config.initialBackoff_le_delayAfter k, config.delayAfter_le hordered (Nat.le_refl _) k,
      config.delayAfter_le_succ k⟩

/-- Settings with delays from four to ten seconds. -/
def steep : RetrySettings := ⟨1, 1, 4, 10⟩

/-- The first three attempts of a call fail, of which the second brings its own delay, and after
them one wants to be tried again and one succeeds; a second call is submitted in between. -/
def fourRetries : List Event :=
  [.submit, .start 0, .endAttempt 0 .failure, .wake 0, .start 0,
    .endAttempt 0 (.retry (some (.ofSeconds 1))), .submit, .wake 0, .start 0,
    .endAttempt 0 .failure, .start 1, .endAttempt 1 .successUnordered, .wake 0, .start 0,
    .endAttempt 0 (.retry none), .wake 0, .start 0, .endAttempt 0 .success]

/-- The second attempt does not use its delay of eight seconds, and the third is at the ceiling
already. -/
theorem sleeps_eq_fourRetries :
    ∃ config q, steep.queueConfig = .ok config ∧ (empty config).run? fourRetries = some q ∧
      (empty config).sleeps 0 fourRetries =
        [.ofSeconds 4, .ofSeconds 1, .ofSeconds 10, .ofSeconds 10] ∧
      (retries fourRetries 0).length = 4 ∧ (∀ k, config.delayAfter k ≤ config.maxBackoff) := by
  have hrun : (empty ⟨1, 1, .ofSeconds 4, .ofSeconds 10⟩).run? fourRetries =
      some ⟨⟨1, 1, .ofSeconds 4, .ofSeconds 10⟩, ⟨2, [], [0], 0, 1⟩,
        [⟨0, .finished, .ofSeconds 10, 5⟩], false⟩ := rfl
  obtain ⟨hsleeps, -, hbounds⟩ := sleeps_eq (by decide) (by decide) hrun
  exact ⟨_, _, rfl, hrun, hsleeps 0, rfl, fun k => (hbounds steep rfl k).2.1⟩

end Queue
end Automation
