import Automation.Proofs.Dispatch.Bookkeeping

/-!
# The order of return

A result that keeps the order is handed back when its number is the smallest that has started.  The
numbers that have started leave out the calls that sleep and those that wait, so the gate alone says
nothing about a call that was submitted earlier and has not started yet.  That there is no such call
is the work of the start gate: calls start for the first time in the order of submission, so
whatever is submitted before a call that has started has started too (`Sound.inOrder`).  What is
left are calls that have started and are waiting or asleep now, and to be there again after a start
an attempt must have ended in a retry.

## What the past is needed for

Where a call is can be seen in the queue, but that an attempt of it has been retried, or that it
is over, is about the events that led there.  `Recorded` is the invariant that ties the two
together; it is kept by every event, and `return_order` reads it off.
-/

namespace Automation
namespace Queue

/-! ## The past -/

/-- A call is over: it has returned, in its turn or at once, or it was abandoned or cancelled. -/
def Ended (es : List Event) (seq : Nat) : Prop :=
  .deliver seq ∈ es ∨ .endAttempt seq .successUnordered ∈ es ∨ .abandon seq ∈ es ∨
    .endCancelled seq ∈ es

/-- An attempt of a call has ended without success. -/
def Retried (es : List Event) (seq : Nat) : Prop :=
  ∃ outcome, outcome.isRetried = true ∧ .endAttempt seq outcome ∈ es

/-- The calls whose results were handed back in their turn, in the order in which they were. -/
def delivered (es : List Event) : List Nat :=
  es.filterMap fun
    | .deliver seq => some seq
    | _ => none

theorem Ended.append {es : List Event} {seq : Nat} (h : Ended es seq) (e : Event) :
    Ended (es ++ [e]) seq := by
  rcases h with h | h | h | h
  · exact Or.inl (List.mem_append_left _ h)
  · exact Or.inr (Or.inl (List.mem_append_left _ h))
  · exact Or.inr (Or.inr (Or.inl (List.mem_append_left _ h)))
  · exact Or.inr (Or.inr (Or.inr (List.mem_append_left _ h)))

theorem Retried.append {es : List Event} {seq : Nat} (h : Retried es seq) (e : Event) :
    Retried (es ++ [e]) seq := by
  obtain ⟨outcome, hretried, hmem⟩ := h
  exact ⟨outcome, hretried, List.mem_append_left _ hmem⟩

/-- The event that ends a call is one of those that end calls. -/
theorem Ends.ended {q : Queue} {e : Event} {c : Call} (h : q.Ends e c) (es : List Event) :
    Ended (es ++ [e]) c.seq := by
  have hlast : e ∈ es ++ [e] := List.mem_append_right _ (List.mem_singleton_self e)
  cases h with
  | deliver => exact Or.inl hlast
  | unordered => exact Or.inr (Or.inl hlast)
  | abandon => exact Or.inr (Or.inr (Or.inl hlast))
  | cancelled => exact Or.inr (Or.inr (Or.inr hlast))

theorem mem_delivered {es : List Event} {seq : Nat} :
    seq ∈ delivered es ↔ .deliver seq ∈ es := by
  rw [delivered, List.mem_filterMap]
  constructor
  · rintro ⟨e, he, hseq⟩
    split at hseq
    · cases hseq
      exact he
    · cases hseq
  · exact fun h => ⟨_, h, rfl⟩

/-! ## What an open return gate says -/

/-- When the return gate is open for a finished call, every earlier live call has started before and
sleeps or waits to start again. -/
theorem Sound.of_canReturn {q : Queue} (h : q.Sound) {c : Call} (hc : c ∈ q.calls)
    (hphase : c.phase = .finished) (hgate : q.ledger.canReturn c.seq = true) {d : Call}
    (hd : d ∈ q.calls) (hlt : d.seq < c.seq) :
    0 < d.starts ∧ (d.phase = .asleep ∨ d.phase = .waiting) := by
  rw [Ledger.canReturn, decide_eq_true_eq] at hgate
  have hout : d.phase.isStarted ≠ true := by
    intro hin
    have hmem := (h.agrees.mem_started d.seq).mpr ⟨d, hd, rfl, hin⟩
    exact absurd (Ledger.le_of_head? h.agrees.sorted_started hgate _ hmem) (not_le.mpr hlt)
  have hcstarted : 0 < c.starts := h.started c hc (by rw [hphase]; decide)
  refine ⟨?_, ?_⟩
  · by_contra hnever
    have hlater := h.inOrder d hd c hc (Nat.eq_zero_of_not_pos hnever) hcstarted
    exact absurd hlt (not_lt.mpr hlater.le)
  · cases hd' : d.phase with
    | waiting => exact Or.inr rfl
    | asleep => exact Or.inl rfl
    | executing => exact absurd (by rw [hd']; rfl) hout
    | finished => exact absurd (by rw [hd']; rfl) hout

/-! ## The queue and its past -/

/-- A queue and the events that led to it. -/
structure Recorded (es : List Event) (q : Queue) : Prop where
  /-- What was submitted is over or live. -/
  accounted : ∀ n < q.ledger.nextSeq, Ended es n ∨ ∃ c ∈ q.calls, c.seq = n
  /-- What was handed back was submitted and is live no more. -/
  gone : ∀ n, .deliver n ∈ es → n < q.ledger.nextSeq ∧ ∀ c ∈ q.calls, c.seq ≠ n
  /-- What has started and sleeps or waits was retried. -/
  retried : ∀ c ∈ q.calls, 0 < c.starts → c.phase = .asleep ∨ c.phase = .waiting →
    Retried es c.seq
  /-- What lives on while a later call has returned was retried. -/
  overtaken : ∀ n, .deliver n ∈ es → ∀ c ∈ q.calls, c.seq < n → Retried es c.seq

namespace Recorded

variable {es : List Event} {q q' : Queue} {e : Event} {c c' : Call} {l : Ledger}

theorem start (config : QueueConfig) : Recorded [] (Queue.empty config) where
  accounted n hn := absurd hn (Nat.not_lt_zero n)
  gone _ h := absurd h List.not_mem_nil
  retried _ hc := absurd hc List.not_mem_nil
  overtaken _ h := absurd h List.not_mem_nil

theorem submit (h : Recorded es q) : Recorded (es ++ [.submit]) q.submit.2 := by
  have hpast : ∀ n, Event.deliver n ∈ es ++ [.submit] → .deliver n ∈ es := by
    intro n hn
    simpa using hn
  have hcalls : ∀ c ∈ q.submit.2.calls,
      c ∈ q.calls ∨ c = ⟨q.ledger.nextSeq, .waiting, q.config.initialBackoff, 0⟩ := by
    intro c hc
    rw [Queue.submit, List.mem_append, List.mem_singleton] at hc
    exact hc
  refine ⟨?_, ?_, ?_, ?_⟩
  · intro n hn
    rcases Nat.lt_succ_iff_lt_or_eq.mp hn with hn | rfl
    · rcases h.accounted n hn with hended | ⟨c, hc, rfl⟩
      · exact Or.inl (hended.append _)
      · exact Or.inr ⟨c, List.mem_append_left _ hc, rfl⟩
    · exact Or.inr ⟨_, List.mem_append_right _ (List.mem_singleton_self _), rfl⟩
  · intro n hn
    obtain ⟨hlt, hnone⟩ := h.gone n (hpast n hn)
    refine ⟨hlt.trans (Nat.lt_succ_self _), fun c hc => ?_⟩
    rcases hcalls c hc with hc | rfl
    · exact hnone c hc
    · exact hlt.ne'
  · intro c hc hstarted hphase
    rcases hcalls c hc with hc | rfl
    · exact (h.retried c hc hstarted hphase).append _
    · exact absurd hstarted (lt_irrefl 0)
  · intro n hn c hc hlt
    rcases hcalls c hc with hc | rfl
    · exact (h.overtaken n (hpast n hn) c hc hlt).append _
    · exact absurd (h.gone n (hpast n hn)).1 (not_lt.mpr hlt.le)

theorem cancel (h : Recorded es q) : Recorded (es ++ [.cancel]) q.cancel := by
  have hpast : ∀ n, Event.deliver n ∈ es ++ [.cancel] → .deliver n ∈ es := by
    intro n hn
    simpa using hn
  refine ⟨?_, fun n hn => h.gone n (hpast n hn), ?_, ?_⟩
  · intro n hn
    exact (h.accounted n hn).imp_left fun hended => hended.append _
  · intro c hc hstarted hphase
    exact (h.retried c hc hstarted hphase).append _
  · intro n hn c hc hlt
    exact (h.overtaken n (hpast n hn) c hc hlt).append _

theorem discard (h : Recorded es q) (hq : q.Sound) (hc : c ∈ q.calls) (hends : q.Ends e c) :
    Recorded (es ++ [e]) (q.discard c) := by
  have hdelivered : ∀ n, Event.deliver n ∈ es ++ [e] → .deliver n ∈ es ∨
      n = c.seq ∧ c.phase = .finished ∧ q.ledger.canReturn c.seq = true := by
    intro n hn
    rw [List.mem_append, List.mem_singleton] at hn
    rcases hn with hn | rfl
    · exact Or.inl hn
    · cases hends with
      | deliver hphase hgate => exact Or.inr ⟨rfl, hphase, hgate⟩
  refine ⟨?_, ?_, ?_, ?_⟩
  · intro n hn
    rcases h.accounted n hn with hended | ⟨d, hd, rfl⟩
    · exact Or.inl (hended.append _)
    · by_cases hseq : d.seq = c.seq
      · rw [hseq]
        exact Or.inl (hends.ended es)
      · exact Or.inr ⟨d, mem_withoutCall.mpr ⟨hd, hseq⟩, rfl⟩
  · intro n hn
    rcases hdelivered n hn with hn | ⟨rfl, -⟩
    · obtain ⟨hlt, hnone⟩ := h.gone n hn
      exact ⟨hlt, fun d hd => hnone d (mem_withoutCall.mp hd).1⟩
    · exact ⟨hq.agrees.lt_nextSeq c hc, fun d hd => (mem_withoutCall.mp hd).2⟩
  · intro d hd hstarted hphase
    exact (h.retried d (mem_withoutCall.mp hd).1 hstarted hphase).append _
  · intro n hn d hd hlt
    have hd' := (mem_withoutCall.mp hd).1
    rcases hdelivered n hn with hn | ⟨rfl, hphase, hgate⟩
    · exact (h.overtaken n hn d hd' hlt).append _
    · obtain ⟨hstarted, hrests⟩ := hq.of_canReturn hc hphase hgate hd' hlt
      exact (h.retried d hd' hstarted hrests).append _

theorem move (h : Recorded es q) (hc : c ∈ q.calls) (hmoves : q.Moves e c c' l) :
    Recorded (es ++ [e]) { q with ledger := l, calls := q.withCall c' } := by
  have hpast : ∀ n, Event.deliver n ∈ es ++ [e] → .deliver n ∈ es := by
    intro n hn
    rw [List.mem_append, List.mem_singleton] at hn
    rcases hn with hn | rfl
    · exact hn
    · cases hmoves
  have hnext : l.nextSeq = q.ledger.nextSeq := by
    cases hmoves <;> rfl
  have hmem {d : Call} : d ∈ q.withCall c' ↔ d = c' ∨ d ∈ q.calls ∧ d.seq ≠ c.seq :=
    mem_withCall hc hmoves.seq_eq
  refine ⟨?_, ?_, ?_, ?_⟩
  · intro n hn
    rw [hnext] at hn
    rcases h.accounted n hn with hended | ⟨d, hd, rfl⟩
    · exact Or.inl (hended.append _)
    · by_cases hseq : d.seq = c.seq
      · exact Or.inr ⟨c', hmem.mpr (Or.inl rfl), hmoves.seq_eq.trans hseq.symm⟩
      · exact Or.inr ⟨d, hmem.mpr (Or.inr ⟨hd, hseq⟩), rfl⟩
  · intro n hn
    obtain ⟨hlt, hnone⟩ := h.gone n (hpast n hn)
    refine ⟨hnext ▸ hlt, fun d hd => ?_⟩
    rcases hmem.mp hd with rfl | ⟨hd, -⟩
    · rw [hmoves.seq_eq]
      exact hnone c hc
    · exact hnone d hd
  · intro d hd hstarted hphase
    rcases hmem.mp hd with rfl | ⟨hd, -⟩
    · cases hmoves with
      | start => simp at hphase
      | hold => simp at hphase
      | rest _ hretried =>
        exact ⟨_, hretried, List.mem_append_right _ (List.mem_singleton_self _)⟩
      | wake hasleep => exact (h.retried c hc hstarted (Or.inl hasleep)).append _
    · exact (h.retried d hd hstarted hphase).append _
  · intro n hn d hd hlt
    rcases hmem.mp hd with rfl | ⟨hd, -⟩
    · rw [hmoves.seq_eq] at hlt ⊢
      exact (h.overtaken n (hpast n hn) c hc hlt).append _
    · exact (h.overtaken n (hpast n hn) d hd hlt).append _

theorem step (h : Recorded es q) (hq : q.Sound) (hstep : q.step? e = some q') :
    Recorded (es ++ [e]) q' := by
  rcases step?_cases hstep with
    ⟨rfl, rfl⟩ | ⟨rfl, rfl⟩ | ⟨c, hc, hends, rfl⟩ | ⟨c, hc, c', l, hmoves, rfl⟩
  · exact h.submit
  · exact h.cancel
  · exact h.discard hq hc hends
  · exact h.move hc hmoves

end Recorded

/-- Every queue that a run leads to is sound and knows its past. -/
theorem sound_and_recorded {config : QueueConfig} {es : List Event} {q : Queue}
    (h : (empty config).run? es = some q) : q.Sound ∧ Recorded es q :=
  run?_induction (P := fun es q => q.Sound ∧ Recorded es q)
    ⟨sound_empty config, .start config⟩
    (fun _ _ _ _ hq hstep => ⟨hq.1.step hstep, hq.2.step hq.1 hstep⟩) h

/-! ## The order of return -/

/-- Without retries results are handed back in the order of submission. -/
theorem pairwise_delivered {config : QueueConfig} {es : List Event} {q : Queue}
    (h : (empty config).run? es = some q) (hnone : ∀ n, ¬ Retried es n) :
    (delivered es).Pairwise (· < ·) := by
  induction es using List.reverseRecOn generalizing q with
  | nil => exact List.Pairwise.nil
  | append_singleton es e ih =>
    rw [run?_concat, Option.bind_eq_some_iff] at h
    obtain ⟨r, hr, hlast⟩ := h
    have hbefore := ih hr fun n hn => hnone n (hn.append e)
    rw [delivered, List.filterMap_append, List.pairwise_append]
    refine ⟨hbefore, ?_, ?_⟩
    · cases e <;> simp
    · intro n hn k hk
      obtain ⟨-, hrecorded⟩ := sound_and_recorded hr
      cases e with
      | deliver seq =>
        obtain rfl : k = seq := by simpa using hk
        obtain ⟨c, hc, rfl, -⟩ := finished_of_return? hlast
        -- an earlier call would have been overtaken, and only what is retried is
        obtain ⟨-, hgone⟩ := hrecorded.gone n (mem_delivered.mp hn)
        rcases lt_trichotomy n c.seq with hlt | heq | hgt
        · exact hlt
        · exact absurd heq.symm (hgone c hc)
        · have hretried := hrecorded.overtaken n (mem_delivered.mp hn) c hc hgt
          exact absurd (hretried.append _) (hnone c.seq)
      | _ => simp at hk

/-- Whenever a result is handed back in its turn, every call that was submitted earlier is over, or
has been retried and sleeps or waits to start again.  So without retries results come in the order
of submission. -/
theorem return_order {config : QueueConfig} {es : List Event} {q : Queue}
    (h : (empty config).run? es = some q) :
    (∀ k q', q.return? k = some q' → ∀ j < k, Ended es j ∨
      ∃ c, q.call? j = some c ∧ Retried es j ∧ 0 < c.starts ∧
        (c.phase = .asleep ∨ c.phase = .waiting)) ∧
    ((∀ n, ¬ Retried es n) → (delivered es).Pairwise (· < ·)) := by
  refine ⟨?_, pairwise_delivered h⟩
  obtain ⟨hq, hrecorded⟩ := sound_and_recorded h
  intro k q' hreturn j hj
  obtain ⟨c, hc, rfl, hphase, hgate, -⟩ := finished_of_return? hreturn
  rcases hrecorded.accounted j (hj.trans (hq.agrees.lt_nextSeq c hc)) with hended | ⟨d, hd, rfl⟩
  · exact Or.inl hended
  · obtain ⟨hstarted, hrests⟩ := hq.of_canReturn hc hphase hgate hd hj
    exact Or.inr ⟨d, hq.call?_eq_some hd, hrecorded.retried d hd hstarted hrests, hstarted, hrests⟩

/-- Two calls start, the first one fails, and the second one succeeds while the first one sleeps. -/
def firstFails : List Event :=
  [.submit, .submit, .start 0, .start 1, .endAttempt 0 .failure, .endAttempt 1 .success]

/-- What that leads to. -/
def afterFirstFails : Queue where
  config := .standard
  ledger := ⟨2, [], [1], 0, 1⟩
  calls := [⟨0, .asleep, .ofSeconds 30, 1⟩, ⟨1, .finished, .ofSeconds 15, 1⟩]
  cancelled := false

/-- There the second call returns before the first one, which has been retried. -/
theorem return_order_firstFails :
    (afterFirstFails.return? 1).isSome = true ∧ ∀ j < 1, Ended firstFails j ∨
      ∃ c, afterFirstFails.call? j = some c ∧ Retried firstFails j ∧ 0 < c.starts ∧
        (c.phase = .asleep ∨ c.phase = .waiting) := by
  have hrun : (empty .standard).run? firstFails = some afterFirstFails := rfl
  exact ⟨rfl, (return_order hrun).1 1 _ rfl⟩

end Queue
end Automation
