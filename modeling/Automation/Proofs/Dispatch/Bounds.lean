import Automation.Proofs.Dispatch.Accounting

/-!
# How much a queue holds at once

The start gate looks at both limits, and only there are they looked at.  So results may go on to
wait when as many wait already as may: every call that executes was let in while there was room, and
brings its result later.  What is bounded is the sum.  A call starts when there is room for one more
attempt and for one more result, so afterwards the two together are at most one less than both
limits together, and no other event makes the sum larger: a result is what an attempt becomes.
(Where a limit is zero nothing ever starts, and the bounds hold for that reason.)

The end of an attempt and the beginning of its result's wait are one event here.  If they were two,
a call could start in between, and the sum could be one more.
-/

namespace Automation
namespace Queue

variable {q q' : Queue} {e : Event}

/-- No event changes the configuration. -/
theorem config_step (hstep : q.step? e = some q') : q'.config = q.config := by
  rcases step?_cases hstep with ⟨-, rfl⟩ | ⟨-, rfl⟩ | ⟨c, -, -, rfl⟩ | ⟨c, -, c', l, -, rfl⟩
  all_goals rfl

/-- A queue that has run has the configuration it was made with. -/
theorem config_of_run? {config : QueueConfig} {es : List Event}
    (h : (empty config).run? es = some q) : q.config = config :=
  run?_induction (P := fun _ q => q.config = config) rfl
    (fun _ _ _ _ hq hstep => (config_step hstep).trans hq) h

/-- A call starts only if there is room for an attempt and for a result. -/
theorem room_of_start {seq : Nat} (hstep : q.step? (.start seq) = some q') :
    q.ledger.executing < q.config.maxConcurrent ∧
      q.ledger.pendingResults < q.config.maxPending := by
  rw [step?, start?] at hstep
  split at hstep
  · split at hstep
    · next hgate =>
      rw [Ledger.canStart, Bool.and_eq_true, Bool.and_eq_true] at hgate
      exact ⟨of_decide_eq_true hgate.1.2, of_decide_eq_true hgate.2⟩
    · cases hstep
  · cases hstep

/-- Attempts and waiting results are within what the configuration allows. -/
structure Bounded (q : Queue) : Prop where
  executing : q.ledger.executing ≤ q.config.maxConcurrent
  sum : q.ledger.executing + q.ledger.pendingResults ≤
    q.config.maxConcurrent + q.config.maxPending - 1

/-- Only a start makes the attempts more, or the attempts and results together. -/
theorem Sound.counters_le (h : q.Sound) (hstep : q.step? e = some q')
    (hstart : ∀ seq, e ≠ .start seq) :
    q'.ledger.executing ≤ q.ledger.executing ∧
      q'.ledger.executing + q'.ledger.pendingResults ≤
        q.ledger.executing + q.ledger.pendingResults := by
  obtain ⟨hexecuting, hpending⟩ := h.counters_step hstep
  have henters : tally .executing e.enters = 0 := by
    cases e with
    | start seq => exact absurd rfl (hstart seq)
    | endAttempt seq outcome => cases outcome <;> rfl
    | _ => rfl
  -- what begins to wait with a result has executed until then
  have hbecomes : tally .finished e.enters ≤ tally .executing (e.leaves q) := by
    cases e with
    | endAttempt seq outcome =>
      cases outcome with
      | success => exact le_rfl
      | _ => exact Nat.zero_le _
    | _ => exact Nat.zero_le _
  omega

theorem Bounded.step (hq : q.Bounded) (h : q.Sound) (hstep : q.step? e = some q') : q'.Bounded := by
  obtain ⟨hexecuting, hpending⟩ := h.counters_step hstep
  obtain ⟨hbound, hsum⟩ := hq
  have hconfig := config_step hstep
  by_cases hstart : ∃ seq, e = .start seq
  · obtain ⟨seq, rfl⟩ := hstart
    obtain ⟨hroom, hroom'⟩ := room_of_start hstep
    have hone : q'.ledger.executing = q.ledger.executing + 1 := hexecuting
    have hsame : q'.ledger.pendingResults = q.ledger.pendingResults := hpending
    refine ⟨?_, ?_⟩
    · rw [hconfig, hone]
      exact hroom
    · rw [hconfig, hone, hsame]
      omega
  · obtain ⟨hle, hle'⟩ := h.counters_le hstep fun seq hseq => hstart ⟨seq, hseq⟩
    refine ⟨?_, ?_⟩
    · rw [hconfig]
      exact hle.trans hbound
    · rw [hconfig]
      exact hle'.trans hsum

/-- **The bounds of a queue.**  At every point of every run no more calls execute than may, and the
calls that execute and those that wait with a result are together fewer than both limits.  So this
is the most that ever waits. -/
theorem executing_add_pending_le {config : QueueConfig} {es : List Event}
    (h : (empty config).run? es = some q) :
    q.calls.countP (fun c => c.phase = .executing) ≤ config.maxConcurrent ∧
      q.calls.countP (fun c => c.phase = .executing) +
          q.calls.countP (fun c => c.phase = .finished) ≤
        config.maxConcurrent + config.maxPending - 1 ∧
      q.calls.countP (fun c => c.phase = .finished) ≤
        config.maxConcurrent + config.maxPending - 1 := by
  obtain ⟨hconfig, hsound, hbounded⟩ := run?_induction
    (P := fun _ q => q.config = config ∧ q.Sound ∧ q.Bounded)
    ⟨rfl, sound_empty config, Nat.zero_le _, Nat.zero_le _⟩
    (fun _ _ _ _ hq hstep => ⟨(config_step hstep).trans hq.1, hq.2.1.step hstep,
      hq.2.2.step hq.2.1 hstep⟩) h
  obtain ⟨hexecuting, hsum⟩ := hbounded
  rw [hconfig, hsound.agrees.executing] at hexecuting hsum
  rw [hsound.agrees.pendingResults] at hsum
  exact ⟨hexecuting, hsum, (Nat.le_add_left _ _).trans hsum⟩

/-- Two at once and room for two results: while the first call executes, the second one's result and
then the third one's begin to wait, and the first one's joins them. -/
def crowding : List Event :=
  [.submit, .submit, .submit, .start 0, .start 1, .endAttempt 1 .success, .start 2,
    .endAttempt 2 .success, .endAttempt 0 .success]

/-- Such a queue. -/
def narrow : QueueConfig := ⟨2, 2, .ofSeconds 1, .ofSeconds 1⟩

/-- There all three results wait, which is the most that may. -/
theorem executing_add_pending_le_crowding :
    ∃ q, (empty narrow).run? crowding = some q ∧
      q.calls.countP (fun c => c.phase = .finished) = 3 ∧
      q.calls.countP (fun c => c.phase = .executing) +
          q.calls.countP (fun c => c.phase = .finished) ≤
        narrow.maxConcurrent + narrow.maxPending - 1 := by
  have hrun : (empty narrow).run? crowding = some ⟨narrow, ⟨3, [], [0, 1, 2], 0, 3⟩,
      [⟨0, .finished, .ofSeconds 1, 1⟩, ⟨1, .finished, .ofSeconds 1, 1⟩,
        ⟨2, .finished, .ofSeconds 1, 1⟩], false⟩ := rfl
  exact ⟨_, hrun, rfl, (executing_add_pending_le hrun).2.1⟩

end Queue
end Automation
