import Automation.Proofs.Dispatch.Bounds

/-!
# Some call is at work or may pass

A finished call holds room that others need to start, and a call that executes may hold back the
results of calls behind it.  Nobody waits in a circle, and the reason is the order of the numbers.
If no call executes, then whatever has started is finished, so the return gate is open for the first
of these.  And if nothing has started either, then both counters are zero, so the start gate is open
for the first that waits, provided that the limits leave room for one.

## Passing

`Queue.pass?` is what a call can do by itself: to start or to return, whichever it waits for.  On a
sound queue it succeeds exactly where the gate is open (`Sound.pass?_eq_none_iff`), so that no gate
is open for a call that is not there.
-/

namespace Automation

/-- Whether a call waits at a gate. -/
def CallPhase.isAtGate : CallPhase → Bool
  | .waiting | .finished => true
  | .executing | .asleep => false

namespace Queue

/-- A call waits at a gate that is open for it. -/
inductive IsOpenFor (q : Queue) (c : Call) : Prop where
  | start (phase : c.phase = .waiting) (gate : q.ledger.canStart q.config c.seq = true)
  | deliver (phase : c.phase = .finished) (gate : q.ledger.canReturn c.seq = true)

/-- The queue after a call has passed the gate at which it waits, if the gate is open for it. -/
def pass? (q : Queue) (seq : Nat) : Option Queue := (q.start? seq).or (q.return? seq)

variable {q q' : Queue} {c : Call} {seq : Nat}

theorem IsOpenFor.isAtGate (h : q.IsOpenFor c) : c.phase.isAtGate = true := by
  cases h with
  | start phase => rw [phase]; rfl
  | deliver phase => rw [phase]; rfl

/-! ## Passing -/

theorem pass?_eq_none_iff : q.pass? seq = none ↔ q.start? seq = none ∧ q.return? seq = none := by
  rw [pass?, Option.or_eq_none_iff]

/-- To pass is to start or to be handed back. -/
theorem step?_of_pass? (h : q.pass? seq = some q') :
    q.step? (.start seq) = some q' ∨ q.step? (.deliver seq) = some q' := by
  rw [pass?, Option.or_eq_some_iff] at h
  exact h.imp id And.right

/-- Cancelling a queue opens no gate and closes none. -/
theorem pass?_cancel : q.cancel.pass? seq = (q.pass? seq).map cancel := by
  have hcall : ∀ phase, q.cancel.callIn? phase seq = q.callIn? phase seq := fun _ => rfl
  have hstart : q.cancel.start? seq = (q.start? seq).map cancel := by
    rw [start?, start?, hcall]
    cases q.callIn? .waiting seq with
    | none => rfl
    | some c =>
      dsimp only
      rw [apply_ite (Option.map cancel)]
      rfl
  have hreturn : q.cancel.return? seq = (q.return? seq).map cancel := by
    rw [return?, return?, hcall]
    cases q.callIn? .finished seq with
    | none => rfl
    | some c =>
      dsimp only
      rw [apply_ite (Option.map cancel)]
      rfl
  rw [pass?, hstart, hreturn, pass?]
  cases q.start? seq <;> rfl

/-- Whoever passes has waited at an open gate. -/
theorem isOpenFor_of_pass? (h : q.pass? seq = some q') :
    ∃ c ∈ q.calls, c.seq = seq ∧ q.IsOpenFor c := by
  rcases step?_of_pass? h with h | h
  · rw [step?, start?] at h
    split at h
    · next c hc =>
      obtain ⟨hmem, rfl, hphase⟩ := mem_of_callIn? hc
      split at h
      · next hgate => exact ⟨c, hmem, rfl, .start hphase hgate⟩
      · cases h
    · cases h
  · obtain ⟨c, hmem, rfl, hphase, hgate, -⟩ := finished_of_return? h
    exact ⟨c, hmem, rfl, .deliver hphase hgate⟩

theorem Sound.callIn?_eq_some (h : q.Sound) (hc : c ∈ q.calls) :
    q.callIn? c.phase c.seq = some c := by
  rw [callIn?, h.call?_eq_some hc, Option.filter_some, if_pos (decide_eq_true rfl)]

/-- Whoever waits at an open gate can pass. -/
theorem Sound.pass?_of_isOpenFor (h : q.Sound) (hc : c ∈ q.calls) (hopen : q.IsOpenFor c) :
    q.pass? c.seq ≠ none := by
  have hfound := h.callIn?_eq_some hc
  rw [Ne, pass?_eq_none_iff]
  rintro ⟨hstart, hreturn⟩
  cases hopen with
  | start phase gate =>
    rw [phase] at hfound
    rw [start?, hfound] at hstart
    dsimp only at hstart
    rw [if_pos gate] at hstart
    cases hstart
  | deliver phase gate =>
    rw [phase] at hfound
    rw [return?, hfound] at hreturn
    dsimp only at hreturn
    rw [if_pos gate] at hreturn
    cases hreturn

theorem Sound.pass?_eq_none_iff (h : q.Sound) :
    q.pass? seq = none ↔ ∀ c ∈ q.calls, c.seq = seq → ¬ q.IsOpenFor c := by
  constructor
  · rintro hnone c hc rfl hopen
    exact h.pass?_of_isOpenFor hc hopen hnone
  · intro hshut
    rw [Option.eq_none_iff_forall_ne_some]
    intro q' hpass
    obtain ⟨c, hc, hseq, hopen⟩ := isOpenFor_of_pass? hpass
    exact hshut c hc hseq hopen

/-! ## Nobody waits in a circle -/

/-- Where nothing has started, nothing executes and no result waits. -/
theorem Sound.counters_of_none_started (h : q.Sound) (hnone : q.ledger.started = []) :
    q.ledger.executing = 0 ∧ q.ledger.pendingResults = 0 := by
  have hnot : ∀ d ∈ q.calls, d.phase.isStarted ≠ true := by
    intro d hd hstarted
    have hmem := (h.agrees.mem_started d.seq).mpr ⟨d, hd, rfl, hstarted⟩
    rw [hnone] at hmem
    exact absurd hmem List.not_mem_nil
  rw [h.agrees.executing, h.agrees.pendingResults, List.countP_eq_zero, List.countP_eq_zero]
  refine ⟨fun d hd hphase => hnot d hd ?_, fun d hd hphase => hnot d hd ?_⟩
  · rw [of_decide_eq_true hphase]
    rfl
  · rw [of_decide_eq_true hphase]
    rfl

/-- **Some call can always go on.**  In a queue with room for one, if a call is alive, one executes,
one sleeps, or one waits at a gate that is open for it. -/
theorem Sound.some_call_goes_on (h : q.Sound) (hconcurrent : 0 < q.config.maxConcurrent)
    (hpending : 0 < q.config.maxPending) (hlive : q.calls ≠ []) :
    (∃ d ∈ q.calls, d.phase = .executing) ∨ (∃ d ∈ q.calls, d.phase = .asleep) ∨
      ∃ d ∈ q.calls, q.IsOpenFor d := by
  by_cases hexecutes : ∃ d ∈ q.calls, d.phase = .executing
  · exact Or.inl hexecutes
  by_cases hsleeps : ∃ d ∈ q.calls, d.phase = .asleep
  · exact Or.inr (Or.inl hsleeps)
  refine Or.inr (Or.inr ?_)
  cases hstarted : q.ledger.started with
  | cons first rest =>
    -- the first that has started does not execute, so it is finished
    obtain ⟨d, hd, rfl, hphase⟩ := (h.agrees.mem_started first).mp (hstarted ▸ List.mem_cons_self)
    have hfinished : d.phase = .finished := by
      cases hd' : d.phase with
      | executing => exact absurd ⟨d, hd, hd'⟩ hexecutes
      | finished => rfl
      | waiting => rw [hd'] at hphase; cases hphase
      | asleep => rw [hd'] at hphase; cases hphase
    refine ⟨d, hd, .deliver hfinished ?_⟩
    rw [Ledger.canReturn, hstarted]
    exact decide_eq_true rfl
  | nil =>
    obtain ⟨hzero, hzero'⟩ := h.counters_of_none_started hstarted
    have hwaits : ∀ d ∈ q.calls, d.phase = .waiting := by
      intro d hd
      cases hphase : d.phase with
      | waiting => rfl
      | executing => exact absurd ⟨d, hd, hphase⟩ hexecutes
      | asleep => exact absurd ⟨d, hd, hphase⟩ hsleeps
      | finished =>
        have hpos := h.pendingResults_pos hd hphase
        omega
    obtain ⟨one, hone⟩ := List.exists_mem_of_ne_nil q.calls hlive
    have hmem := (h.agrees.mem_waiting one.seq).mpr ⟨one, hone, rfl, hwaits one hone⟩
    cases hwaiting : q.ledger.waiting with
    | nil =>
      rw [hwaiting] at hmem
      exact absurd hmem List.not_mem_nil
    | cons first rest =>
      obtain ⟨d, hd, rfl, hphase⟩ := (h.agrees.mem_waiting first).mp (hwaiting ▸ List.mem_cons_self)
      refine ⟨d, hd, .start hphase ?_⟩
      rw [Ledger.canStart, hwaiting, hzero, hzero', Bool.and_eq_true, Bool.and_eq_true]
      exact ⟨⟨decide_eq_true rfl, decide_eq_true hconcurrent⟩, decide_eq_true hpending⟩

end Queue
end Automation
