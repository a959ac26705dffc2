import Automation.Proofs.Dispatch.Bookkeeping
import Mathlib.Data.List.Range

/-!
# What is taken is given back once

The two counters of the ledger are changed wherever a call begins or ends to execute or to wait with
a result, and a call may be abandoned or cancelled in the middle of any of that.  Whether every
change is undone, and undone once, can be seen from the phases: an event takes a call out of one
phase (`Event.leaves`) and puts it into another one (`Event.enters`).  `Sound.counters_step` says
that the counters follow that and nothing else.

## Why the equations are sums

A counter of naturals that would go below zero stays at zero, and nobody notices.  So what an event
takes off stands on the side of the counter afterwards.  As an equation between sums the law says
that there was something to take off.
-/

namespace Automation
namespace Queue

/-! ## Out of one phase and into another -/

/-- The phase that an event takes a call out of. -/
def Event.leaves (q : Queue) : Event → Option CallPhase
  | .start _ => some .waiting
  | .endAttempt _ _ => some .executing
  | .deliver _ => some .finished
  | .wake _ => some .asleep
  | .abandon seq | .endCancelled seq => (q.call? seq).map (·.phase)
  | .submit | .cancel => none

/-- The phase that an event puts a call into. -/
def Event.enters : Event → Option CallPhase
  | .submit | .wake _ => some .waiting
  | .start _ => some .executing
  | .endAttempt _ .success => some .finished
  | .endAttempt _ (.retry _) | .endAttempt _ .failure => some .asleep
  | .endAttempt _ .successUnordered | .deliver _ | .abandon _ | .cancel | .endCancelled _ => none

/-- One for a phase and nothing for all others. -/
def tally (phase : CallPhase) (p : Option CallPhase) : Nat := if p = some phase then 1 else 0

variable {q q' : Queue} {e : Event} {c c' : Call} {l : Ledger}

/-- What ends a call takes it out of the phase in which it is, and puts it into none. -/
theorem Ends.phases (h : q.Ends e c) (hcall : q.call? c.seq = some c) :
    e.leaves q = some c.phase ∧ e.enters = none := by
  cases h with
  | deliver hphase => exact ⟨congrArg some hphase.symm, rfl⟩
  | unordered hphase => exact ⟨congrArg some hphase.symm, rfl⟩
  | abandon => exact ⟨congrArg (Option.map Call.phase) hcall, rfl⟩
  | cancelled => exact ⟨congrArg (Option.map Call.phase) hcall, rfl⟩

/-- What changes the phase of a call takes it out of one phase and puts it into the other. -/
theorem Moves.phases (h : q.Moves e c c' l) :
    e.leaves q = some c.phase ∧ e.enters = some c'.phase := by
  cases h with
  | start hphase => exact ⟨congrArg some hphase.symm, rfl⟩
  | hold hphase => exact ⟨congrArg some hphase.symm, rfl⟩
  | @rest _ outcome hphase hretried =>
    refine ⟨congrArg some hphase.symm, ?_⟩
    cases outcome with
    | retry => rfl
    | failure => rfl
    | success => cases hretried
    | successUnordered => cases hretried
  | wake hphase => exact ⟨congrArg some hphase.symm, rfl⟩

/-! ## The counters -/

/-- A counter that counts an executing call is not zero. -/
theorem Sound.executing_pos (h : q.Sound) (hc : c ∈ q.calls) (hphase : c.phase = .executing) :
    0 < q.ledger.executing := by
  rw [h.agrees.executing, List.countP_pos_iff]
  exact ⟨c, hc, decide_eq_true hphase⟩

theorem Sound.pendingResults_pos (h : q.Sound) (hc : c ∈ q.calls) (hphase : c.phase = .finished) :
    0 < q.ledger.pendingResults := by
  rw [h.agrees.pendingResults, List.countP_pos_iff]
  exact ⟨c, hc, decide_eq_true hphase⟩

/-- Releasing a call takes one off the counter of its phase. -/
theorem Sound.release_counters (h : q.Sound) (hc : c ∈ q.calls) :
    (q.ledger.release c.seq c.phase).executing + tally .executing (some c.phase) =
        q.ledger.executing ∧
      (q.ledger.release c.seq c.phase).pendingResults + tally .finished (some c.phase) =
        q.ledger.pendingResults := by
  have hexecuting := h.executing_pos hc
  have hpending := h.pendingResults_pos hc
  cases hphase : c.phase with
  | waiting => exact ⟨rfl, rfl⟩
  | asleep => exact ⟨rfl, rfl⟩
  | executing => exact ⟨Nat.sub_add_cancel (hexecuting hphase), rfl⟩
  | finished => exact ⟨rfl, Nat.sub_add_cancel (hpending hphase)⟩

/-- A change of phase takes one off the counter of the old phase and adds one to that of the new. -/
theorem Sound.move_counters (h : q.Sound) (hc : c ∈ q.calls) (hmoves : q.Moves e c c' l) :
    l.executing + tally .executing (some c.phase) =
        q.ledger.executing + tally .executing (some c'.phase) ∧
      l.pendingResults + tally .finished (some c.phase) =
        q.ledger.pendingResults + tally .finished (some c'.phase) := by
  have hexecuting := h.executing_pos hc
  cases hmoves with
  | start hphase =>
    rw [hphase]
    exact ⟨rfl, rfl⟩
  | hold hphase =>
    rw [hphase]
    exact ⟨Nat.sub_add_cancel (hexecuting hphase), rfl⟩
  | rest hphase =>
    rw [hphase]
    exact ⟨Nat.sub_add_cancel (hexecuting hphase), rfl⟩
  | wake hphase =>
    rw [hphase]
    exact ⟨rfl, rfl⟩

/-- The counters follow the phases: what an event takes off and what it adds is one for the phase it
ends and one for the phase it begins. -/
theorem Sound.counters_step (h : q.Sound) (hstep : q.step? e = some q') :
    q'.ledger.executing + tally .executing (e.leaves q) =
        q.ledger.executing + tally .executing e.enters ∧
      q'.ledger.pendingResults + tally .finished (e.leaves q) =
        q.ledger.pendingResults + tally .finished e.enters := by
  rcases step?_cases hstep with
    ⟨rfl, rfl⟩ | ⟨rfl, rfl⟩ | ⟨c, hc, hends, rfl⟩ | ⟨c, hc, c', l, hmoves, rfl⟩
  · exact ⟨rfl, rfl⟩
  · exact ⟨rfl, rfl⟩
  · obtain ⟨hleaves, henters⟩ := hends.phases (h.call?_eq_some hc)
    rw [hleaves, henters]
    exact h.release_counters hc
  · obtain ⟨hleaves, henters⟩ := hmoves.phases
    rw [hleaves, henters]
    exact h.move_counters hc hmoves

/-! ## Sequence numbers -/

/-- The numbers that a run gives out, in the order in which it does. -/
def numbers : Queue → List Event → List Nat
  | _, [] => []
  | q, e :: es =>
    (if e = .submit then [q.submit.1] else []) ++ ((q.step? e).elim [] fun r => r.numbers es)

/-- An event moves the next number on by the one it gives out. -/
theorem nextSeq_step (hstep : q.step? e = some q') :
    q'.ledger.nextSeq = q.ledger.nextSeq + if e = .submit then 1 else 0 := by
  rcases step?_cases hstep with
    ⟨rfl, rfl⟩ | ⟨rfl, rfl⟩ | ⟨c, -, hends, rfl⟩ | ⟨c, -, c', l, hmoves, rfl⟩
  · rfl
  · rfl
  · cases hends <;> rfl
  · cases hmoves <;> rfl

/-- The numbers that are given out follow each other. -/
theorem numbers_eq_range' {es : List Event} (h : q.run? es = some q') :
    q.numbers es = List.range' q.ledger.nextSeq (q'.ledger.nextSeq - q.ledger.nextSeq) ∧
      q.ledger.nextSeq ≤ q'.ledger.nextSeq := by
  induction es generalizing q with
  | nil =>
    cases h
    rw [Nat.sub_self]
    exact ⟨rfl, le_rfl⟩
  | cons e rest ih =>
    rw [run?, List.foldlM_cons] at h
    obtain ⟨r, hr, hrest⟩ := Option.bind_eq_some_iff.mp h
    obtain ⟨hnumbers, hle⟩ := ih hrest
    have hnext := nextSeq_step hr
    rw [numbers, hr, Option.elim_some, hnumbers]
    by_cases hsubmit : e = .submit
    · rw [if_pos hsubmit] at hnext ⊢
      refine ⟨?_, by omega⟩
      have hsplit : q'.ledger.nextSeq - q.ledger.nextSeq =
          1 + (q'.ledger.nextSeq - r.ledger.nextSeq) := by omega
      rw [hsplit, ← List.range'_append_1, hnext]
      rfl
    · rw [if_neg hsubmit, Nat.add_zero] at hnext
      rw [if_neg hsubmit, hnext, List.nil_append]
      exact ⟨rfl, by omega⟩

/-! ## The books -/

/-- Every queue that a run leads to is sound. -/
theorem sound_of_run? {config : QueueConfig} {es : List Event}
    (h : (empty config).run? es = some q) : q.Sound :=
  run?_induction (P := fun _ q => q.Sound) (sound_empty config)
    (fun _ _ _ _ hq hstep => hq.step hstep) h

/-- The ledger of a queue without live calls is that of a new queue, but for the next number. -/
theorem Sound.ledger_of_no_calls (h : q.Sound) (hnone : q.calls = []) :
    q.ledger = { Ledger.empty with nextSeq := q.ledger.nextSeq } := by
  have hagrees := h.agrees
  rw [hnone] at hagrees
  have hwaiting : q.ledger.waiting = [] := by
    refine List.eq_nil_iff_forall_not_mem.mpr fun n hn => ?_
    obtain ⟨c, hc, -⟩ := (hagrees.mem_waiting n).mp hn
    cases hc
  have hstarted : q.ledger.started = [] := by
    refine List.eq_nil_iff_forall_not_mem.mpr fun n hn => ?_
    obtain ⟨c, hc, -⟩ := (hagrees.mem_started n).mp hn
    cases hc
  have hexecuting : q.ledger.executing = 0 := hagrees.executing
  have hpending : q.ledger.pendingResults = 0 := hagrees.pendingResults
  generalize q.ledger = l at hwaiting hstarted hexecuting hpending ⊢
  obtain ⟨nextSeq, waiting, started, executing, pendingResults⟩ := l
  cases hwaiting
  cases hstarted
  cases hexecuting
  cases hpending
  rfl

/-- **The books are exact.**  At every point of every run the counters count the calls that execute
and those that wait with a result, the lists hold the numbers of the calls that wait to start and of
those that have started, and no number is given out twice.  Whatever happens next takes off no more
than there is, and when no call is left nothing is left of any. -/
theorem books_exact {config : QueueConfig} {es : List Event}
    (h : (empty config).run? es = some q) :
    q.ledger.executing = q.calls.countP (fun c => c.phase = .executing) ∧
      q.ledger.pendingResults = q.calls.countP (fun c => c.phase = .finished) ∧
      (q.ledger.waiting.Nodup ∧
        ∀ n, n ∈ q.ledger.waiting ↔ ∃ c ∈ q.calls, c.seq = n ∧ c.phase = .waiting) ∧
      (q.ledger.started.Nodup ∧ ∀ n, n ∈ q.ledger.started ↔
        ∃ c ∈ q.calls, c.seq = n ∧ (c.phase = .executing ∨ c.phase = .finished)) ∧
      (((empty config).numbers es).Nodup ∧ (q.calls.map (·.seq)).Nodup ∧
        ∀ c ∈ q.calls, c.seq ∈ (empty config).numbers es) ∧
      (∀ e q', q.step? e = some q' →
        q'.ledger.executing + tally .executing (e.leaves q) =
            q.ledger.executing + tally .executing e.enters ∧
          q'.ledger.pendingResults + tally .finished (e.leaves q) =
            q.ledger.pendingResults + tally .finished e.enters) ∧
      (q.calls = [] → q.ledger = { Ledger.empty with nextSeq := q.ledger.nextSeq }) := by
  have hsound := sound_of_run? h
  have hagrees := hsound.agrees
  have hdistinct : ∀ {ns : List Nat}, ns.Pairwise (· < ·) → ns.Nodup := fun hns =>
    hns.imp fun hlt => Nat.ne_of_lt hlt
  have hnumbers : (empty config).numbers es = List.range' 0 q.ledger.nextSeq :=
    (numbers_eq_range' h).1
  refine ⟨hagrees.executing, hagrees.pendingResults,
    ⟨hdistinct hagrees.sorted_waiting, hagrees.mem_waiting⟩,
    ⟨hdistinct hagrees.sorted_started, fun n => ?_⟩, ⟨?_, hdistinct hagrees.ascending, ?_⟩,
    fun e q' hstep => hsound.counters_step hstep, hsound.ledger_of_no_calls⟩
  · rw [hagrees.mem_started]
    refine exists_congr fun c => and_congr_right fun _ => and_congr_right fun _ => ?_
    cases c.phase <;> simp [CallPhase.isStarted]
  · rw [hnumbers]
    exact List.nodup_range'
  · intro c hc
    rw [hnumbers, List.mem_range'_1]
    exact ⟨Nat.zero_le _, (Nat.zero_add _).symm ▸ hagrees.lt_nextSeq c hc⟩

/-- Three calls, of which one is abandoned while it executes and one is cancelled while it waits
with its result. -/
def interrupted : List Event :=
  [.submit, .submit, .submit, .start 0, .start 1, .endAttempt 1 .success, .cancel, .start 2,
    .abandon 0, .endCancelled 1]

/-- What that leaves. -/
def afterInterrupted : Queue where
  config := .standard
  ledger := ⟨3, [], [2], 1, 0⟩
  calls := [⟨2, .executing, .ofSeconds 15, 1⟩]
  cancelled := true

/-- There one attempt is on the books and no result, and both have been counted down once. -/
theorem books_exact_interrupted :
    (empty .standard).run? interrupted = some afterInterrupted ∧
      afterInterrupted.ledger.executing =
        afterInterrupted.calls.countP (fun c => c.phase = .executing) ∧
      afterInterrupted.ledger.pendingResults =
        afterInterrupted.calls.countP (fun c => c.phase = .finished) ∧
      ((empty .standard).numbers interrupted).Nodup := by
  have hrun : (empty .standard).run? interrupted = some afterInterrupted := rfl
  obtain ⟨hexecuting, hpending, -, -, hnumbers, -, -⟩ := books_exact hrun
  exact ⟨hrun, hexecuting, hpending, hnumbers.1⟩

end Queue
end Automation
