import Automation.Dispatch.Queue
import Mathlib.Data.List.Induction

/-!
# Runs of the queue

A queue knows transitions and no time, so a run is a list of events, each the name of a transition
and the call it happens to.  Who drives the queue decides which event comes next; nothing here
assumes that it is done fairly, or in time, or at all.  An event that finds its gate closed, or its
call in another phase, cannot happen, and a list with such an event is no run.

A cancelled queue does not stop: its calls notice at different moments, so cancelling and the end of
a cancelled call are two events, with anything in between.

## What an event does

`step?_cases` says once what the events do: a call comes, a call goes, a call that stays changes its
phase (`Moves`), or nothing happens but the cancellation.  An invariant is proved against these four
and opens no transition.
-/

namespace Automation

/-- Whether the operation will be tried again. -/
def AttemptEnd.isRetried : AttemptEnd → Bool
  | .retry _ | .failure => true
  | .success | .successUnordered => false

namespace Queue

/-- What can happen to a queue. -/
inductive Event where
  | submit
  | start (seq : Nat)
  | endAttempt (seq : Nat) (outcome : AttemptEnd)
  /-- A result that kept the order is handed back. -/
  | deliver (seq : Nat)
  | wake (seq : Nat)
  | abandon (seq : Nat)
  | cancel
  | endCancelled (seq : Nat)
  deriving DecidableEq, Repr

/-- The queue after an event, if the event can happen. -/
def step? (q : Queue) : Event → Option Queue
  | .submit => some q.submit.2
  | .start seq => q.start? seq
  | .endAttempt seq outcome => (q.endAttempt? seq outcome).map (·.2)
  | .deliver seq => q.return? seq
  | .wake seq => q.wake? seq
  | .abandon seq => q.abandon? seq
  | .cancel => some q.cancel
  | .endCancelled seq => q.endCancelled? seq

/-- The queue after some events, if they can happen one after another. -/
def run? (q : Queue) (es : List Event) : Option Queue := es.foldlM step? q

@[simp] theorem run?_nil (q : Queue) : q.run? [] = some q := rfl

theorem run?_concat (q : Queue) (es : List Event) (e : Event) :
    q.run? (es ++ [e]) = (q.run? es).bind fun r => r.step? e := by
  rw [run?, List.foldlM_append]
  show (q.run? es).bind (fun r => List.foldlM step? r [e]) = _
  refine congrArg (Option.bind _) (funext fun r => ?_)
  show (r.step? e).bind some = r.step? e
  exact Option.bind_fun_some _

/-- What holds at the beginning and survives every event holds after every run, together with the
events that led there. -/
theorem run?_induction {config : QueueConfig} {P : List Event → Queue → Prop}
    (hempty : P [] (empty config))
    (hstep : ∀ es q e q', P es q → q.step? e = some q' → P (es ++ [e]) q') {es : List Event}
    {q : Queue} (h : (empty config).run? es = some q) : P es q := by
  induction es using List.reverseRecOn generalizing q with
  | nil =>
    cases h
    exact hempty
  | append_singleton es e ih =>
    rw [run?_concat, Option.bind_eq_some_iff] at h
    obtain ⟨r, hr, hlast⟩ := h
    exact hstep es r e q (ih hr) hlast

/-! ## Finding calls -/

theorem mem_of_call? {q : Queue} {seq : Nat} {c : Call} (h : q.call? seq = some c) :
    c ∈ q.calls ∧ c.seq = seq :=
  ⟨List.mem_of_find?_eq_some h, by simpa using List.find?_some h⟩

theorem mem_of_callIn? {q : Queue} {phase : CallPhase} {seq : Nat} {c : Call}
    (h : q.callIn? phase seq = some c) : c ∈ q.calls ∧ c.seq = seq ∧ c.phase = phase := by
  rw [callIn?, Option.filter_eq_some_iff] at h
  obtain ⟨hcall, hphase⟩ := h
  obtain ⟨hmem, hseq⟩ := mem_of_call? hcall
  exact ⟨hmem, hseq, of_decide_eq_true hphase⟩

/-! ## What an event does -/

/-- How an event changes the phase of a call that stays, and the ledger with it. -/
inductive Moves (q : Queue) : Event → Call → Call → Ledger → Prop where
  | start {c : Call} (phase : c.phase = .waiting) (gate : q.ledger.canStart q.config c.seq = true) :
    Moves q (.start c.seq) c { c with phase := .executing, starts := c.starts + 1 }
      (q.ledger.start c.seq)
  | hold {c : Call} (phase : c.phase = .executing) :
    Moves q (.endAttempt c.seq .success) c { c with phase := .finished }
      q.ledger.endAttempt.holdResult
  | rest {c : Call} {outcome : AttemptEnd} (phase : c.phase = .executing)
      (retried : outcome.isRetried = true) :
    Moves q (.endAttempt c.seq outcome) c
      { c with phase := .asleep, backoff := q.config.nextBackoff c.backoff }
      (q.ledger.endAttempt.suspend c.seq)
  | wake {c : Call} (phase : c.phase = .asleep) :
    Moves q (.wake c.seq) c { c with phase := .waiting } (q.ledger.requeue c.seq)

/-- How an event ends a call. -/
inductive Ends (q : Queue) : Event → Call → Prop where
  | deliver {c : Call} (phase : c.phase = .finished) (gate : q.ledger.canReturn c.seq = true) :
    Ends q (.deliver c.seq) c
  | unordered {c : Call} (phase : c.phase = .executing) :
    Ends q (.endAttempt c.seq .successUnordered) c
  | abandon {c : Call} : Ends q (.abandon c.seq) c
  | cancelled {c : Call} (hcancelled : q.cancelled = true) : Ends q (.endCancelled c.seq) c

theorem Moves.seq_eq {q : Queue} {e : Event} {c c' : Call} {l : Ledger} (h : q.Moves e c c' l) :
    c'.seq = c.seq := by
  cases h <;> rfl

/-- Handing back a result ends a finished call that the return gate is open for. -/
theorem finished_of_return? {q q' : Queue} {seq : Nat} (h : q.return? seq = some q') :
    ∃ c ∈ q.calls, c.seq = seq ∧ c.phase = .finished ∧ q.ledger.canReturn seq = true ∧
      q' = q.discard c := by
  rw [return?] at h
  split at h
  · next c hc =>
    obtain ⟨hmem, hseq, hphase⟩ := mem_of_callIn? hc
    split at h
    · next hgate => exact ⟨c, hmem, hseq, hphase, hgate, (Option.some.inj h).symm⟩
    · cases h
  · cases h

/-- An event submits a call, cancels the queue, ends a call, or changes the phase of one. -/
theorem step?_cases {q q' : Queue} {e : Event} (h : q.step? e = some q') :
    (e = .submit ∧ q' = q.submit.2) ∨ (e = .cancel ∧ q' = q.cancel) ∨
      (∃ c ∈ q.calls, q.Ends e c ∧ q' = q.discard c) ∨
      ∃ c ∈ q.calls, ∃ c' l, q.Moves e c c' l ∧
        q' = { q with ledger := l, calls := q.withCall c' } := by
  cases e with
  | submit => exact Or.inl ⟨rfl, (Option.some.inj h).symm⟩
  | cancel => exact Or.inr (Or.inl ⟨rfl, (Option.some.inj h).symm⟩)
  | start seq =>
    rw [step?, start?] at h
    split at h
    · next c hc =>
      obtain ⟨hmem, rfl, hphase⟩ := mem_of_callIn? hc
      split at h
      · next hgate =>
        exact Or.inr (Or.inr (Or.inr ⟨c, hmem, _, _, .start hphase hgate, (Option.some.inj h).symm⟩))
      · cases h
    · cases h
  | endAttempt seq outcome =>
    rw [step?, endAttempt?] at h
    split at h
    · cases h
    · next c hc =>
      obtain ⟨hmem, rfl, hphase⟩ := mem_of_callIn? hc
      cases outcome with
      | success =>
        exact Or.inr (Or.inr (Or.inr ⟨c, hmem, _, _, .hold hphase, (Option.some.inj h).symm⟩))
      | successUnordered =>
        exact Or.inr (Or.inr (Or.inl ⟨c, hmem, .unordered hphase, (Option.some.inj h).symm⟩))
      | retry after =>
        exact Or.inr (Or.inr (Or.inr ⟨c, hmem, _, _, .rest hphase rfl, (Option.some.inj h).symm⟩))
      | failure =>
        exact Or.inr (Or.inr (Or.inr ⟨c, hmem, _, _, .rest hphase rfl, (Option.some.inj h).symm⟩))
  | deliver seq =>
    obtain ⟨c, hmem, rfl, hphase, hgate, hq⟩ := finished_of_return? h
    exact Or.inr (Or.inr (Or.inl ⟨c, hmem, .deliver hphase hgate, hq⟩))
  | wake seq =>
    rw [step?, wake?] at h
    split at h
    · next c hc =>
      obtain ⟨hmem, rfl, hphase⟩ := mem_of_callIn? hc
      exact Or.inr (Or.inr (Or.inr ⟨c, hmem, _, _, .wake hphase, (Option.some.inj h).symm⟩))
    · cases h
  | abandon seq =>
    rw [step?, abandon?, Option.map_eq_some_iff] at h
    obtain ⟨c, hc, rfl⟩ := h
    obtain ⟨hmem, rfl⟩ := mem_of_call? hc
    exact Or.inr (Or.inr (Or.inl ⟨c, hmem, .abandon, rfl⟩))
  | endCancelled seq =>
    rw [step?, endCancelled?] at h
    split at h
    · next hcancelled =>
      rw [abandon?, Option.map_eq_some_iff] at h
      obtain ⟨c, hc, rfl⟩ := h
      obtain ⟨hmem, rfl⟩ := mem_of_call? hc
      exact Or.inr (Or.inr (Or.inl ⟨c, hmem, .cancelled hcancelled, rfl⟩))
    · cases h

end Queue
end Automation
