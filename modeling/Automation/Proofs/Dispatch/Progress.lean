import Automation.Proofs.Dispatch.Settling
import Automation.Proofs.Dispatch.Wakeups
import Automation.Settings.Basic

/-!
# The queue never comes to a standstill

A gate that is open and nobody who passes it is one way to stand still, and calls that wait for each
other in a circle is another.  `no_standstill` excludes both, for every configuration that settings
can give.  Something can always go on while a call is alive, which is a statement about the queue.
And what can go on does, which is one about whoever waits: in any order of wake-ups, and on a time
line, a queue that has settled has shut its gates, and then a call executes or sleeps.
-/

namespace Automation
namespace Queue

variable {config : QueueConfig} {q : Queue}

/-- Where no gate is open for anybody, a call that is alive is at work or another one is. -/
theorem works_of_shut (hconcurrent : 0 < config.maxConcurrent) (hpending : 0 < config.maxPending)
    {es : List Event} (h : (empty config).run? es = some q)
    (hshut : ∀ seq, q.pass? seq = none) (hlive : q.calls ≠ []) :
    ∃ c ∈ q.calls, c.phase = .executing ∨ c.phase = .asleep := by
  have hsound := sound_of_run? h
  have hconfig := config_of_run? h
  rcases hsound.some_call_goes_on (hconfig ▸ hconcurrent) (hconfig ▸ hpending) hlive with
    ⟨c, hc, hphase⟩ | ⟨c, hc, hphase⟩ | ⟨c, hc, hopen⟩
  · exact ⟨c, hc, Or.inl hphase⟩
  · exact ⟨c, hc, Or.inr hphase⟩
  · exact absurd (hshut c.seq) (hsound.pass?_of_isOpenFor hc hopen)

/-- **No standstill.**  Take any configuration that settings can give.  At every point of every run,
if a call is alive, then one executes, or one sleeps, or the start gate is open for the smallest
number that waits, or the return gate is open for a finished call.  When a watched queue has settled,
no call could start or return, and a live call means that one executes or sleeps.  The same is true
of a time line when nobody is in line. -/
theorem no_standstill {r : RetrySettings} {config : QueueConfig} (h : r.queueConfig = .ok config) :
    (∀ es q, (empty config).run? es = some q → q.calls ≠ [] →
      (∃ c ∈ q.calls, c.phase = .executing) ∨ (∃ c ∈ q.calls, c.phase = .asleep) ∨
        (∃ c ∈ q.calls, c.phase = .waiting ∧ (∀ d ∈ q.calls, d.phase = .waiting → c.seq ≤ d.seq) ∧
          q.ledger.canStart config c.seq = true) ∨
        ∃ c ∈ q.calls, c.phase = .finished ∧ q.ledger.canReturn c.seq = true) ∧
    (∀ as w, (Watched.empty config).acts? as = some w → w.IsSettled →
      (∀ seq, w.queue.start? seq = none ∧ w.queue.return? seq = none) ∧
        (w.queue.calls ≠ [] →
          ∃ c ∈ w.queue.calls, c.phase = .executing ∨ c.phase = .asleep)) ∧
    ∀ jobs cancelAt stop n t, (Timeline.start config jobs cancelAt).runUntil stop n = t →
      t.line = [] →
      (∀ seq, t.queue.start? seq = none ∧ t.queue.return? seq = none) ∧
        (t.queue.calls ≠ [] → ∃ c ∈ t.queue.calls, c.phase = .executing ∨ c.phase = .asleep) := by
  obtain ⟨hconcurrent, hpending⟩ := RetrySettings.limits_pos h
  refine ⟨?_, ?_, ?_⟩
  · intro es q hrun hlive
    have hsound := sound_of_run? hrun
    have hconfig := config_of_run? hrun
    rcases hsound.some_call_goes_on (hconfig ▸ hconcurrent) (hconfig ▸ hpending) hlive with
      hexecutes | hsleeps | ⟨c, hc, hopen⟩
    · exact Or.inl hexecutes
    · exact Or.inr (Or.inl hsleeps)
    · cases hopen with
      | start hphase hgate =>
        exact Or.inr (Or.inr (Or.inl
          ⟨c, hc, hphase, hsound.le_of_canStart hgate, hconfig ▸ hgate⟩))
      | deliver hphase hgate => exact Or.inr (Or.inr (Or.inr ⟨c, hc, hphase, hgate⟩))
  · intro as w hacts hsettled
    have hshut := Watched.shut_of_isSettled hacts hsettled
    obtain ⟨es, hrun⟩ := Watched.run?_of_acts? hacts
    exact ⟨fun seq => pass?_eq_none_iff.mp (hshut seq),
      works_of_shut hconcurrent hpending hrun hshut⟩
  · rintro jobs cancelAt stop n t rfl hline
    have hkept := (Timeline.kept_start config jobs cancelAt).runUntil stop n
    have hshut := hkept.shut_of_line_nil hline
    obtain ⟨es, hrun⟩ := hkept.linked.reached
    exact ⟨fun seq => pass?_eq_none_iff.mp (hshut seq),
      works_of_shut hconcurrent hpending hrun hshut⟩

/-- One at once and room for one result. -/
def strict : RetrySettings := ⟨1, 1, 15, 60⟩

/-- Such a queue. -/
def strictConfig : QueueConfig := ⟨1, 1, .ofSeconds 15, .ofSeconds 60⟩

/-- The first call is tried again while the second one finishes, and waits ahead of everybody when
the only room for a result is taken. -/
def overtaken : List Event :=
  [.submit, .submit, .submit, .start 0, .endAttempt 0 .failure, .start 1, .endAttempt 1 .success,
    .wake 0]

/-- What that leads to. -/
def afterOvertaken : Queue where
  config := strictConfig
  ledger := ⟨3, [0, 2], [1], 0, 1⟩
  calls := [⟨0, .waiting, .ofSeconds 30, 1⟩, ⟨1, .finished, .ofSeconds 15, 1⟩,
    ⟨2, .waiting, .ofSeconds 15, 0⟩]
  cancelled := false

/-- The second call tries the start gate before the first one starts, and again when it is woken by
that. -/
def parking : List Act :=
  [.happen .submit, .happen .submit, .note 1, .attempt 1, .note 0, .attempt 0, .note 1, .attempt 1]

/-- Two operations, of which the first never ends. -/
def stuckJobs : List Job :=
  [⟨"first", 0, none, [⟨0, none⟩]⟩, ⟨"second", 0, none, [⟨5, some .success⟩]⟩]

/-- There the start gate is shut for the call that comes first, and the return gate is open.  The
call that parks does so at a gate that is shut, and while the first operation executes the second one
waits outside the line. -/
theorem no_standstill_strict :
    strict.queueConfig = .ok strictConfig ∧
      ((empty strictConfig).run? overtaken = some afterOvertaken ∧
        afterOvertaken.ledger.canStart strictConfig 0 = false ∧
        ∃ c ∈ afterOvertaken.calls,
          c.phase = .finished ∧ afterOvertaken.ledger.canReturn c.seq = true) ∧
      (∃ w, (Watched.empty strictConfig).acts? parking = some w ∧ w.IsSettled ∧
        w.isAtGate 1 = true ∧ w.queue.start? 1 = none) ∧
      ∃ t, (Timeline.start strictConfig stuckJobs none).runUntil 10 20 = t ∧ t.line = [] ∧
        t.queue.calls.map (·.phase) = [.executing, .waiting] ∧ t.queue.start? 1 = none := by
  have hconfig : strict.queueConfig = .ok strictConfig := rfl
  obtain ⟨hruns, hsettles, hlines⟩ := no_standstill hconfig
  refine ⟨hconfig, ⟨rfl, rfl, ?_⟩, ?_, ?_⟩
  · rcases hruns overtaken afterOvertaken rfl (by decide) with h | h | h | h
    · exact absurd h (by decide)
    · exact absurd h (by decide)
    · exact absurd h (by decide)
    · exact h
  · obtain ⟨w, hw, hsettled, hgate⟩ : ∃ w, (Watched.empty strictConfig).acts? parking = some w ∧
        w.IsSettled ∧ w.isAtGate 1 = true := by
      refine ⟨_, rfl, ?_, rfl⟩
      rintro (_ | _ | n)
      · exact ⟨rfl, rfl⟩
      · exact ⟨rfl, rfl⟩
      · exact ⟨rfl, rfl⟩
    exact ⟨w, hw, hsettled, hgate, ((hsettles parking w hw hsettled).1 1).1⟩
  · exact ⟨_, rfl, rfl, rfl, ((hlines stuckJobs none 10 20 _ rfl rfl).1 1).1⟩

end Queue
end Automation
