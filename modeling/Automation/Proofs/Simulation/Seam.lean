import Automation.Proofs.Simulation.Stepping

/-!
# Beginning again

A simulation that begins with the constraints, the schedules and the clock of one that has come to
its end agrees with it on everything a step goes by.  The limiter is new and the processor is new,
but reconciling and restoring find nothing to change, because the first simulation left the
definitions as the list has them and the progress of exactly these schedules.

* `exists_opening`: what a simulation begins with, over any tables that can be read.
* `Agrees.foldlM_step?`: two simulations that agree make the same decisions.
* `exists_reopening`: the second beginning agrees with the first end.
-/

namespace Automation
namespace Simulation

variable {cs : List Constraint} {schedules : List Schedule} {x y : Simulation}

/-! ## Agreement -/

/-- Two simulations agree on all that a step goes by. -/
structure Agrees (x y : Simulation) : Prop where
  clock : x.clock = y.clock
  paused : x.processor.paused = y.processor.paused
  tables : x.tables = y.tables

theorem Agrees.refl (x : Simulation) : x.Agrees x := ⟨rfl, rfl, rfl⟩

theorem Agrees.outcome_eq (h : x.Agrees y) (hx : x.IsRecoverable cs schedules)
    (hy : y.IsRecoverable cs schedules) (event : Event) (now : Instant) :
    x.outcome schedules event now = y.outcome schedules event now := by
  have hprogress : x.store.tables.progress = y.store.tables.progress :=
    (congrArg Tables.progress h.tables :)
  have hprepared := hy.resumed.prepared_eq hx.resumed hprogress
  unfold outcome heard
  rw [h.paused, hprepared, h.tables]

/-- The clock after steps, if it can be moved by each of them. -/
def clockAfter? (clock : Clock) (steps : List ScenarioStep) : Option Clock :=
  steps.foldlM (fun c step => c.advanceMillis? step.advanceMillis) clock

theorem clockAfter?_append (clock : Clock) (a b : List ScenarioStep) :
    clockAfter? clock (a ++ b) = (clockAfter? clock a).bind fun c => clockAfter? c b :=
  List.foldlM_append

/-- A replay is its steps and then the writing of what waits. -/
theorem replay_append {steps : List ScenarioStep} (h : steps.foldlM step? x = some y)
    (rest : List ScenarioStep) : replay (steps ++ rest) x = replay rest y := by
  induction steps generalizing x with
  | nil =>
    cases h
    rfl
  | cons step more ih =>
    rw [List.foldlM_cons] at h
    obtain ⟨next, hnext, hmore⟩ := Option.bind_eq_some_iff.mp h
    rw [List.cons_append, replay, hnext]
    exact ih hmore

theorem replay_of_foldlM {steps : List ScenarioStep} (h : steps.foldlM step? x = some y) :
    replay steps x = (.ok y.decisions, y.limiter.flush y.store) := by
  have hend := replay_append h []
  rw [List.append_nil] at hend
  exact hend

/-- **Steps.**  Simulations that agree can take the same steps, make the same decisions, and agree
afterwards. -/
theorem Agrees.foldlM_step? (h : x.Agrees y) (hx : x.IsRecoverable cs schedules)
    (hy : y.IsRecoverable cs schedules) (hresumable : ∀ schedule ∈ schedules, schedule.IsResumable)
    {steps : List ScenarioStep} (hevents : ∀ step ∈ steps, step.event.IsFinite)
    (hforward : ∀ step ∈ steps, 0 ≤ step.advanceMillis) {clock : Clock}
    (hclock : clockAfter? x.clock steps = some clock) :
    ∃ x' y' ds, steps.foldlM step? x = some x' ∧ steps.foldlM step? y = some y' ∧
      x'.Agrees y' ∧ x'.IsRecoverable cs schedules ∧ y'.IsRecoverable cs schedules ∧
      x'.clock = clock ∧ x'.processor.paused = x.processor.paused ∧
      x'.decisions = x.decisions ++ ds ∧ y'.decisions = y.decisions ++ ds := by
  induction steps generalizing x y with
  | nil =>
    refine ⟨x, y, [], rfl, rfl, h, hx, hy, Option.some.inj hclock, rfl, ?_, ?_⟩
    · rw [List.append_nil]
    · rw [List.append_nil]
  | cons step rest ih =>
    rw [List.forall_mem_cons] at hevents hforward
    rw [clockAfter?, List.foldlM_cons] at hclock
    obtain ⟨next, hnext, hrest⟩ := Option.bind_eq_some_iff.mp hclock
    obtain ⟨x₁, hstepx, hx₁, hclockx, hpausedx, hdecisionsx, htablesx⟩ :=
      step?_spec hx hresumable hevents.1 hforward.1 hnext
    obtain ⟨y₁, hstepy, hy₁, hclocky, hpausedy, hdecisionsy, htablesy⟩ :=
      step?_spec hy hresumable hevents.1 hforward.1 (h.clock ▸ hnext)
    have hagree : x₁.Agrees y₁ := by
      constructor
      · rw [hclockx, hclocky]
      · rw [hpausedx, hpausedy, h.paused]
      · rw [htablesx, htablesy, h.outcome_eq hx hy]
    obtain ⟨x', y', ds, hx', hy', hagree', hrx, hry, hclock', hpaused', hdsx, hdsy⟩ :=
      ih hagree hx₁ hy₁ hevents.2 hforward.2 (hclockx ▸ hrest)
    refine ⟨x', y', (x.outcome schedules step.event next.now).1 ++ ds, ?_, ?_, hagree', hrx, hry,
      hclock', hpaused'.trans hpausedx, ?_, ?_⟩
    · rw [List.foldlM_cons, hstepx]
      exact hx'
    · rw [List.foldlM_cons, hstepy]
      exact hy'
    · rw [hdsx, hdecisionsx, List.append_assoc]
    · rw [hdsy, hdecisionsy, h.outcome_eq hx hy, List.append_assoc]

/-! ## The beginning -/

variable {settings : Settings} {config : QueueConfig} {s : Store}

/-- **Beginning.**  Over a store that refuses nothing and tables that can be read, a simulation
comes to its steps with all that it has in memory recoverable.  Tables that hold these definitions
and progress of these schedules alone, none of it beyond a goal, are left as they are. -/
theorem exists_opening (hconfig : settings.retry.queueConfig = .ok config) (hs : s.IsReliable)
    (hreadable : s.tables.HasReadableConstraints) (hzeros : s.tables.HasPlainZeros)
    (hcs : (cs.map (·.id)).Nodup) (hkept : ∀ c ∈ cs, c.IsKept)
    (hids : (schedules.map (·.id)).Nodup)
    (hresumable : ∀ schedule ∈ schedules, schedule.IsResumable) (start : Int) :
    ∃ x : Simulation,
      (∀ steps present, run settings ⟨some start, cs, schedules, steps⟩ s present = replay steps x) ∧
      x.IsRecoverable cs schedules ∧ x.clock = .ofMillis start ∧
      x.processor.paused = settings.paused ∧ x.decisions = [] ∧
      (s.tables.HasDefinitions cs → (∀ schedule ∈ schedules, schedule.IsSettled s) →
        (∀ k, k.scheduleId ∉ schedules.map (·.id) → s.progressRow k = none) →
          x.tables = s.tables) := by
  obtain ⟨l, s₁, hset, hs₁, hdefinitions, hprogress, hsame, hsettled, hmirrors⟩ :=
    Limiter.setConstraints_empty hs hreadable hcs hkept
  have hzeros₁ : s₁.tables.HasPlainZeros := by
    unfold Tables.HasPlainZeros
    rw [hprogress]
    exact hzeros
  obtain ⟨hresumed, hreliable, hpaused, ⟨progress, htables⟩, huntouched⟩ :=
    Processor.restoreSchedules_spec hs₁ hzeros₁ hids hresumable settings.paused
      (Clock.ofMillis start).now
  refine ⟨begin config settings.paused ⟨some start, cs, schedules, []⟩ (.ofMillis start) l s₁, ?_,
    ⟨hreliable, Instant.isWhole_ofMillis start, hresumed, ?_, ?_, rfl, Queue.isIdle_empty hconfig⟩,
    rfl, hpaused, rfl, ?_⟩
  · intro steps present
    unfold run
    simp only [hset, hconfig]
    rfl
  · exact (hmirrors _).of_tables (congrArg Tables.constraints htables :)
      (congrArg Tables.occurrences htables :)
  · exact hdefinitions.congr (congrArg Tables.constraints htables :)
  · intro hdefined hall hnone
    have hbefore := hsame hdefined
    have hrow : ∀ k, s₁.progressRow k = s.progressRow k := fun k => by
      rw [Store.progressRow, Store.progressRow, hbefore]
    have hafter := huntouched (fun schedule hschedule => (hall schedule hschedule).congr
      fun k _ => hrow k) fun k hk => (hrow k).trans (hnone k hk)
    have hrestored : (begin config settings.paused ⟨some start, cs, schedules, []⟩ (.ofMillis start)
        l s₁).tables = l.settled s₁ := by
      unfold tables Limiter.settled
      rw [← hafter]
      rfl
    rw [hrestored, hsettled, hbefore]

/-- **Beginning again.**  Where a simulation has come to its end, another one that begins at that
time agrees with it. -/
theorem exists_reopening (hx : x.IsRecoverable cs schedules)
    (hconfig : settings.retry.queueConfig = .ok config)
    (hpaused : x.processor.paused = settings.paused) (hcs : (cs.map (·.id)).Nodup)
    (hkept : ∀ c ∈ cs, c.IsKept) (hids : (schedules.map (·.id)).Nodup)
    (hresumable : ∀ schedule ∈ schedules, schedule.IsResumable) :
    ∃ y : Simulation,
      (∀ steps present, run settings ⟨some x.clock.now.toMillis, cs, schedules, steps⟩
        (x.limiter.flush x.store).2 present = replay steps y) ∧
      y.IsRecoverable cs schedules ∧ x.Agrees y ∧ y.decisions = [] := by
  obtain ⟨htables, hallows⟩ := hx.mirrors.flush (hx.reliable _)
  generalize (x.limiter.flush x.store).2 = s at *
  have hrow : ∀ k, s.progressRow k = x.store.progressRow k := fun k => by
    rw [Store.progressRow, Store.progressRow, htables]
    rfl
  have hdefined : s.tables.HasDefinitions cs :=
    hx.definitions.congr (congrArg Tables.constraints htables :)
  have hzeros : s.tables.HasPlainZeros := fun k row h =>
    hx.resumed.zeros k row ((hrow k).symm.trans h)
  obtain ⟨y, hrun, hy, hclock, hpaused', hnone, hsame⟩ := exists_opening hconfig
    (fun op => (hallows op).mpr (hx.reliable op)) hdefined.hasReadableConstraints hzeros hcs hkept
    hids hresumable x.clock.now.toMillis
  refine ⟨y, hrun, hy, ⟨?_, ?_, ?_⟩, hnone⟩
  · rw [hclock, Clock.ofMillis_toMillis hx.whole]
  · rw [hpaused', hpaused]
  · have hsettled : ∀ schedule ∈ schedules, schedule.IsSettled s := fun schedule hschedule =>
      (hx.resumed.settled schedule hschedule).congr fun k _ => hrow k
    rw [hsame hdefined hsettled fun k hk => (hrow k).trans (hx.resumed.rows k hk), htables]
    rfl

end Simulation
end Automation
