import Automation.Proofs.Simulation.Leftovers
import Automation.Proofs.Simulation.Plain
import Automation.Proofs.Simulation.Seam

/-!
# Splitting a simulation

A scenario can be interrupted between any two of its steps.  A first simulation replays what comes
before and a second one, which knows the store and the time and nothing else, replays what comes
after, and together they decide what one simulation of the whole scenario decides.

## What has to be ruled out

* Moves that go back.  A cache drops what has left the window, and time that is given back would
  bring it in again for whoever reads the history anew.
* A range beyond what a row holds.  It is stored shortened, so the next simulation finds a changed
  definition and clears its history.
* Schedules, triggers or constraints of one id.  The last of them is all that a row remembers.
* Cancellation triggers that listen from the beginning.  They begin anew with each simulation.

None of this is needed of the scenarios that the store has been through before.
-/

namespace Automation

/-! ## Scenarios that can be split -/

namespace Scenario

/-- A scenario that can be split. -/
structure IsDivisible (scenario : Scenario) : Prop where
  constraintIds : (scenario.constraints.map (·.id)).Nodup
  ranges : ∀ c ∈ scenario.constraints, c.range.toMillis ≤ Tables.longestRange
  scheduleIds : (scenario.schedules.map (·.id)).Nodup
  triggerIds : ∀ schedule ∈ scenario.schedules,
    ((schedule.triggers ++ schedule.cancellationTriggers).map (·.id)).Nodup
  cancellations : ∀ schedule ∈ scenario.schedules,
    schedule.state = .triggered ∨ schedule.state = .prepared → schedule.cancellationTriggers = []
  forward : ∀ step ∈ scenario.steps, 0 ≤ step.advanceMillis

variable {scenario : Scenario}

theorem isKept_of_isPlain (hplain : scenario.IsPlain) (hdivisible : scenario.IsDivisible) :
    ∀ c ∈ scenario.constraints, c.IsKept := by
  intro c hc
  obtain ⟨millis, hrange⟩ := hplain.ranges c hc
  have hlongest := hdivisible.ranges c hc
  rw [hrange, Span.toMillis_ofMillis] at hlongest
  exact ⟨⟨millis, hlongest, hrange⟩, hplain.counts c hc⟩

theorem isResumable_of_isPlain (hplain : scenario.IsPlain) (hdivisible : scenario.IsDivisible) :
    ∀ schedule ∈ scenario.schedules, schedule.IsResumable := by
  intro schedule hschedule
  constructor
  · have hids : schedule.definitions.map (·.1.id) =
        (schedule.triggers ++ schedule.cancellationTriggers).map (·.id) := by
      simp [Schedule.definitions, Function.comp_def]
    rw [hids]
    exact hdivisible.triggerIds schedule hschedule
  · intro d hd henables
    rcases List.mem_append.mp hd with hd | hd
    · obtain ⟨t, -, rfl⟩ := List.mem_map.mp hd
      rfl
    · obtain ⟨t, ht, rfl⟩ := List.mem_map.mp hd
      have hstate : schedule.state = .triggered ∨ schedule.state = .prepared := by
        cases hs : schedule.state <;> simp_all [ScheduleState.enables]
      rw [hdivisible.cancellations schedule hschedule hstate] at ht
      cases ht
  · intro d hd hnan
    have hmem : d.1 ∈ schedule.triggers ++ schedule.cancellationTriggers := by
      rcases List.mem_append.mp hd with hd | hd
      · obtain ⟨t, ht, rfl⟩ := List.mem_map.mp hd
        exact List.mem_append_left _ ht
      · obtain ⟨t, ht, rfl⟩ := List.mem_map.mp hd
        exact List.mem_append_right _ ht
    have hfinite := hplain.goals schedule hschedule d.1 hmem
    rw [hnan] at hfinite
    cases hfinite

end Scenario

/-! ## The two halves -/

namespace Simulation

/-- **Splitting a simulation.**  Over any tables that earlier simulations can have left, the
decisions of a scenario are those of its first steps followed by those of a new simulation of the
others, which begins on the store and at the time at which the first one ended.  The tables it
leaves are those of the whole scenario. -/
theorem run_steps_append {settings : Settings} {config : QueueConfig}
    (hconfig : settings.retry.queueConfig = .ok config) {s : Store} (hs : s.IsReliable)
    (hleftover : s.tables.IsLeftover) {scenario : Scenario} (hplain : scenario.IsPlain)
    (hdivisible : scenario.IsDivisible) {start : Int} (hstart : scenario.startMillis = some start)
    {a b : List ScenarioStep} (hsteps : scenario.steps = a ++ b)
    (hclock : (clockAfter? (.ofMillis start) scenario.steps).isSome = true)
    (present later whole : Instant) :
    ∃ seam da db, clockAfter? (.ofMillis start) a = some seam ∧
      (run settings { scenario with steps := a } s present).1 = .ok da ∧
      (run settings { scenario with startMillis := some seam.now.toMillis, steps := b }
        (run settings { scenario with steps := a } s present).2.2 later).1 = .ok db ∧
      (run settings scenario s whole).1 = .ok (da ++ db) ∧
      (run settings { scenario with startMillis := some seam.now.toMillis, steps := b }
        (run settings { scenario with steps := a } s present).2.2 later).2.2.tables =
          (run settings scenario s whole).2.2.tables := by
  have hkept := Scenario.isKept_of_isPlain hplain hdivisible
  have hresumable := Scenario.isResumable_of_isPlain hplain hdivisible
  obtain ⟨hcs, -, hids, -, -, hforward⟩ := hdivisible
  have hvalues := hplain.values
  obtain ⟨startMillis, cs, schedules, steps⟩ := scenario
  dsimp only at hcs hids hforward hkept hresumable hvalues hstart hsteps hclock
  subst hstart hsteps
  obtain ⟨hreadable, hzeros⟩ := hleftover.isOrderly
  obtain ⟨ending, hending⟩ := Option.isSome_iff_exists.mp hclock
  rw [clockAfter?_append] at hending
  obtain ⟨seam, hseam, hrest⟩ := Option.bind_eq_some_iff.mp hending
  rw [List.forall_mem_append] at hforward hvalues
  -- The first steps, which both the interrupted and the whole simulation take.
  obtain ⟨x, hrun, hx, hclockx, hpausedx, hnonex, -⟩ :=
    exists_opening hconfig hs hreadable hzeros hcs hkept hids hresumable start
  obtain ⟨x₁, -, da, hsteps, -, -, hx₁, -, hclock₁, hpaused₁, hda, -⟩ :=
    (Agrees.refl x).foldlM_step? hx hx hresumable hvalues.1 hforward.1 (hclockx ▸ hseam)
  -- The others, from the old simulation and from the new one.
  obtain ⟨y, hrun', hy, hagree, hnoney⟩ :=
    exists_reopening hx₁ hconfig (hpaused₁.trans hpausedx) hcs hkept hids hresumable
  obtain ⟨x₂, y₂, db, hstepsx, hstepsy, hagree₂, hx₂, hy₂, -, -, hdbx, hdby⟩ :=
    hagree.foldlM_step? hx₁ hy hresumable hvalues.2 hforward.2 (hclock₁ ▸ hrest)
  rw [hnonex, List.nil_append] at hda
  rw [hnoney, List.nil_append] at hdby
  have hfirst : run settings ⟨some start, cs, schedules, a⟩ s present =
      (.ok da, x₁.limiter.flush x₁.store) := by
    rw [hrun, replay_of_foldlM hsteps, hda]
  have hsecond : run settings ⟨some seam.now.toMillis, cs, schedules, b⟩
      (x₁.limiter.flush x₁.store).2 later = (.ok db, y₂.limiter.flush y₂.store) := by
    rw [← hclock₁, hrun', replay_of_foldlM hstepsy, hdby]
  have hwhole : run settings ⟨some start, cs, schedules, a ++ b⟩ s whole =
      (.ok (da ++ db), x₂.limiter.flush x₂.store) := by
    rw [hrun, replay_append hsteps, replay_of_foldlM hstepsx, hdbx, hda]
  refine ⟨seam, da, db, hseam, ?_, ?_, ?_, ?_⟩
  · rw [hfirst]
  · rw [hfirst, hsecond]
  · rw [hwhole]
  · rw [hfirst, hsecond, hwhole, (hx₂.mirrors.flush (hx₂.reliable _)).1,
      (hy₂.mirrors.flush (hy₂.reliable _)).1]
    exact hagree₂.tables.symm

/-- Two views of a screen are due for an action, which may happen once in five seconds.  The screen
is viewed six times, a second apart, but for five seconds before the last view. -/
def viewScenario (start : Int) : Scenario where
  startMillis := some start
  constraints := [⟨"c", .ofMillis 5000, 1⟩]
  schedules := [⟨"s", none, 0, ⟨none, none⟩, [⟨"t", .screen, .ofInt 2, none⟩], [], ["c"], .idle⟩]
  steps := [1000, 1000, 1000, 1000, 1000, 5000].map fun millis => ⟨millis, .occurred .screen none 1⟩

/-- The tables of somebody who has viewed the screen a minute before. -/
def viewedBefore : Tables :=
  (run .standard (viewScenario (-59000)) (.ofTables .empty) .epoch).2.2.tables

theorem isLeftover_viewedBefore : viewedBefore.IsLeftover := by
  have hcounts : ∀ c ∈ (viewScenario (-59000)).constraints, c.count ≤ 0xffffffff := by decide
  have hleftover := Tables.IsLeftover.run (s := .ofTables .empty) .empty hcounts .standard .epoch 0
  rw [Function.iterate_zero, id] at hleftover
  exact hleftover

/-- Split after the third view, the second simulation goes on with the one that is counted, and
knows that the action has just happened. -/
theorem run_steps_append_views :
    ∃ seam da db, clockAfter? (.ofMillis 1000) ((viewScenario 1000).steps.take 3) = some seam ∧
      (run .standard { viewScenario 1000 with steps := (viewScenario 1000).steps.take 3 }
        (.ofTables viewedBefore) .epoch).1 = .ok da ∧
      (run .standard { viewScenario 1000 with
          startMillis := some seam.now.toMillis, steps := (viewScenario 1000).steps.drop 3 }
        (run .standard { viewScenario 1000 with steps := (viewScenario 1000).steps.take 3 }
          (.ofTables viewedBefore) .epoch).2.2 .epoch).1 = .ok db ∧
      (da ++ db).map (·.accepted) = [true, false, true] := by
  have hconfig : Settings.standard.retry.queueConfig = .ok .standard := rfl
  have hplain : (viewScenario 1000).IsPlain := by
    constructor
    · simp [viewScenario]
    · decide
    · decide +kernel
    · simp only [viewScenario, List.forall_mem_map]
      exact fun _ _ => Binary64.isFinite_one
  have hdivisible : (viewScenario 1000).IsDivisible := by
    constructor <;> decide +kernel
  have hleftover : (Store.ofTables viewedBefore).tables.IsLeftover := by
    rw [Store.tables_ofTables]
    exact isLeftover_viewedBefore
  obtain ⟨seam, da, db, hseam, hfirst, hsecond, hwhole, -⟩ :=
    run_steps_append hconfig (Store.isReliable_ofTables viewedBefore) hleftover hplain hdivisible rfl
      (List.take_append_drop 3 (viewScenario 1000).steps).symm (by decide +kernel) .epoch .epoch
      .epoch
  have haccepted : (run .standard (viewScenario 1000) (.ofTables viewedBefore) .epoch).1.map
      (fun ds => ds.map (·.accepted)) = .ok [true, false, true] := by decide +kernel
  rw [hwhole] at haccepted
  dsimp only
  exact ⟨seam, da, db, hseam, hfirst, hsecond, Except.ok.inj haccepted⟩

end Simulation
end Automation
