import Automation.Proofs.Processor.Standing
import Automation.Proofs.Wire.Schedules
import Automation.Simulation.Scenario

/-!
# Scenarios from a text

A scenario is read from a text, and that alone says something about it: ranges are whole
milliseconds, counts have 32 bits, goals and values are finite.  `Scenario.IsPlain` is what a
simulation relies on without looking, and `Scenario.isPlain_of_readDraft?` says that it may.
-/

namespace Automation

open Json Decode

/-! ## The parts of a scenario -/

theorem Constraint.gives_decode? :
    Gives Constraint.decode? fun c =>
      (∃ millis, c.range = .ofMillis millis) ∧ c.count ≤ 0xffffffff := by
  intro d c hd h
  simp only [Constraint.decode?, Option.bind_eq_bind, Option.bind_eq_some_iff,
    Option.some.injEq] at h
  obtain ⟨fields, hrecord, id, -, millis, -, count, hcount, rfl⟩ := h
  have hlt := (gives_word 32).required (isFinite_of_record? hd hrecord) hcount
  exact ⟨⟨millis, rfl⟩, by simp only; omega⟩

theorem Trigger.gives_decode? (form : LeafForm) :
    Gives (Trigger.decode? form) fun t => t.goal.isFinite = true := by
  intro d t hd h
  simp only [Trigger.decode?, Option.bind_eq_bind, Option.bind_eq_some_iff, Option.some.injEq] at h
  obtain ⟨fields, hrecord, id, -, type, -, goal, hgoal, predicate, -, rfl⟩ := h
  exact gives_double.required (isFinite_of_record? hd hrecord) hgoal

theorem Schedule.gives_decode? (form : LeafForm) :
    Gives (Schedule.decode? form) fun s =>
      ∀ t ∈ s.triggers ++ s.cancellationTriggers, t.goal.isFinite = true := by
  intro d s hd h
  obtain ⟨fields, hrecord, -, -, -, -, -, htriggers, hcancellation, -⟩ :=
    Schedule.decode?_eq_some_iff.mp h
  have hfields := isFinite_of_record? hd hrecord
  rw [List.forall_mem_append]
  exact ⟨(Trigger.gives_decode? form).list.required hfields htriggers,
    (Trigger.gives_decode? form).list.defaulted hfields (List.forall_mem_nil _) hcancellation⟩

theorem Event.gives_decodeActivity? : Gives Event.decodeActivity? Event.IsFinite := by
  intro d event hd h
  simp only [Event.decodeActivity?, Option.bind_eq_bind, Option.bind_eq_some_iff,
    Option.some.injEq] at h
  obtain ⟨fields, hrecord, type, -, data, -, value, hvalue, rfl⟩ := h
  exact gives_double.defaulted (isFinite_of_record? hd hrecord) Binary64.isFinite_one hvalue

theorem Event.gives_decode? : Gives Event.decode? Event.IsFinite := by
  intro d event hd h
  unfold Event.decode? at h
  split at h
  · split at h
    · next hsplit => exact Event.gives_decodeActivity? _ event (Event.isFinite_of_split? hd hsplit) h
    · obtain ⟨state, -, rfl⟩ := Option.map_eq_some_iff.mp h
      trivial
    · cases h
  · cases h

theorem ScenarioStep.gives_decode? :
    Gives ScenarioStep.decode? fun step => step.event.IsFinite := by
  intro d step hd h
  simp only [ScenarioStep.decode?, Option.bind_eq_bind, Option.bind_eq_some_iff,
    Option.some.injEq] at h
  obtain ⟨fields, hrecord, advanceMillis, -, event, hevent, rfl⟩ := h
  exact Event.gives_decode?.required (isFinite_of_record? hd hrecord) hevent

/-! ## The scenario -/

namespace Scenario

/-- A scenario with numbers that a text can hold: ranges of whole milliseconds, counts of 32 bits,
and doubles that are finite. -/
structure IsPlain (scenario : Scenario) : Prop where
  ranges : ∀ c ∈ scenario.constraints, ∃ millis, c.range = Span.ofMillis millis
  counts : ∀ c ∈ scenario.constraints, c.count ≤ 0xffffffff
  goals : ∀ schedule ∈ scenario.schedules,
    ∀ t ∈ schedule.triggers ++ schedule.cancellationTriggers, t.goal.isFinite = true
  values : ∀ step ∈ scenario.steps, step.event.IsFinite

theorem gives_decode? (form : LeafForm) : Gives (Scenario.decode? form) IsPlain := by
  intro d scenario hd h
  simp only [Scenario.decode?, Option.bind_eq_bind, Option.bind_eq_some_iff, Option.some.injEq] at h
  obtain ⟨fields, hrecord, start, -, constraints, hconstraints, schedules, hschedules, steps, hsteps,
    rfl⟩ := h
  have hfields := isFinite_of_record? hd hrecord
  have hread := Constraint.gives_decode?.list.defaulted hfields (List.forall_mem_nil _) hconstraints
  constructor
  · exact fun c hc => (hread c hc).1
  · exact fun c hc => (hread c hc).2
  · exact (Schedule.gives_decode? form).list.defaulted hfields (List.forall_mem_nil _) hschedules
  · exact ScenarioStep.gives_decode?.list.defaulted hfields (List.forall_mem_nil _) hsteps

/-- **Scenarios from a text** have plain numbers. -/
theorem isPlain_of_readDraft? {text : String} {form : LeafForm} {scenario : Scenario}
    (h : (readDraft? text).bind (Scenario.decode? form) = some scenario) : scenario.IsPlain := by
  obtain ⟨d, hread, hdecode⟩ := Option.bind_eq_some_iff.mp h
  exact gives_decode? form d scenario (isFinite_of_readDraft? hread) hdecode

end Scenario
end Automation
