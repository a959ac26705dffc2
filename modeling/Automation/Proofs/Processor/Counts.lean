import Automation.Proofs.Number.Sums
import Automation.Proofs.Processor.Feeding

/-!
# The count of one trigger

A trigger that counts by ones and has counted `k` events stands at `k % n`, where `n` is the natural
that its goal asks for, and has fired `k / n` times.  `Prepared.count_process` is that statement for
one event, and all that is needed of doubles: the count stays within `2 ^ 53`, so adding one is
exact, and the goal is reached exactly when the next natural is.

## Two places

While a trigger is prepared its progress stands beside it; while it is not, in the store alone.
`Carries` speaks of the first place and leaves room for the second: triggers without the one in
question carry any progress of it.
-/

namespace Automation

/-! ## One event -/

/-- Whatever counts for a trigger that does not count by value counts for one. -/
theorem Trigger.count_advance? {trigger : Trigger} (htype : trigger.type ≠ .customEventValue)
    {event : Event} {p p' : Progress} (h : trigger.advance? event p = some p') :
    p'.count = p.count + 1 := by
  cases event with
  | occurred type data value =>
    rw [advance?] at h
    split at h
    · cases h
      rw [increment, if_neg htype]
    · cases h
  | stateChanged state =>
    rw [advance?] at h
    split at h
    · cases h
      rfl
    · cases h

/-- Counting on within a round. -/
theorem add_one_div_mod_of_lt {k n : Nat} (h : k % n + 1 < n) :
    (k + 1) / n = k / n ∧ (k + 1) % n = k % n + 1 := by
  refine (Nat.div_mod_unique (by omega)).mpr ⟨?_, h⟩
  have hk := Nat.mod_add_div k n
  omega

/-- Counting into the next round. -/
theorem add_one_div_mod_of_eq {k n : Nat} (h : k % n + 1 = n) :
    (k + 1) / n = k / n + 1 ∧ (k + 1) % n = 0 := by
  refine (Nat.div_mod_unique (by omega)).mpr ⟨?_, by omega⟩
  have hk := Nat.mod_add_div k n
  rw [Nat.mul_add, Nat.mul_one]
  omega

namespace Prepared

variable {t : Prepared} {event : Event} {now : Instant}

/-- A state that counts leaves the count a number. -/
theorem count_process_stateChanged {state : AppState} (h : t.progress.count ≠ .nan) :
    (t.process (.stateChanged state) now).1.progress.count ≠ .nan := by
  cases hcredits : t.credits (.stateChanged state) now with
  | false =>
    rw [process_of_not_credits hcredits]
    exact h
  | true =>
    obtain ⟨progress, hadvance, hprocess⟩ := process_of_credits hcredits
    rw [hprocess]
    split
    · exact fun e => by cases e
    · rw [Trigger.advance?] at hadvance
      split at hadvance
      · cases hadvance
        exact Binary64.add_ne_nan h Binary64.isFinite_one
      · cases hadvance

/-- How often a trigger fires on an event: once or not at all. -/
def shots (t : Prepared) (event : Event) (now : Instant) : Nat :=
  if (t.process event now).2.any (·.firing.isSome) then 1 else 0

/-- One event, for a trigger that has counted `k` events: what it stands at afterwards, and whether
it fired. -/
theorem count_process {k : Nat} (htype : t.trigger.type ≠ .customEventValue)
    (hgoal : t.trigger.goal.IsCountable)
    (hcount : t.progress.count = .ofNat (k % t.trigger.goal.ceil)) (event : Event) (now : Instant) :
    let next := k + if t.credits event now then 1 else 0
    (t.process event now).1.progress.count = .ofNat (next % t.trigger.goal.ceil) ∧
      k / t.trigger.goal.ceil + t.shots event now = next / t.trigger.goal.ceil := by
  rw [shots]
  cases hcredits : t.credits event now with
  | false =>
    rw [process_of_not_credits hcredits]
    exact ⟨hcount, rfl⟩
  | true =>
    obtain ⟨progress, hadvance, hprocess⟩ := process_of_credits hcredits
    obtain ⟨steps, hsteps, hpos, hmax⟩ := hgoal.exists_steps
    have hbelow := Nat.mod_lt k hpos
    have hone : progress.count = .ofNat (k % t.trigger.goal.ceil + 1) := by
      rw [Trigger.count_advance? htype hadvance, hcount, Binary64.ofNat_add_one (by omega)]
    have hreached : t.trigger.isReached progress = true ↔
        t.trigger.goal.ceil ≤ k % t.trigger.goal.ceil + 1 := by
      rw [Trigger.isReached, hone, hsteps, Binary64.le_ofNat_iff]
    rw [hprocess]
    simp only [if_true]
    by_cases hlast : t.trigger.isReached progress = true
    · obtain ⟨hdiv, hmod⟩ := add_one_div_mod_of_eq
        (Nat.le_antisymm hbelow (hreached.mp hlast) : k % t.trigger.goal.ceil + 1 = _)
      rw [if_pos hlast, hdiv, hmod, Binary64.ofNat_zero]
      exact ⟨rfl, rfl⟩
    · obtain ⟨hdiv, hmod⟩ := add_one_div_mod_of_lt (Nat.not_le.mp (mt hreached.mpr hlast))
      rw [if_neg hlast, hdiv, hmod]
      exact ⟨hone, rfl⟩

end Prepared

namespace Processor

/-! ## The triggers of a schedule -/

/-- The triggers with an id. -/
def withId (triggerId : String) (ts : List Prepared) : List Prepared :=
  ts.filter fun t => t.trigger.id = triggerId

/-- For how many of the triggers with an id an event counts. -/
def hits (triggerId : String) (event : Event) (now : Instant) (ts : List Prepared) : Nat :=
  (withId triggerId ts).countP (·.credits event now)

/-- Of the triggers at most one has the id of an execution trigger, and if there is one it is that
trigger and has that progress. -/
def Carries (trigger : Trigger) (progress : Progress) (ts : List Prepared) : Prop :=
  withId trigger.id ts = [] ∨
    ∃ t, withId trigger.id ts = [t] ∧ t.trigger = trigger ∧ t.kind = .execution ∧
      t.progress = progress

section Carrying

variable {trigger : Trigger} {progress : Progress} {ts : List Prepared} {event : Event}
  {now : Instant}

theorem withId_map {f : Prepared → Prepared} (hf : ∀ t, (f t).trigger = t.trigger)
    (triggerId : String) (ts : List Prepared) :
    withId triggerId (ts.map f) = (withId triggerId ts).map f := by
  rw [withId, withId, List.filter_map]
  refine congrArg (List.map f) (List.filter_congr fun t _ => ?_)
  rw [Function.comp_apply, hf]

/-- What keeps trigger, kind and progress of execution triggers keeps what is carried. -/
theorem Carries.map {f : Prepared → Prepared} (h : Carries trigger progress ts)
    (hf : ∀ t, (f t).trigger = t.trigger) (hkind : ∀ t, (f t).kind = t.kind)
    (hprogress : ∀ t, t.kind = .execution → (f t).progress = t.progress) :
    Carries trigger progress (ts.map f) := by
  rw [Carries, withId_map hf]
  rcases h with hnone | ⟨t, hone, htrigger, hexecution, hcarried⟩
  · rw [hnone]
    exact Or.inl rfl
  · rw [hone]
    exact Or.inr ⟨f t, rfl, (hf t).trans htrigger, (hkind t).trans hexecution,
      (hprogress t hexecution).trans hcarried⟩

/-- An event fed to triggers that carry the progress of a trigger which has counted `k` events.
The new progress is what is written, or nothing is written for the trigger and nothing has
changed. -/
theorem Carries.feed {k : Nat} (h : Carries trigger progress ts)
    (htype : trigger.type ≠ .customEventValue) (hgoal : trigger.goal.IsCountable)
    (hcount : progress.count = .ofNat (k % trigger.goal.ceil)) (event : Event) (now : Instant) :
    ∃ progress', progress'.key = progress.key ∧ Carries trigger progress' (feed event now ts) ∧
      progress'.count = .ofNat ((k + hits trigger.id event now ts) % trigger.goal.ceil) ∧
      k / trigger.goal.ceil +
          (outcomes event now (withId trigger.id ts)).countP (fun o => o.2.firing.isSome) =
        (k + hits trigger.id event now ts) / trigger.goal.ceil ∧
      ((outcomes event now (withId trigger.id ts)).map (·.2.progress) = [progress'] ∨
        (outcomes event now (withId trigger.id ts)).map (·.2.progress) = [] ∧
          progress' = progress) := by
  have hfed : withId trigger.id (Processor.feed event now ts) =
      (withId trigger.id ts).map fun t => (t.process event now).1 :=
    withId_map (fun t => t.process_trigger) _ _
  rw [Carries] at h
  simp only [Carries, hfed, hits]
  rcases h with hnone | ⟨t, hone, rfl, hexecution, rfl⟩
  · rw [hnone]
    exact ⟨progress, rfl, Or.inl rfl, hcount, rfl, Or.inr ⟨rfl, rfl⟩⟩
  · obtain ⟨hnext, hfired⟩ := Prepared.count_process htype hgoal hcount event now
    obtain ⟨progress', hprocess, hschedule, htrigger⟩ := t.process_fst event now
    rw [hone, List.countP_singleton, outcomes_cons]
    rw [hprocess] at hnext
    refine ⟨progress', ?_, Or.inr ⟨_, rfl, ?_⟩, hnext, ?_, ?_⟩
    · rw [Progress.key, Progress.key, hschedule, htrigger]
    · simp only [hprocess, hexecution, and_self]
    · rw [← hfired, Prepared.shots]
      cases (t.process event now).2 with
      | none => rfl
      | some o => rw [Option.map_some, Option.toList_some, List.singleton_append, List.countP_cons,
          Option.any_some, outcomes, List.filterMap_nil, List.countP_nil, Nat.zero_add]
    · cases hsnd : (t.process event now).2 with
      | none =>
        refine Or.inr ⟨rfl, ?_⟩
        rw [Prepared.process_fst_of_snd_eq_none hsnd] at hprocess
        exact (congrArg Prepared.progress hprocess).symm
      | some o =>
        refine Or.inl ?_
        have ho := (Prepared.process_snd hsnd).1
        rw [hprocess] at ho
        rw [Option.map_some, Option.toList_some, List.singleton_append, List.map_cons, outcomes,
          List.filterMap_nil, List.map_nil, ho]

end Carrying
end Processor
end Automation
