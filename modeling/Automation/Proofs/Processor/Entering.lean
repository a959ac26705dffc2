import Automation.Proofs.Processor.Counts

/-!
# Entering a state

Entering a state does one or two things.  It always makes the triggers of the schedule listen or
not, which `entering` says.  And if one of them begins to listen it may feed the remembered state to
all of them, which is the only way in which an operation other than an event makes triggers count.
`refed?` says what is fed, and with it the operation is one of two equations:
`applyState_of_refed?_eq_none` and `applyState_of_refed?_eq_some`.
-/

namespace Automation
namespace Prepared

variable {id : String} {t : Prepared}

@[simp] theorem activate_trigger : t.activate.trigger = t.trigger := by
  rw [activate]
  split
  · rfl
  · split <;> rfl

@[simp] theorem activate_kind : t.activate.kind = t.kind := by
  rw [activate]
  split
  · rfl
  · split <;> rfl

theorem IsFor.activate (h : t.IsFor id) : t.activate.IsFor id := by
  rw [Prepared.activate]
  split
  · exact h
  · split
    · exact ⟨h.schedule, h.progressSchedule, h.progressTrigger, h.count⟩
    · exact ⟨h.schedule, h.progressSchedule, h.progressTrigger, fun e => by cases e⟩

theorem IsFor.disable (h : t.IsFor id) : t.disable.IsFor id :=
  ⟨h.schedule, h.progressSchedule, h.progressTrigger, h.count⟩

end Prepared

namespace Processor

section Enter

variable (state : ScheduleState) (t : Prepared)

@[simp] theorem enter_trigger : (enter state t).trigger = t.trigger := by
  rw [enter]
  split
  · exact t.activate_trigger
  · rfl

@[simp] theorem enter_kind : (enter state t).kind = t.kind := by
  rw [enter]
  split
  · exact t.activate_kind
  · rfl

/-- A trigger that enters a state keeps its progress, or it is a cancellation trigger and begins
anew. -/
theorem enter_progress_cases : (enter state t).progress = t.progress ∨
    t.kind = .delayCancellation ∧ (enter state t).progress.count = 0 := by
  rw [enter]
  split
  · rw [Prepared.activate]
    split
    · exact Or.inl rfl
    · cases hkind : t.kind with
      | execution => exact Or.inl rfl
      | delayCancellation => exact Or.inr ⟨rfl, rfl⟩
  · exact Or.inl rfl

theorem enter_progress (h : t.kind = .execution) : (enter state t).progress = t.progress := by
  rcases enter_progress_cases state t with hsame | ⟨hkind, -⟩
  · exact hsame
  · rw [h] at hkind
    cases hkind

variable {t}

theorem isFor_enter {id : String} (h : t.IsFor id) : (enter state t).IsFor id := by
  rw [enter]
  split
  · exact h.activate
  · exact h.disable

end Enter

/-! ## What entering a state does -/

/-- The processor after a schedule has entered a state, before anything is fed. -/
def entering (p : Processor) (scheduleId : String) (state : ScheduleState) : Processor :=
  { p with prepared := p.prepared.modify scheduleId (List.map (enter state)) }

/-- What is fed to which triggers when a schedule enters a state: the remembered state, if any of
its triggers begins to listen and the processor is not paused. -/
def refed? (p : Processor) (scheduleId : String) (state : ScheduleState) :
    Option (AppState × List Prepared) :=
  match p.prepared.get? scheduleId, p.lastState with
  | some ts, some last =>
    if ts.any (awakens state) && !p.paused then some (last, ts.map (enter state)) else none
  | _, _ => none

variable {p : Processor} {scheduleId : String} {state : ScheduleState}

/-- Where no state is remembered nothing is fed. -/
theorem refed?_of_lastState (h : p.lastState = none) : p.refed? scheduleId state = none := by
  rw [refed?, h]
  split
  · next hnone => cases hnone
  · rfl

theorem get?_entering (p : Processor) (scheduleId : String) (state : ScheduleState) (id : String) :
    (p.entering scheduleId state).prepared.get? id =
      if id = scheduleId then (p.prepared.get? id).map (List.map (enter state))
      else p.prepared.get? id :=
  Table.get?_modify ..

/-- The triggers of a schedule that enters a state, whether it is known or not. -/
theorem triggersOf_entering (p : Processor) (scheduleId : String) (state : ScheduleState)
    (id : String) :
    (p.entering scheduleId state).triggersOf id =
      if id = scheduleId then (p.triggersOf id).map (enter state) else p.triggersOf id := by
  rw [triggersOf, get?_entering]
  split
  · rw [triggersOf]
    cases p.prepared.get? id <;> rfl
  · rfl

theorem IsProper.entering (h : p.IsProper) (scheduleId : String) (state : ScheduleState) :
    (p.entering scheduleId state).IsProper := by
  intro id ts hts t ht
  rw [get?_entering] at hts
  split at hts
  · obtain ⟨before, hbefore, rfl⟩ := Option.map_eq_some_iff.mp hts
    obtain ⟨u, hu, rfl⟩ := List.mem_map.mp ht
    exact isFor_enter state (h id before hbefore u hu)
  · exact h id ts hts t ht

theorem applyState_of_refed?_eq_none (h : p.refed? scheduleId state = none) (s : Store)
    (now : Instant) :
    p.applyState s now scheduleId state = ⟨p.entering scheduleId state, s, []⟩ := by
  rw [refed?] at h
  rw [applyState, entering, Table.modify]
  cases hts : p.prepared.get? scheduleId with
  | none => rfl
  | some ts =>
    rw [hts] at h
    cases hlast : p.lastState with
    | none =>
      simp only []
      split <;> rfl
    | some last =>
      rw [hlast] at h
      simp only [] at h ⊢
      split at h
      · cases h
      · next hquiet => rw [if_neg hquiet]

/-- What is fed is fed to the triggers as they are in the new state. -/
theorem applyState_of_refed?_eq_some {last : AppState} {ts : List Prepared}
    (h : p.refed? scheduleId state = some (last, ts)) (s : Store) (now : Instant) :
    (p.entering scheduleId state).prepared.get? scheduleId = some ts ∧
      p.applyState s now scheduleId state =
        settle { p with prepared :=
            p.prepared.insert scheduleId (feed (.stateChanged last) now ts) } s
          (outcomes (.stateChanged last) now ts) := by
  rw [refed?] at h
  rw [applyState, get?_entering, if_pos rfl]
  cases hts : p.prepared.get? scheduleId with
  | none =>
    rw [hts] at h
    cases h
  | some before =>
    rw [hts] at h
    cases hlast : p.lastState with
    | none =>
      rw [hlast] at h
      cases h
    | some state' =>
      rw [hlast] at h
      simp only [] at h ⊢
      split at h
      · next hawake =>
        cases h
        rw [if_pos hawake]
        exact ⟨rfl, rfl⟩
      · cases h

end Processor
end Automation
