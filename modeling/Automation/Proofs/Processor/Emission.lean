import Automation.Proofs.ByteOrder
import Automation.Proofs.Processor.Binding
import Automation.Proofs.Processor.Commutation

/-!
# What an event emits, and in which order

An event goes through the prepared triggers in the order of a table and what fires is sorted by
priority.  `emissions` is the first of these lists, told by the definitions that count at present: for
every schedule that is defined, and every place in its trigger lists, the trigger that stands there
if the event takes it to its goal.  It is strictly ordered by schedule id and place.  Sorting is
stable, so what an event emits is strictly ordered by priority, id and place
(`exists_emissions_processEvent`), and no more of the past enters than the definitions and the
triggers' own progress.

Ids are compared by their bytes, which is how a table orders them (`lt_iff_bytes_lt`).
-/

namespace Automation

/-! ## Emissions -/

/-- A trigger that an event takes to its goal: its schedule as it is defined, its place among the
schedule's triggers, the trigger as the event finds it, and the progress that reaches the goal. -/
structure Emission where
  schedule : Schedule
  position : Nat
  trigger : Prepared
  reached : Progress

namespace Emission

/-- What is emitted. -/
def firing (m : Emission) (event : Event) (now : Instant) : Firing :=
  m.trigger.firing event m.reached now

/-- The order of ids and places. -/
def StandsBefore (m m' : Emission) : Prop :=
  bytes m.schedule.id < bytes m'.schedule.id ∨
    m.schedule.id = m'.schedule.id ∧ m.position < m'.position

/-- The order in which results are emitted: lower priority numbers first, and then ids and places. -/
def Precedes (m m' : Emission) : Prop :=
  m.schedule.priority < m'.schedule.priority ∨
    m.schedule.priority = m'.schedule.priority ∧ m.StandsBefore m'

/-- What makes an emission due: the schedule is defined, the trigger stands at its place, with the
definition that is there, it is active, its schedule's window is open, and the event matches it and
takes it to its goal. -/
structure IsDue (defs : Table String Schedule) (p : Processor) (event : Event) (now : Instant)
    (m : Emission) : Prop where
  defined : defs.get? m.schedule.id = some m.schedule
  stands : (p.triggersOf m.schedule.id)[m.position]? = some m.trigger
  definition : m.schedule.definitions[m.position]? = some (m.trigger.trigger, m.trigger.kind)
  active : m.trigger.active = true
  inWindow : m.schedule.window.contains now = true
  counted : m.trigger.trigger.advance? event m.trigger.progress = some m.reached
  reaches : m.trigger.trigger.isReached m.reached = true

end Emission

/-! ## One trigger -/

namespace Prepared

variable {t : Prepared} {event : Event} {now : Instant}

/-- The progress with which an event takes a trigger to its goal, if it does. -/
def reached? (t : Prepared) (event : Event) (now : Instant) : Option Progress :=
  if t.listens now then (t.trigger.advance? event t.progress).filter t.trigger.isReached else none

theorem reached?_eq_some_iff {progress : Progress} :
    t.reached? event now = some progress ↔
      (t.active = true ∧ t.window.contains now = true) ∧
        t.trigger.advance? event t.progress = some progress ∧
        t.trigger.isReached progress = true := by
  rw [reached?, listens, ← Bool.and_eq_true]
  split
  · next hlistens => rw [Option.filter_eq_some_iff, and_iff_right hlistens]
  · next hdeaf => exact iff_of_false nofun fun h => hdeaf h.1

/-- A trigger fires exactly if it is taken to its goal. -/
theorem firing_process (t : Prepared) (event : Event) (now : Instant) :
    ((t.process event now).2.bind fun o => o.firing) =
      (t.reached? event now).map fun reached => t.firing event reached now := by
  rw [process, reached?]
  split
  · cases t.trigger.advance? event t.progress with
    | none => rfl
    | some progress =>
      simp only [Option.filter_some]
      split <;> rfl
  · rfl

end Prepared

namespace Processor

variable {defs : Table String Schedule} {p : Processor} {event : Event} {now : Instant}

/-! ## The triggers of a schedule -/

/-- What is due of one schedule, in the order of its triggers. -/
def emissionsOf (event : Event) (now : Instant) (schedule : Schedule) (ts : List Prepared) :
    List Emission :=
  ts.zipIdx.filterMap fun x =>
    (x.1.reached? event now).map fun reached => ⟨schedule, x.2, x.1, reached⟩

variable {schedule : Schedule} {ts : List Prepared}

theorem mem_emissionsOf {m : Emission} :
    m ∈ emissionsOf event now schedule ts ↔
      m.schedule = schedule ∧ ts[m.position]? = some m.trigger ∧
        m.trigger.reached? event now = some m.reached := by
  rw [emissionsOf, List.mem_filterMap]
  constructor
  · rintro ⟨⟨t, i⟩, hmem, hm⟩
    obtain ⟨reached, hreached, rfl⟩ := Option.map_eq_some_iff.mp hm
    exact ⟨rfl, List.mem_zipIdx_iff_getElem?.mp hmem, hreached⟩
  · rintro ⟨rfl, hstands, hreached⟩
    refine ⟨(m.trigger, m.position), List.mem_zipIdx_iff_getElem?.mpr hstands, ?_⟩
    rw [hreached]
    rfl

/-- The places in a list increase. -/
theorem pairwise_emissionsOf (event : Event) (now : Instant) (schedule : Schedule)
    (ts : List Prepared) :
    (emissionsOf event now schedule ts).Pairwise fun m m' => m.position < m'.position := by
  have hplaces : ts.zipIdx.Pairwise fun x y => x.2 < y.2 := by
    rw [← List.pairwise_map (f := Prod.snd), List.zipIdx_map_snd]
    exact List.pairwise_lt_range'
  refine hplaces.filterMap _ fun x y hlt m hm m' hm' => ?_
  obtain ⟨_, -, rfl⟩ := Option.map_eq_some_iff.mp hm
  obtain ⟨_, -, rfl⟩ := Option.map_eq_some_iff.mp hm'
  exact hlt

/-- Outcomes that fire are what is due. -/
theorem filterMap_outcomes (event : Event) (now : Instant) (schedule : Schedule)
    (ts : List Prepared) :
    ((outcomes event now ts).filterMap fun o => o.2.firing.map (o.1, ·)) =
      (emissionsOf event now schedule ts).map fun m => (m.trigger.priority, m.firing event now) := by
  have hone : ∀ t : Prepared,
      (((t.process event now).2.map (t.priority, ·)).bind fun o => o.2.firing.map (o.1, ·)) =
        (t.reached? event now).map fun reached => (t.priority, t.firing event reached now) :=
    fun t => by
      have hfires := congrArg (Option.map (t.priority, ·)) (t.firing_process event now)
      rw [Option.map_map] at hfires
      refine Eq.trans ?_ hfires
      cases (t.process event now).2 <;> rfl
  rw [outcomes, List.filterMap_filterMap, emissionsOf, List.map_filterMap]
  conv_lhs => rw [← List.zipIdx_map_fst (l := ts) 0, List.filterMap_map]
  refine List.filterMap_congr fun x _ => ?_
  rw [Option.map_map]
  exact hone x.1

/-! ## All triggers -/

/-- What is due, in the order of a table. -/
def emissions (defs : Table String Schedule) (p : Processor) (event : Event) (now : Instant) :
    List Emission :=
  defs.entries.flatMap fun e => emissionsOf event now e.2 (p.triggersOf e.1)

/-- A processor that knows what is defined has its triggers in the order of the definitions. -/
theorem Knows.values_flatMap {β : Type} (h : Knows defs p) (f : List Prepared → List β) :
    p.prepared.values.flatMap f = defs.entries.flatMap fun e => f (p.triggersOf e.1) := by
  have hroles : (p.prepared.map fun _ => roles) = defs.map fun _ => Schedule.definitions :=
    Table.eq_of_get?_eq fun id => by rw [Table.get?_map, Table.get?_map, h.prepared]
  have hkeys : p.prepared.entries.map (·.1) = defs.entries.map (·.1) := by
    have hsame := congrArg Table.keys hroles
    simpa only [Table.keys, Table.map, List.map_map, Function.comp_def] using hsame
  have htriggers : ∀ e ∈ p.prepared.entries, f e.2 = f (p.triggersOf e.1) := fun e he => by
    rw [triggersOf, (Table.get?_eq_some_iff _ _ _).mpr he]
    rfl
  rw [Table.values, List.flatMap_map, List.flatMap_congr htriggers,
    ← List.flatMap_map (f := Prod.fst) (g := fun id => f (p.triggersOf id)), hkeys,
    List.flatMap_map]

theorem fired_processEvent (h : Knows defs p) (hpaused : p.paused ≠ true) (s : Store)
    (event : Event) (now : Instant) :
    (p.processEvent s event now).fired =
      (sortBy (fun m => m.trigger.priority) (emissions defs p event now)).map
        fun m => m.firing event now := by
  have hfires : ((p.prepared.values.flatMap (outcomes event now)).filterMap
      fun o => o.2.firing.map (o.1, ·)) =
        (emissions defs p event now).map fun m => (m.trigger.priority, m.firing event now) := by
    rw [h.values_flatMap, List.filterMap_flatMap, emissions, List.map_flatMap]
    exact List.flatMap_congr fun e _ => filterMap_outcomes event now e.2 (p.triggersOf e.1)
  rw [processEvent_of_not_paused hpaused]
  show firings _ = _
  rw [firings, hfires, map_sortBy, List.map_map]
  rfl

section Listed

variable (hkeys : ∀ id schedule, defs.get? id = some schedule → schedule.id = id)

include hkeys

/-- Schedules come in the order of their ids, and the triggers of each in the order of their
places. -/
theorem pairwise_emissions (p : Processor) (event : Event) (now : Instant) :
    (emissions defs p event now).Pairwise Emission.StandsBefore := by
  have hschedule : ∀ e ∈ defs.entries, ∀ m ∈ emissionsOf event now e.2 (p.triggersOf e.1),
      m.schedule.id = e.1 := fun e he m hm => by
    rw [(mem_emissionsOf.mp hm).1]
    exact hkeys e.1 e.2 ((Table.get?_eq_some_iff _ _ _).mpr he)
  rw [emissions, List.pairwise_flatMap]
  refine ⟨fun e he => ?_, ?_⟩
  · refine (pairwise_emissionsOf event now e.2 (p.triggersOf e.1)).imp_of_mem
      fun hm hm' hlt => Or.inr ⟨?_, hlt⟩
    rw [hschedule e he _ hm, hschedule e he _ hm']
  · refine defs.sorted.imp_of_mem fun {e e'} he he' hlt m hm m' hm' => Or.inl ?_
    rw [hschedule e he m hm, hschedule e' he' m' hm']
    exact lt_iff_bytes_lt.mp hlt

/-- What is listed is what is due. -/
theorem mem_emissions_iff (hknows : Knows defs p) (hbound : Bound defs p) {m : Emission} :
    m ∈ emissions defs p event now ↔ m.IsDue defs p event now := by
  rw [emissions, List.mem_flatMap]
  constructor
  · rintro ⟨⟨id, schedule⟩, he, hm⟩
    have hdefined := (Table.get?_eq_some_iff _ _ _).mpr he
    obtain ⟨rfl, hstands, hreached⟩ := mem_emissionsOf.mp hm
    obtain rfl := hkeys id m.schedule hdefined
    obtain ⟨⟨hactive, hwindow⟩, hcounted, hreaches⟩ := Prepared.reached?_eq_some_iff.mp hreached
    have hroles := hknows.roles_triggersOf m.schedule.id
    rw [hdefined, Option.map_some, Option.getD_some] at hroles
    have hmem := List.mem_of_getElem? hstands
    refine ⟨hdefined, hstands, ?_, hactive, ?_, hcounted, hreaches⟩
    · rw [← hroles, roles, List.getElem?_map, hstands]
      rfl
    · rw [← (hbound.bound _ _ hdefined _ hmem).1]
      exact hwindow
  · intro hdue
    refine ⟨(m.schedule.id, m.schedule), (Table.get?_eq_some_iff _ _ _).mp hdue.defined,
      mem_emissionsOf.mpr ⟨rfl, hdue.stands, Prepared.reached?_eq_some_iff.mpr
        ⟨⟨hdue.active, ?_⟩, hdue.counted, hdue.reaches⟩⟩⟩
    rw [(hbound.bound _ _ hdue.defined _ (List.mem_of_getElem? hdue.stands)).1]
    exact hdue.inWindow

/-- An event emits what is due, once each and in order. -/
theorem exists_emissions_processEvent (hknows : Knows defs p) (hbound : Bound defs p)
    (hpaused : p.paused ≠ true) (s : Store) (event : Event) (now : Instant) :
    ∃ ms : List Emission,
      (p.processEvent s event now).fired = ms.map (fun m => m.firing event now) ∧
        ms.Pairwise Emission.Precedes ∧ ∀ m, m ∈ ms ↔ m.IsDue defs p event now := by
  have hmem : ∀ m, m ∈ sortBy (fun m => m.trigger.priority) (emissions defs p event now) ↔
      m.IsDue defs p event now := fun m =>
    (perm_sortBy _ _).mem_iff.trans (mem_emissions_iff hkeys hknows hbound)
  have hpriority : ∀ m : Emission, m.IsDue defs p event now →
      m.trigger.priority = m.schedule.priority := fun m hdue =>
    (hbound.bound _ _ hdue.defined _ (List.mem_of_getElem? hdue.stands)).2
  refine ⟨_, fired_processEvent hknows hpaused s event now, ?_, hmem⟩
  refine (pairwise_sortBy _ (pairwise_emissions hkeys p event now)).imp_of_mem
    fun hm hm' hbefore => ?_
  rwa [hpriority _ ((hmem _).mp hm), hpriority _ ((hmem _).mp hm')] at hbefore

end Listed

/-! ## Whole runs -/

/-- **Order.**  Let a processor have served any requests over any store.  Different schedules that
are defined together over a store that does not fail leave the same triggers, groups and tables
whatever order they are listed in, and fire the same, by priority.  And if the processor is not
paused, an event emits exactly one result for every trigger that is due, in the order of priority,
bytes of the schedule id, and place. -/
theorem emission_order (s₀ : Store) (rs : List Request) :
    let p := ((Turn.start s₀).run rs).processor
    (∀ s : Store, s.IsReliable → ∀ schedules schedules' : List Schedule,
      schedules'.Perm schedules → (schedules.map (·.id)).Nodup → ∀ now,
        let t := p.updateSchedules s now schedules
        let t' := p.updateSchedules s now schedules'
        t'.processor.prepared = t.processor.prepared ∧
          (∀ group id, id ∈ members t'.processor.groups group ↔
            id ∈ members t.processor.groups group) ∧
          t'.store.tables = t.store.tables ∧ t'.fired.Perm t.fired ∧
          InPriorityOrder schedules t.fired ∧ InPriorityOrder schedules t'.fired) ∧
      (p.paused = false → ∀ (s : Store) event now, ∃ ms : List Emission,
        (p.processEvent s event now).fired = ms.map (fun m => m.firing event now) ∧
          ms.Pairwise Emission.Precedes ∧ ∀ m, m ∈ ms ↔ m.IsDue (defined rs) p event now) := by
  have hbound := bound_run s₀ rs
  refine ⟨fun s hs schedules schedules' hperm hnodup now =>
    updateSchedules_perm hbound.owns hs now hperm hnodup, fun hpaused s event now => ?_⟩
  refine exists_emissions_processEvent (fun id schedule hschedule =>
    (exists_request_of_defined hschedule).1) (knows_run s₀ rs) hbound ?_ s event now
  rw [hpaused]
  exact Bool.false_ne_true

/-- A schedule that reacts to every new session. -/
def welcoming (id : String) (priority : Int) : Schedule :=
  ⟨id, none, priority, ⟨none, none⟩, [⟨"t", .activeSession, 1, none⟩], [], [], .idle⟩

/-- A session begins and three schedules are defined. -/
def welcomingRequests : List Request :=
  [.event (.stateChanged ⟨some "1", none⟩) .epoch,
    .update [welcoming "b" 0, welcoming "a" 0, welcoming "c" (-1)] .epoch]

/-- Two more schedules fire when they are defined, in either order, and the next session is reacted
to by the three that were there, first by priority and then by id. -/
theorem emission_order_welcoming :
    let p := ((Turn.start (.ofTables .empty)).run welcomingRequests).processor
    (p.updateSchedules (.ofTables .empty) .epoch
        [welcoming "e" 1, welcoming "d" 2]).fired.length = 2 ∧
      (p.updateSchedules (.ofTables .empty) .epoch
        [welcoming "d" 2, welcoming "e" 1]).fired.length = 2 ∧
      ∃ ms : List Emission, ms.Pairwise Emission.Precedes ∧
        ms.map (fun m => (m.firing (.stateChanged ⟨some "2", none⟩) .epoch).scheduleId) =
          ["c", "a", "b"] := by
  have hperm : [welcoming "d" 2, welcoming "e" 1].Perm
      [welcoming "e" 1, welcoming "d" 2] := .swap ..
  have hnodup : ([welcoming "e" 1, welcoming "d" 2].map (·.id)).Nodup := by
    decide +kernel
  have hpaused : ((Turn.start (.ofTables .empty)).run welcomingRequests).processor.paused = false := by
    decide +kernel
  obtain ⟨hupdate, hevent⟩ := emission_order (.ofTables .empty) welcomingRequests
  obtain ⟨-, -, -, hfired, -, -⟩ :=
    hupdate (.ofTables .empty) (Store.isReliable_ofTables .empty) _ _ hperm hnodup .epoch
  obtain ⟨ms, hms, hordered, -⟩ := hevent hpaused (.ofTables .empty)
    (.stateChanged ⟨some "2", none⟩) .epoch
  have htwo : (((Turn.start (.ofTables .empty)).run welcomingRequests).processor.updateSchedules
      (.ofTables .empty) .epoch [welcoming "e" 1, welcoming "d" 2]).fired.length = 2 := by
    decide +kernel
  refine ⟨htwo, hfired.length_eq.trans htwo, ms, hordered, ?_⟩
  have hids := congrArg (List.map fun f : Firing => f.scheduleId) hms
  rw [List.map_map] at hids
  refine Eq.trans hids.symm ?_
  decide +kernel

end Processor
end Automation
