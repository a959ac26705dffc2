import Automation.Proofs.Limit.Renewal
import Automation.Proofs.Processor.Restoring
import Automation.Simulation.Run

/-!
# What simulations leave behind

A store may have been through many simulations, some of which ended early, with storage that failed
now and then, and with writes that somebody carried out afterwards or lost.  Two things are true of
its tables all the same: every definition in them can be read, and no count in them is a negative
zero.  `Tables.IsOrderly` is that invariant.  It is a property of single rows, so it does not matter
which of the writes went through, and every write that a simulation can make keeps it.

`Tables.IsLeftover` are the tables that simulations can have left, beginning with none, and
`Tables.IsLeftover.isOrderly` says that they are orderly.
-/

namespace Automation

/-! ## Orderly tables -/

namespace Tables

/-- Every definition can be read, and no count is a negative zero. -/
structure IsOrderly (t : Tables) : Prop where
  constraints : t.HasReadableConstraints
  progress : t.HasPlainZeros

variable {t t' : Tables}

theorem isOrderly_empty : Tables.empty.IsOrderly := by
  constructor
  · intro id row h
    cases h
  · intro k row h
    cases h

/-- Rows that go do no harm. -/
theorem IsOrderly.mono (h : t.IsOrderly)
    (hconstraints : ∀ id row, t'.constraints.get? id = some row → t.constraints.get? id = some row)
    (hprogress : ∀ k row, t'.progress.get? k = some row → t.progress.get? k = some row) :
    t'.IsOrderly := by
  constructor
  · intro id row hrow
    exact h.constraints id row (hconstraints id row hrow)
  · intro k row hrow
    exact h.progress k row (hprogress k row hrow)

theorem get?_of_filter {κ α : Type} [LT κ] [DecidableLT κ] [DecidableEq κ] [KeyOrder κ]
    {table : Table κ α} {keep : κ → Bool} {k : κ} {row : α}
    (h : (table.filter fun k _ => keep k).get? k = some row) : table.get? k = some row := by
  rw [Table.get?_filter_key] at h
  split at h
  · exact h
  · cases h

theorem IsOrderly.filterProgress (h : t.IsOrderly) (keep : ProgressKey → Bool) :
    IsOrderly { t with progress := t.progress.filter fun k _ => keep k } :=
  h.mono (fun _ _ hrow => hrow) fun _ _ hrow => get?_of_filter hrow

theorem IsOrderly.deleteConstraints (h : t.IsOrderly) (ids : List String) :
    (t.deleteConstraints ids).IsOrderly := by
  refine h.mono (fun id row hrow => ?_) fun _ _ hrow => hrow
  have hkept : (t.constraints.filter fun id _ => !ids.contains id).get? id = some row := hrow
  exact get?_of_filter hkept

theorem IsOrderly.putConstraint (h : t.IsOrderly) {c : Constraint} (hc : c.count ≤ 0xffffffff) :
    (t.putConstraint c).IsOrderly := by
  refine ⟨fun id row hrow => ?_, h.progress⟩
  unfold Tables.putConstraint at hrow
  rw [Table.get?_insert] at hrow
  split at hrow
  · cases hrow
    exact exists_constraintOfRow hc id
  · exact h.constraints id row hrow

theorem IsOrderly.writeProgress (h : t.IsOrderly) {ps : List Progress}
    (hwritten : t.writeProgress ps = .ok t') : t'.IsOrderly := by
  unfold Tables.writeProgress at hwritten
  split at hwritten
  · cases hwritten
  · cases hwritten
    refine ⟨?_, h.progress.foldl_putProgress ps⟩
    rw [foldl_putProgress_eq]
    exact h.constraints

end Tables

/-! ## Every write keeps them -/

namespace Store

/-- A store with orderly tables. -/
def IsOrderly (s : Store) : Prop := s.tables.IsOrderly

variable {s s' : Store}

theorem IsOrderly.of_isReadOf (h : s.IsOrderly) (hread : s'.IsReadOf s) : s'.IsOrderly := by
  unfold IsOrderly
  rw [hread.tables]
  exact h

/-- A call keeps the tables orderly if what it would write does. -/
theorem IsOrderly.command (h : s.IsOrderly) {op : StoreOperation} {changes : Bool}
    {write : Tables → Except StorageError Tables}
    (hwrite : ∀ t, write s.tables = .ok t → t.IsOrderly) :
      (s.command op changes write).2.IsOrderly := by
  unfold IsOrderly
  rcases command_tables s op changes write with hsame | hwritten
  · rw [hsame]
    exact h
  · exact hwrite _ hwritten

theorem IsOrderly.persist (h : s.IsOrderly) (ps : List Progress) :
    (Processor.persist s ps).IsOrderly := by
  unfold Processor.persist
  split
  · exact h
  · exact h.command fun t ht => h.writeProgress ht

theorem IsOrderly.keepSchedules (h : s.IsOrderly) (ids : List String) :
    (s.keepSchedules ids).2.IsOrderly := by
  refine h.command fun t ht => ?_
  cases ht
  exact h.filterProgress fun k => ids.contains k.scheduleId

theorem IsOrderly.deleteTriggers (h : s.IsOrderly) (scheduleId : String) (ids : List String) :
    (s.deleteTriggers scheduleId ids).2.IsOrderly := by
  refine h.command fun t ht => ?_
  cases ht
  exact h.filterProgress fun k => !(k.scheduleId = scheduleId && ids.contains k.triggerId)

theorem IsOrderly.writeConstraint (h : s.IsOrderly) {c : Constraint} (hc : c.count ≤ 0xffffffff) :
    (s.writeConstraint c).2.IsOrderly := by
  refine h.command fun t ht => ?_
  cases ht
  exact Tables.IsOrderly.putConstraint h hc

end Store

/-! ## The limiter -/

/-- A write that defines only counts of 32 bits. -/
def PendingWrite.IsOrderly : PendingWrite → Prop
  | .occurrences _ => True
  | .replacement _ _ upsert => ∀ c ∈ upsert, c.count ≤ 0xffffffff

namespace Limiter

/-- A limiter in which only orderly writes wait. -/
def IsOrderly (l : Limiter) : Prop := ∀ w ∈ l.pending, w.IsOrderly

theorem isOrderly_upsertAll {s : Store} (hs : s.IsOrderly) {cs : List Constraint}
    (hcs : ∀ c ∈ cs, c.count ≤ 0xffffffff) : (PendingWrite.upsertAll cs s).2.IsOrderly := by
  induction cs generalizing s with
  | nil => exact hs
  | cons c rest ih =>
    rw [List.forall_mem_cons] at hcs
    have hwritten := hs.writeConstraint hcs.1
    unfold PendingWrite.upsertAll
    split
    · next hanswer =>
      rw [hanswer] at hwritten
      exact hwritten
    · next hanswer =>
      rw [hanswer] at hwritten
      exact ih hwritten hcs.2

theorem isOrderly_perform {s : Store} (hs : s.IsOrderly) {w : PendingWrite} (hw : w.IsOrderly) :
    (w.perform s).2.IsOrderly := by
  cases w with
  | occurrences batch =>
    refine hs.command fun t ht => ?_
    unfold Tables.addOccurrences at ht
    split at ht
    · cases ht
      exact ⟨hs.constraints, hs.progress⟩
    · cases ht
  | replacement delete reset upsert =>
    have hdeleted : (s.deleteConstraints delete).2.IsOrderly := hs.command fun t ht => by
      cases ht
      exact Tables.IsOrderly.deleteConstraints hs delete
    have hcleared : ((s.deleteConstraints delete).2.deleteOccurrences reset).2.IsOrderly :=
      hdeleted.command fun t ht => by
        cases ht
        exact ⟨hdeleted.constraints, hdeleted.progress⟩
    unfold PendingWrite.perform
    dsimp only
    split
    · next hanswer =>
      rw [hanswer] at hdeleted
      exact hdeleted
    · next hanswer =>
      rw [hanswer] at hcleared
      split
      · next hanswer' =>
        rw [hanswer'] at hcleared
        exact hcleared
      · next hanswer' =>
        rw [hanswer'] at hcleared
        exact isOrderly_upsertAll hcleared hw

theorem isOrderly_performAll {s : Store} (hs : s.IsOrderly) {ws : List PendingWrite}
    (hws : ∀ w ∈ ws, w.IsOrderly) : (PendingWrite.performAll ws s).2.IsOrderly := by
  rw [performAll_store]
  induction ws generalizing s with
  | nil => exact hs
  | cons w rest ih =>
    rw [List.forall_mem_cons] at hws
    exact ih (isOrderly_perform hs hws.1) hws.2

variable {l : Limiter} {s : Store}

theorem IsOrderly.flush (hl : l.IsOrderly) (hs : s.IsOrderly) :
    (l.flush s).1.IsOrderly ∧ (l.flush s).2.IsOrderly :=
  ⟨List.forall_mem_nil _, isOrderly_performAll hs hl⟩

theorem IsOrderly.drain (hl : l.IsOrderly) (hs : s.IsOrderly) :
    (l.drain s).1.IsOrderly ∧ (l.drain s).2.IsOrderly := by
  unfold Limiter.drain
  split
  · exact ⟨hl, hs⟩
  · next w rest hpending =>
    unfold IsOrderly at hl
    rw [hpending, List.forall_mem_cons] at hl
    exact ⟨hl.2, isOrderly_perform hs hl.1⟩

theorem IsOrderly.setConstraints (hl : l.IsOrderly) (hs : s.IsOrderly) {cs : List Constraint}
    (hcs : ∀ c ∈ cs, c.count ≤ 0xffffffff) :
    (l.setConstraints s cs).2.1.IsOrderly ∧ (l.setConstraints s cs).2.2.IsOrderly := by
  unfold Limiter.setConstraints
  split
  · next hread => exact ⟨hl, hs.of_isReadOf (Store.isReadOf_query hread)⟩
  · next stored s₁ hread =>
    refine ⟨List.forall_mem_nil _, ?_⟩
    refine isOrderly_performAll (hs.of_isReadOf (Store.isReadOf_query hread)) fun w hw => ?_
    rcases List.mem_append.mp hw with hw | hw
    · exact hl w hw
    · rw [List.mem_singleton.mp hw, Difference.between_eq]
      exact fun c hc => hcs c (List.mem_filter.mp hc).1

end Limiter

/-! ## The processor -/

namespace Processor

variable {p : Processor} {s : Store}

theorem isOrderly_syncSchedule (hs : s.IsOrderly) (schedule : Schedule) :
    (p.syncSchedule s schedule).2.IsOrderly := by
  unfold syncSchedule
  dsimp only
  have hwork := (hs.of_isReadOf (isReadOf_foldl_add schedule schedule.definitions
    ⟨.ofList ((p.triggersOf schedule.id).map fun t => (t.trigger.id, t)), s, [], []⟩)).persist
      (schedule.definitions.foldl (Sync.add schedule)
        ⟨.ofList ((p.triggersOf schedule.id).map fun t => (t.trigger.id, t)), s, [], []⟩).reset
  split
  · exact hwork
  · exact hwork.deleteTriggers _ _

theorem isOrderly_applyState (hs : s.IsOrderly) (now : Instant) (scheduleId : String)
    (state : ScheduleState) : (p.applyState s now scheduleId state).store.IsOrderly := by
  unfold applyState
  split
  · exact hs
  · dsimp only
    split
    · split
      · exact hs
      · exact hs.persist _
    · exact hs

theorem isOrderly_restoreSchedules (hs : s.IsOrderly) (now : Instant) (schedules : List Schedule) :
    (p.restoreSchedules s now schedules).store.IsOrderly := by
  have hfold : ∀ (todo : List Schedule) (t : Turn), t.store.IsOrderly →
      (todo.foldl (registerOne now) t).store.IsOrderly := by
    intro todo
    induction todo with
    | nil => exact fun t ht => ht
    | cons schedule rest ih =>
      exact fun t ht => ih _ (isOrderly_applyState (isOrderly_syncSchedule ht schedule) ..)
  exact (hfold _ ⟨p, s, []⟩ hs).keepSchedules _

theorem isOrderly_processEvent (hs : s.IsOrderly) (event : Event) (now : Instant) :
    (p.processEvent s event now).store.IsOrderly := by
  unfold processEvent
  dsimp only
  split
  · exact hs
  · exact hs.persist _

end Processor

/-! ## A whole simulation -/

namespace Simulation

/-- A simulation in which the tables are orderly, and what waits to be written is. -/
structure IsOrderly (x : Simulation) : Prop where
  limiter : x.limiter.IsOrderly
  store : x.store.IsOrderly

variable {x : Simulation}

theorem IsOrderly.allow (h : x.IsOrderly) (scheduleId : String) :
    (x.allow scheduleId).2.IsOrderly := by
  unfold Simulation.allow
  dsimp only
  split
  · next hprepare =>
    obtain ⟨hread, hpending, -⟩ := Limiter.prepare_spec hprepare
    refine ⟨?_, h.store.of_isReadOf hread⟩
    unfold Limiter.IsOrderly
    rw [hpending]
    exact h.limiter
  · next l s hprepare =>
    obtain ⟨hread, hpending, -⟩ := Limiter.prepare_spec hprepare
    refine ⟨fun w hw => ?_, h.store.of_isReadOf hread⟩
    have hw' : w ∈ l.pending ∨ ∃ batch, w = .occurrences batch := by
      cases hover : l.isOver ((x.constraintIds.get? scheduleId).getD []) x.clock.now with
      | true =>
        rw [Limiter.checkAndIncrement_of_isOver hover] at hw
        exact Or.inl hw
      | false =>
        rw [Limiter.checkAndIncrement_pending hover, List.mem_append] at hw
        refine hw.imp id fun hnew => ?_
        split at hnew
        · cases hnew
        · exact ⟨_, List.mem_singleton.mp hnew⟩
    rcases hw' with hw' | ⟨batch, rfl⟩
    · exact h.limiter w (hpending ▸ hw')
    · trivial

theorem IsOrderly.check (h : x.IsOrderly) (f : Firing) : (x.check f).2.IsOrderly := by
  unfold Simulation.check
  split
  · exact h
  · exact h.allow _

theorem IsOrderly.checkAll (h : x.IsOrderly) (fs : List Firing) : (checkAll fs x).2.IsOrderly := by
  induction fs generalizing x with
  | nil => exact h
  | cons f rest ih => exact ih (h.check f)

theorem IsOrderly.foldl_dispatch (h : x.IsOrderly) (ds : List Decision) :
    (ds.foldl dispatch x).IsOrderly := by
  induction ds generalizing x with
  | nil => exact h
  | cons d rest ih =>
    refine ih ?_
    unfold dispatch
    split
    · split
      · exact ⟨h.limiter, h.store⟩
      · exact h
    · exact ⟨h.limiter, h.store⟩

theorem IsOrderly.replay (h : x.IsOrderly) (steps : List ScenarioStep) :
    (replay steps x).2.1.IsOrderly ∧ (replay steps x).2.2.IsOrderly := by
  induction steps generalizing x with
  | nil => exact h.limiter.flush h.store
  | cons step rest ih =>
    unfold Simulation.replay
    split
    · exact ⟨h.limiter, h.store⟩
    · next next hstep =>
      refine ih ?_
      unfold step? at hstep
      split at hstep
      · cases hstep
      · next clock _ =>
        cases hstep
        have hmoved : IsOrderly { x with
            clock := clock
            processor := (x.processor.processEvent x.store step.event clock.now).processor
            store := (x.processor.processEvent x.store step.event clock.now).store } :=
          ⟨h.limiter, Processor.isOrderly_processEvent h.store ..⟩
        exact (hmoved.checkAll _).foldl_dispatch _

/-- Whatever a simulation is asked to do and whatever fails, it leaves orderly tables. -/
theorem isOrderly_run {s : Store} (hs : s.IsOrderly) {scenario : Scenario}
    (hcounts : ∀ c ∈ scenario.constraints, c.count ≤ 0xffffffff) (settings : Settings)
    (present : Instant) :
    (run settings scenario s present).2.1.IsOrderly ∧
      (run settings scenario s present).2.2.IsOrderly := by
  have hset := Limiter.IsOrderly.setConstraints (l := .empty) (List.forall_mem_nil _) hs hcounts
  unfold run
  dsimp only
  split
  · next hanswer =>
    rw [hanswer] at hset
    exact hset
  · next hanswer =>
    rw [hanswer] at hset
    split
    · exact hset
    · exact IsOrderly.replay ⟨hset.1, Processor.isOrderly_restoreSchedules hset.2 ..⟩ _

end Simulation

/-! ## Leftovers -/

namespace Tables

/-- Tables that simulations can have left behind.  Any of them may have ended early, its storage may
have failed at any time, and of what it left in its limiter some may have been written later. -/
inductive IsLeftover : Tables → Prop where
  | empty : IsLeftover .empty
  | run {s : Store} {scenario : Scenario} (before : IsLeftover s.tables)
      (counts : ∀ c ∈ scenario.constraints, c.count ≤ 0xffffffff) (settings : Settings)
      (present : Instant) (drains : Nat) :
      IsLeftover ((fun v : Limiter × Store => v.1.drain v.2)^[drains]
        (Simulation.run settings scenario s present).2).2.tables

theorem IsLeftover.isOrderly {t : Tables} (h : t.IsLeftover) : t.IsOrderly := by
  induction h with
  | empty => exact isOrderly_empty
  | run before counts settings present drains ih =>
    have hdrained : ∀ (n : Nat) (v : Limiter × Store), v.1.IsOrderly → v.2.IsOrderly →
        ((fun v : Limiter × Store => v.1.drain v.2)^[n] v).2.IsOrderly := by
      intro n
      induction n with
      | zero => exact fun v _ hs => hs
      | succ n ih =>
        exact fun v hl hs => ih _ (hl.drain hs).1 (hl.drain hs).2
    obtain ⟨hlimiter, hstore⟩ := Simulation.isOrderly_run ih counts settings present
    exact hdrained drains _ hlimiter hstore

end Tables
end Automation
