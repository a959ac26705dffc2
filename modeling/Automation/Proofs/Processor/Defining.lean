import Automation.Proofs.Processor.Feeding

/-!
# Defining a schedule

Definitions are prepared one after another, and each either takes over what was prepared before
under its id or begins from what is stored.  `prepareOne_spec` says which trigger comes out, as a
function of what was there before and of what the store recalls; reading changes neither, so the
order in which definitions are prepared matters only where an id is repeated.

* `Sync.add_spec`: what one definition does to the work.
* `Sync.Sound`: what holds of the work throughout, whatever the definitions look like.
* `Sync.Apart`: what holds of one id while definitions with other ids are prepared.
* `syncSchedule_spec`: what is prepared in the end, and what happens to the rows.
-/

namespace Automation

namespace Store

/-- What is recalled for a key is the progress of that trigger. -/
theorem key_of_recalled {s : Store} {k : ProgressKey} {p : Progress} (h : s.recalled k = some p) :
    p.key = k := by
  rw [recalled, Tables.progress?] at h
  cases hrow : s.tables.progress.get? ⟨k.scheduleId, k.triggerId⟩ with
  | none => simp [hrow] at h
  | some row =>
    simp only [hrow, Tables.progressOfRow] at h
    split at h
    · next hread =>
      cases hstate : row.lastState with
      | none =>
        rw [hstate] at hread
        cases hread
        cases h
        rfl
      | some text =>
        rw [hstate] at hread
        simp only [] at hread
        split at hread
        · cases hread
          cases h
          rfl
        · cases hread
    · cases h

theorem IsReadOf.recalled {s s' : Store} (h : s'.IsReadOf s) : s'.recalled = s.recalled := by
  funext k
  rw [Store.recalled, Store.recalled, h.tables]

end Store

namespace Prepared

variable {id : String} {t : Prepared}

/-- Whatever count is found, after settling it is a number. -/
theorem isFor_resetIfReached (hschedule : t.scheduleId = id)
    (hprogress : t.progress.scheduleId = id) (htrigger : t.progress.triggerId = t.trigger.id) :
    t.resetIfReached.IsFor id := by
  rw [resetIfReached]
  split
  · exact ⟨hschedule, hprogress, htrigger, fun h => by cases h⟩
  · next hnot =>
    refine ⟨hschedule, hprogress, htrigger, fun hnan => hnot ?_⟩
    rw [exceedsGoal, hnan]
    rfl

@[simp] theorem resetIfReached_trigger : t.resetIfReached.trigger = t.trigger := by
  rw [resetIfReached]
  split <;> rfl

@[simp] theorem resetIfReached_kind : t.resetIfReached.kind = t.kind := by
  rw [resetIfReached]
  split <;> rfl

theorem count_resetIfReached (h : t.exceedsGoal = true) : t.resetIfReached.progress.count = 0 := by
  rw [resetIfReached, if_pos h]

end Prepared

namespace Processor

/-! ## One definition -/

/-- The prepared trigger of a definition before it is settled, given what was prepared before and
what is recalled. -/
def found (recalled : ProgressKey → Option Progress) (schedule : Schedule)
    (existing : Option Prepared) (trigger : Trigger) (kind : Execution) : Prepared :=
  match existing.filter fun p => p.kind = kind with
  | some current => current.update trigger schedule.window schedule.priority
  | none =>
    .bind schedule.id kind trigger (recalled ⟨schedule.id, trigger.id⟩) schedule.window
      schedule.priority

section Found

variable {recalled : ProgressKey → Option Progress} {schedule : Schedule}
  {existing : Option Prepared} {trigger : Trigger} {kind : Execution}

@[simp] theorem found_trigger :
    (found recalled schedule existing trigger kind).trigger = trigger := by
  rw [found]
  split <;> rfl

@[simp] theorem found_kind : (found recalled schedule existing trigger kind).kind = kind := by
  rw [found]
  split
  · next h => exact of_decide_eq_true (Option.filter_eq_some_iff.mp h).2
  · rfl

/-- What is found stands under its schedule, once it is settled. -/
theorem isFor_found (hrecalled : ∀ k p, recalled k = some p → p.key = k)
    (hexisting : ∀ t ∈ existing, t.trigger.id = trigger.id ∧ t.IsOf schedule.id) :
    (found recalled schedule existing trigger kind).resetIfReached.IsFor schedule.id := by
  rw [found]
  split
  · next current hcurrent =>
    obtain ⟨hid, hof⟩ := hexisting current (Option.filter_eq_some_iff.mp hcurrent).1
    exact Prepared.isFor_resetIfReached hof.schedule (congrArg ProgressKey.scheduleId hof.key)
      ((congrArg ProgressKey.triggerId hof.key).trans hid)
  · cases hrow : recalled ⟨schedule.id, trigger.id⟩ with
    | none => exact Prepared.isFor_resetIfReached rfl rfl rfl
    | some p =>
      have hkey := hrecalled _ p hrow
      exact Prepared.isFor_resetIfReached rfl (congrArg ProgressKey.scheduleId hkey)
        (congrArg ProgressKey.triggerId hkey)

end Found

theorem prepareOne_spec {s : Store} (hs : s.Allows .readProgress) (schedule : Schedule)
    (existing : Option Prepared) (trigger : Trigger) (kind : Execution) :
    (prepareOne schedule existing s trigger kind).1 = found s.recalled schedule existing trigger kind ∧
      (prepareOne schedule existing s trigger kind).2.IsReadOf s := by
  rw [prepareOne, found]
  cases existing.filter fun p => p.kind = kind with
  | some current => exact ⟨rfl, .refl s⟩
  | none =>
    obtain ⟨hprogress, hstore⟩ := loadProgress_spec hs schedule.id trigger.id
    rw [← hprogress]
    exact ⟨rfl, hstore⟩

/-- Preparing definitions reads the store and writes nothing, whatever the store allows. -/
theorem isReadOf_add (schedule : Schedule) (w : Sync) (d : Trigger × Execution) :
    (w.add schedule d).store.IsReadOf w.store := by
  unfold Sync.add prepareOne
  dsimp only
  split
  · exact .refl _
  · exact isReadOf_loadProgress w.store schedule.id d.1.id

theorem isReadOf_foldl_add (schedule : Schedule) (ds : List (Trigger × Execution)) (w : Sync) :
    (ds.foldl (Sync.add schedule) w).store.IsReadOf w.store := by
  induction ds generalizing w with
  | nil => exact .refl _
  | cons d rest ih => exact (isReadOf_add schedule w d).trans (ih _)

namespace Sync

/-- What one definition does to the work on a schedule. -/
theorem add_spec {w : Sync} (hs : w.store.Allows .readProgress) (schedule : Schedule)
    (d : Trigger × Execution) :
    let t := found w.store.recalled schedule (w.existing.get? d.1.id) d.1 d.2
    (w.add schedule d).existing = w.existing.erase d.1.id ∧
      (w.add schedule d).store.IsReadOf w.store ∧
      (w.add schedule d).prepared = w.prepared ++ [t.resetIfReached] ∧
      (w.add schedule d).reset =
        if t.exceedsGoal then w.reset ++ [t.resetIfReached.progress] else w.reset := by
  obtain ⟨hfound, hstore⟩ := prepareOne_spec hs schedule (w.existing.get? d.1.id) d.1 d.2
  rw [← hfound]
  exact ⟨rfl, hstore, rfl, rfl⟩

/-- What holds of the work on a schedule throughout: nothing is written, every trigger stands under
the schedule, what is prepared has a number for a count, and what was dropped has the count zero. -/
structure Sound (schedule : Schedule) (s : Store) (w : Sync) : Prop where
  read : w.store.IsReadOf s
  existing : ∀ id t, w.existing.get? id = some t → t.trigger.id = id ∧ t.IsOf schedule.id
  prepared : ∀ t ∈ w.prepared, t.IsFor schedule.id
  reset : ∀ p ∈ w.reset, p.scheduleId = schedule.id ∧ p.count = 0

theorem Sound.add {schedule : Schedule} {s : Store} {w : Sync} (h : w.Sound schedule s)
    (hs : s.Allows .readProgress) (d : Trigger × Execution) :
      (w.add schedule d).Sound schedule s := by
  obtain ⟨hexisting, hstore, hprepared, hreset⟩ := add_spec ((h.read.allows _).mpr hs) schedule d
  have hfor : (found w.store.recalled schedule (w.existing.get? d.1.id) d.1
      d.2).resetIfReached.IsFor schedule.id :=
    isFor_found (fun k p => Store.key_of_recalled) fun t ht => h.existing _ t ht
  refine ⟨h.read.trans hstore, ?_, ?_, ?_⟩
  · intro id t ht
    rw [hexisting, Table.get?_erase] at ht
    split at ht
    · cases ht
    · exact h.existing id t ht
  · intro t ht
    rw [hprepared, List.mem_append, List.mem_singleton] at ht
    rcases ht with ht | rfl
    · exact h.prepared t ht
    · exact hfor
  · intro p hp
    rw [hreset] at hp
    split at hp
    · next hexceeds =>
      rw [List.mem_append, List.mem_singleton] at hp
      rcases hp with hp | rfl
      · exact h.reset p hp
      · exact ⟨hfor.progressSchedule, Prepared.count_resetIfReached hexceeds⟩
    · exact h.reset p hp

theorem Sound.foldl_add {schedule : Schedule} {s : Store} (hs : s.Allows .readProgress)
    (ds : List (Trigger × Execution)) {w : Sync} (h : w.Sound schedule s) :
    (ds.foldl (Sync.add schedule) w).Sound schedule s := by
  induction ds generalizing w with
  | nil => exact h
  | cons d rest ih => exact ih (h.add hs d)

/-- What holds of the work as far as one id goes: what is there to be taken over, what has been
prepared, and that nothing was dropped. -/
structure Apart (id : String) (existing : Option Prepared) (prepared : List Prepared) (w : Sync) :
    Prop where
  existing : w.existing.get? id = existing
  prepared : (w.prepared.filter fun t => t.trigger.id = id) = prepared
  reset : ∀ p ∈ w.reset, p.triggerId ≠ id

/-- Definitions with other ids change nothing about an id. -/
theorem Apart.foldl_add {schedule : Schedule} {s : Store} (hs : s.Allows .readProgress) {id : String}
    {e : Option Prepared} {ts : List Prepared} {ds : List (Trigger × Execution)}
    (hds : ∀ d ∈ ds, d.1.id ≠ id) {w : Sync} (hw : w.Sound schedule s) (h : w.Apart id e ts) :
    (ds.foldl (Sync.add schedule) w).Apart id e ts := by
  induction ds generalizing w with
  | nil => exact h
  | cons d rest ih =>
    have hne : d.1.id ≠ id := hds d List.mem_cons_self
    refine ih (fun d' hd' => hds d' (List.mem_cons_of_mem _ hd')) (hw.add hs d) ?_
    obtain ⟨hexisting, -, hprepared, hreset⟩ := add_spec ((hw.read.allows _).mpr hs) schedule d
    have hfor := (hw.add hs d).prepared
    refine ⟨?_, ?_, ?_⟩
    · rw [hexisting, Table.get?_erase, if_neg (Ne.symm hne), h.existing]
    · rw [hprepared, List.filter_append, h.prepared, List.filter_cons_of_neg (by simpa using hne),
        List.filter_nil, List.append_nil]
    · intro p hp
      rw [hreset] at hp
      split at hp
      · rw [List.mem_append, List.mem_singleton] at hp
        rcases hp with hp | rfl
        · exact h.reset p hp
        · have hlast := (hfor _ (hprepared ▸ List.mem_append_right _ (List.mem_singleton_self _)))
          rw [hlast.progressTrigger, Prepared.resetIfReached_trigger, found_trigger]
          exact hne
      · exact h.reset p hp

/-- The definition of an id takes over what was there, if it need not be settled. -/
theorem Apart.add {schedule : Schedule} {s : Store} (hs : s.Allows .readProgress) {trigger : Trigger}
    {kind : Execution} {e : Option Prepared} {w : Sync} (hw : w.Sound schedule s)
    (h : w.Apart trigger.id e [])
    (hbelow : (found s.recalled schedule e trigger kind).exceedsGoal = false) :
    (w.add schedule (trigger, kind)).Apart trigger.id none
      [found s.recalled schedule e trigger kind] := by
  obtain ⟨hexisting, -, hprepared, hreset⟩ :=
    add_spec ((hw.read.allows _).mpr hs) schedule (trigger, kind)
  simp only [h.existing, hw.read.recalled] at hprepared hreset
  refine ⟨?_, ?_, ?_⟩
  · rw [hexisting, Table.get?_erase, if_pos rfl]
  · rw [hprepared, List.filter_append, h.prepared, List.nil_append,
      List.filter_cons_of_pos (by simp), List.filter_nil, Prepared.resetIfReached, hbelow,
      if_neg Bool.false_ne_true]
  · rw [hreset, hbelow, if_neg Bool.false_ne_true]
    exact h.reset

end Sync

/-! ## A whole schedule -/

/-- The work on a schedule once all of its definitions are prepared. -/
def syncWork (p : Processor) (s : Store) (schedule : Schedule) : Sync :=
  schedule.definitions.foldl (Sync.add schedule)
    ⟨.ofList ((p.triggersOf schedule.id).map fun t => (t.trigger.id, t)), s, [], []⟩

/-- The ids whose triggers are gone. -/
def Sync.stale (w : Sync) : List String :=
  w.existing.keys.filter fun id => !(w.prepared.map (·.trigger.id)).contains id

/-- Of the triggers prepared before, the last one with an id is there to be taken over. -/
theorem get?_ofList_triggers (ts : List Prepared) (id : String) :
    (Table.ofList (ts.map fun t => (t.trigger.id, t))).get? id =
      (ts.filter fun t => t.trigger.id = id).getLast? := by
  rw [Table.ofList, Table.get?_foldl_insert, Table.get?_empty, Option.or_none, List.filter_map,
    List.getLast?_map, Option.map_map]
  exact Option.map_id_apply

variable {p : Processor} {s : Store} {schedule : Schedule}

theorem IsProper.mem_triggersOf (hp : p.IsProper) {id : String} {t : Prepared}
    (ht : t ∈ p.triggersOf id) : t.IsFor id := by
  rw [triggersOf] at ht
  cases hts : p.prepared.get? id with
  | none =>
    rw [hts] at ht
    cases ht
  | some ts =>
    rw [hts] at ht
    exact hp id ts hts t ht

/-- The triggers that are prepared for a schedule stand under it. -/
def Owns (p : Processor) (id : String) : Prop := ∀ t ∈ p.triggersOf id, t.IsOf id

theorem IsProper.owns (hp : p.IsProper) (id : String) : p.Owns id := fun _ ht =>
  (hp.mem_triggersOf ht).isOf

/-- The work begins with nothing prepared. -/
theorem sound_start (hp : p.Owns schedule.id) (s : Store) :
    Sync.Sound schedule s
      ⟨.ofList ((p.triggersOf schedule.id).map fun t => (t.trigger.id, t)), s, [], []⟩ := by
  refine ⟨.refl s, fun id t ht => ?_, List.forall_mem_nil _, List.forall_mem_nil _⟩
  rw [get?_ofList_triggers] at ht
  obtain ⟨hmem, hid⟩ := List.mem_filter.mp (List.mem_of_getLast? ht)
  exact ⟨of_decide_eq_true hid, hp t hmem⟩

theorem sound_syncWork (hp : p.Owns schedule.id) (hs : s.Allows .readProgress) :
    (p.syncWork s schedule).Sound schedule s :=
  Sync.Sound.foldl_add hs _ (sound_start hp s)

/-- Defining a schedule leaves every row but those of its own triggers that are dropped or gone. -/
theorem progressRow_syncSchedule {k : ProgressKey}
    (hreset : ∀ q ∈ (p.syncWork s schedule).reset, q.key ≠ k)
    (hstale : k.scheduleId = schedule.id → k.triggerId ∉ (p.syncWork s schedule).stale)
    (hstore : (p.syncWork s schedule).store.IsReadOf s) :
    (p.syncSchedule s schedule).2.progressRow k = s.progressRow k := by
  have hpersist : (persist (p.syncWork s schedule).store
      (p.syncWork s schedule).reset).progressRow k = s.progressRow k := by
    rw [progressRow_persist_of_ne hreset, Store.progressRow, Store.progressRow, hstore.tables]
  rw [← hpersist]
  show (if (p.syncWork s schedule).stale.isEmpty then _ else _ : Store).progressRow k = _
  split
  · rfl
  · exact Store.progressRow_deleteTriggers hstale

/-- Defining a schedule does not change what the store allows. -/
theorem allows_syncSchedule_of_read (hstore : (p.syncWork s schedule).store.IsReadOf s)
    {op : StoreOperation} : (p.syncSchedule s schedule).2.Allows op ↔ s.Allows op := by
  rw [← hstore.allows]
  show (if (p.syncWork s schedule).stale.isEmpty then _ else _ : Store).Allows op ↔ _
  split
  · exact allows_persist
  · exact Store.allows_command.trans allows_persist

theorem allows_syncSchedule (hp : p.Owns schedule.id) (hs : s.Allows .readProgress)
    {op : StoreOperation} :
    (p.syncSchedule s schedule).2.Allows op ↔ s.Allows op :=
  allows_syncSchedule_of_read (sound_syncWork hp hs).read

theorem get?_syncSchedule (id : String) :
    (p.syncSchedule s schedule).1.prepared.get? id =
      if id = schedule.id then some (p.syncWork s schedule).prepared else p.prepared.get? id :=
  Table.get?_insert ..

theorem triggersOf_syncSchedule (p : Processor) (s : Store) (schedule : Schedule) (id : String) :
    (p.syncSchedule s schedule).1.triggersOf id =
      if id = schedule.id then (p.syncWork s schedule).prepared else p.triggersOf id := by
  rw [triggersOf, get?_syncSchedule]
  split <;> rfl

theorem IsProper.syncSchedule (hp : p.IsProper) (hs : s.Allows .readProgress) (schedule : Schedule) :
    (p.syncSchedule s schedule).1.IsProper := by
  intro id ts hts
  rw [get?_syncSchedule] at hts
  split at hts
  · next hid =>
    cases hts
    exact hid ▸ (sound_syncWork (hp.owns _) hs).prepared
  · exact hp id ts hts

/-! ## One trigger of a schedule -/

/-- A schedule has an execution trigger, and no other trigger of it has that id. -/
def Defines (schedule : Schedule) (trigger : Trigger) : Prop :=
  ∃ before after, schedule.triggers = before ++ trigger :: after ∧
    ∀ other ∈ before ++ after ++ schedule.cancellationTriggers, other.id ≠ trigger.id

end Processor
end Automation
