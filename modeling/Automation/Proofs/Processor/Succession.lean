import Automation.Proofs.Processor.Standing

/-!
# What a schedule's triggers become when it is defined again

If the ids of a schedule's definitions are distinct, its definitions are prepared independently of
each other: each becomes its `successor`, which is the trigger that was prepared before under its id
and kind, or a new one with the progress that is stored.  So what defining a schedule does to memory
and rows can be said definition by definition, which `syncWork_of_distinct` and
`resumed_syncSchedule` do.

## Triggers whose progress is stored

A trigger that is taken over brings its progress from memory.  If that is the progress the store
would give back, it does not matter which of the two happens: the successor begins with what is
stored.  What the goal leaves no room for is dropped on both sides.
-/

namespace Automation
namespace Processor

variable {p : Processor} {s : Store} {schedule : Schedule} {d : Trigger × Execution}

/-! ## The work on distinct definitions -/

/-- The work on definitions with distinct ids: each takes over what was there under its id when the
work began. -/
theorem foldl_add_of_distinct (hs : s.Allows .readProgress) (schedule : Schedule)
    (next : Trigger × Execution → Prepared) {ds : List (Trigger × Execution)}
    (hdistinct : (ds.map (·.1.id)).Nodup) {w : Sync} (hread : w.store.IsReadOf s)
    (hnext : ∀ d ∈ ds, found s.recalled schedule (w.existing.get? d.1.id) d.1 d.2 = next d) :
    let work := ds.foldl (Sync.add schedule) w
    work.store.IsReadOf s ∧
      (∀ id t, work.existing.get? id = some t → w.existing.get? id = some t) ∧
      work.prepared = w.prepared ++ ds.map (fun d => (next d).resetIfReached) ∧
      work.reset = w.reset ++ (ds.filter fun d => (next d).exceedsGoal).map
        fun d => (next d).resetIfReached.progress := by
  induction ds generalizing w with
  | nil =>
    refine ⟨hread, fun _ _ h => h, ?_, ?_⟩
    · rw [List.map_nil, List.append_nil, List.foldl_nil]
    · rw [List.filter_nil, List.map_nil, List.append_nil, List.foldl_nil]
  | cons d rest ih =>
    rw [List.map_cons, List.nodup_cons] at hdistinct
    obtain ⟨hexisting, hstore, hprepared, hreset⟩ :=
      Sync.add_spec ((hread.allows _).mpr hs) schedule d
    rw [hread.recalled, hnext d List.mem_cons_self] at hprepared hreset
    obtain ⟨hdone, hleft, hall, hdropped⟩ := ih hdistinct.2 (w := w.add schedule d)
      (hread.trans hstore) fun d' hd' => by
        -- taking over one trigger leaves the others where they are
        have hne : ¬ d'.1.id = d.1.id := fun heq =>
          hdistinct.1 (heq ▸ List.mem_map_of_mem (f := fun d => d.1.id) hd')
        rw [hexisting, Table.get?_erase, if_neg hne]
        exact hnext d' (List.mem_cons_of_mem _ hd')
    refine ⟨hdone, fun id t ht => ?_, ?_, ?_⟩
    · have hbefore := hleft id t ht
      rw [hexisting, Table.get?_erase] at hbefore
      split at hbefore
      · cases hbefore
      · exact hbefore
    · rw [List.foldl_cons, hall, hprepared, List.append_assoc, List.map_cons,
        List.singleton_append]
    · rw [List.foldl_cons, hdropped, hreset, List.filter_cons]
      split
      · rw [List.append_assoc, List.map_cons, List.singleton_append]
      · rfl

/-- What a definition becomes before it is settled: the trigger that was prepared under its id and
kind, or a new one. -/
def successor (p : Processor) (s : Store) (schedule : Schedule) (d : Trigger × Execution) :
    Prepared :=
  found s.recalled schedule (withId d.1.id (p.triggersOf schedule.id)).getLast? d.1 d.2

theorem syncWork_of_distinct (hs : s.Allows .readProgress)
    (hdistinct : (schedule.definitions.map (·.1.id)).Nodup) (p : Processor) :
    (p.syncWork s schedule).store.IsReadOf s ∧
      (∀ id t, (p.syncWork s schedule).existing.get? id = some t →
        t ∈ p.triggersOf schedule.id) ∧
      (p.syncWork s schedule).prepared =
        schedule.definitions.map (fun d => (successor p s schedule d).resetIfReached) ∧
      (p.syncWork s schedule).reset =
        (schedule.definitions.filter fun d => (successor p s schedule d).exceedsGoal).map
          fun d => (successor p s schedule d).resetIfReached.progress := by
  obtain ⟨hread, hleft, hprepared, hreset⟩ := foldl_add_of_distinct hs schedule
    (successor p s schedule) hdistinct
    (w := ⟨.ofList ((p.triggersOf schedule.id).map fun t => (t.trigger.id, t)), s, [], []⟩)
    (.refl s) fun d _ => by
      rw [get?_ofList_triggers]
      rfl
  refine ⟨hread, fun id t ht => ?_, hprepared, hreset⟩
  have hbefore := hleft id t ht
  rw [get?_ofList_triggers] at hbefore
  exact (List.mem_filter.mp (List.mem_of_getLast? hbefore)).1

/-! ## One definition -/

theorem successor_trigger : (successor p s schedule d).trigger = d.1 := found_trigger

theorem successor_kind : (successor p s schedule d).kind = d.2 := found_kind

theorem isFor_successor (hfor : ∀ t ∈ p.triggersOf schedule.id, t.IsFor schedule.id) :
    (successor p s schedule d).resetIfReached.IsFor schedule.id := by
  refine isFor_found (fun k p => Store.key_of_recalled) fun t ht => ?_
  obtain ⟨hmem, hid⟩ := List.mem_filter.mp (List.mem_of_getLast? ht)
  exact ⟨of_decide_eq_true hid, (hfor t hmem).isOf⟩

theorem key_successor (hfor : ∀ t ∈ p.triggersOf schedule.id, t.IsFor schedule.id) :
    (successor p s schedule d).resetIfReached.progress.key = ⟨schedule.id, d.1.id⟩ := by
  have hsettled := isFor_successor (s := s) (d := d) hfor
  rw [Progress.key, hsettled.progressSchedule, hsettled.progressTrigger,
    Prepared.resetIfReached_trigger, successor_trigger]

/-- A successor has the progress of the trigger that it takes over, which has its id and kind, or
begins with what is stored. -/
theorem successor_progress_cases (p : Processor) (s : Store) (schedule : Schedule)
    (d : Trigger × Execution) :
    (∃ t ∈ p.triggersOf schedule.id, t.trigger.id = d.1.id ∧ t.kind = d.2 ∧
      (successor p s schedule d).progress = t.progress) ∨
      (successor p s schedule d).progress = s.resumed ⟨schedule.id, d.1.id⟩ := by
  rw [successor, found]
  split
  · next t ht =>
    obtain ⟨hlast, hkind⟩ := Option.filter_eq_some_iff.mp ht
    obtain ⟨hmem, hid⟩ := List.mem_filter.mp (List.mem_of_getLast? hlast)
    exact Or.inl ⟨t, hmem, of_decide_eq_true hid, of_decide_eq_true hkind, rfl⟩
  · exact Or.inr rfl

/-- A successor begins with what is stored, if that is what the triggers of its kind have. -/
theorem successor_progress
    (hheld : ∀ t ∈ p.triggersOf schedule.id, t.kind = d.2 →
      t.progress = s.resumed ⟨schedule.id, t.trigger.id⟩) :
    (successor p s schedule d).progress = s.resumed ⟨schedule.id, d.1.id⟩ := by
  rcases successor_progress_cases p s schedule d with ⟨t, ht, hid, hkind, hprogress⟩ | hprogress
  · rw [hprogress, hheld t ht hkind, hid]
  · exact hprogress

/-- What is prepared is settled. -/
theorem exceedsGoal_resetIfReached (t : Prepared) : t.resetIfReached.exceedsGoal = false := by
  rw [Prepared.resetIfReached]
  split
  · rfl
  · next h => exact Bool.eq_false_iff.mpr h

/-! ## The rows of a schedule -/

/-- The row of a trigger that is defined is not deleted. -/
theorem not_mem_stale (hs : s.Allows .readProgress)
    (hdistinct : (schedule.definitions.map (·.1.id)).Nodup) (hd : d ∈ schedule.definitions)
    (p : Processor) : d.1.id ∉ (p.syncWork s schedule).stale := by
  obtain ⟨-, -, hprepared, -⟩ := syncWork_of_distinct hs hdistinct p
  intro hstale
  rw [Sync.stale, List.mem_filter, Bool.not_eq_true', ← Bool.not_eq_true, List.contains_iff_mem,
    hprepared, List.map_map] at hstale
  refine hstale.2 (List.mem_map.mpr ⟨d, hd, ?_⟩)
  rw [Function.comp_apply, Prepared.resetIfReached_trigger, successor_trigger]

/-- Of all that is dropped, what is dropped for one definition. -/
theorem filter_dropped (hdistinct : (schedule.definitions.map (·.1.id)).Nodup)
    (hfor : ∀ t ∈ p.triggersOf schedule.id, t.IsFor schedule.id)
    (hd : d ∈ schedule.definitions) :
    ((schedule.definitions.filter fun d => (successor p s schedule d).exceedsGoal).map
        fun d => (successor p s schedule d).resetIfReached.progress).filter
          (fun q => q.key = ⟨schedule.id, d.1.id⟩) =
      if (successor p s schedule d).exceedsGoal then
        [(successor p s schedule d).resetIfReached.progress]
      else [] := by
  have hkey : (schedule.definitions.filter fun e =>
      decide ((successor p s schedule e).resetIfReached.progress.key = ⟨schedule.id, d.1.id⟩)) =
        [d] := by
    rw [← filter_eq_singleton hdistinct hd]
    refine List.filter_congr fun e _ => decide_eq_decide.mpr ?_
    rw [key_successor hfor, ProgressKey.mk.injEq]
    exact and_iff_right rfl
  rw [List.filter_map, List.filter_comm, Function.comp_def, hkey, List.filter_cons,
    List.filter_nil]
  split <;> rfl

/-- What is dropped has the count zero. -/
theorem count_dropped (hs : s.Allows .readProgress)
    (hdistinct : (schedule.definitions.map (·.1.id)).Nodup) {q : Progress}
    (hq : q ∈ (p.syncWork s schedule).reset) : q.count = 0 := by
  obtain ⟨-, -, -, hreset⟩ := syncWork_of_distinct hs hdistinct p
  rw [hreset] at hq
  obtain ⟨e, he, rfl⟩ := List.mem_map.mp hq
  exact Prepared.count_resetIfReached (List.mem_filter.mp he).2

section Rows

variable (hs : s.IsReliable) (hdistinct : (schedule.definitions.map (·.1.id)).Nodup)
  (hfor : ∀ t ∈ p.triggersOf schedule.id, t.IsFor schedule.id)

include hs hdistinct hfor

/-- The rows of other schedules stay. -/
theorem progressRow_syncSchedule_of_ne {k : ProgressKey} (hk : k.scheduleId ≠ schedule.id) :
    (p.syncSchedule s schedule).2.progressRow k = s.progressRow k := by
  obtain ⟨hread, -, -, hreset⟩ := syncWork_of_distinct (hs _) hdistinct p
  refine progressRow_syncSchedule (fun q hq hkey => hk ?_) (fun h => absurd h hk) hread
  rw [hreset] at hq
  obtain ⟨e, -, rfl⟩ := List.mem_map.mp hq
  rw [← hkey, key_successor hfor]

/-- The row of a trigger that need not be settled stays. -/
theorem progressRow_syncSchedule_of_below (hd : d ∈ schedule.definitions)
    (hbelow : (successor p s schedule d).exceedsGoal = false) :
    (p.syncSchedule s schedule).2.progressRow ⟨schedule.id, d.1.id⟩ =
      s.progressRow ⟨schedule.id, d.1.id⟩ := by
  obtain ⟨hread, -, -, hreset⟩ := syncWork_of_distinct (hs _) hdistinct p
  have hdropped := filter_dropped (s := s) hdistinct hfor hd
  rw [← hreset, hbelow, if_neg Bool.false_ne_true] at hdropped
  refine progressRow_syncSchedule (fun q hq hkey => ?_)
    (fun _ => not_mem_stale (hs _) hdistinct hd p) hread
  exact List.filter_eq_nil_iff.mp hdropped q hq (decide_eq_true hkey)

/-- The progress of a trigger that is settled is written. -/
theorem progressRow_syncSchedule_of_exceeds (hd : d ∈ schedule.definitions)
    (hexceeds : (successor p s schedule d).exceedsGoal = true) :
    (p.syncSchedule s schedule).2.progressRow ⟨schedule.id, d.1.id⟩ =
      some (Tables.rowOfProgress (successor p s schedule d).resetIfReached.progress) := by
  obtain ⟨hread, -, -, hreset⟩ := syncWork_of_distinct (hs _) hdistinct p
  have hdropped := filter_dropped (s := s) hdistinct hfor hd
  rw [← hreset, hexceeds, if_pos rfl, ← key_successor (s := s) (d := d) hfor] at hdropped
  have hwritten := progressRow_persist ((hread.allows _).mpr (hs _))
    (fun q hq => count_dropped (hs _) hdistinct hq ▸ fun h => by cases h) hdropped
  rw [← key_successor (s := s) (d := d) hfor, ← hwritten]
  show (if (p.syncWork s schedule).stale.isEmpty then _ else _ : Store).progressRow _ = _
  split
  · rfl
  · refine Store.progressRow_deleteTriggers fun _ => ?_
    rw [key_successor hfor]
    exact not_mem_stale (hs _) hdistinct hd p

/-- The progress of a trigger that is settled is stored. -/
theorem resumed_syncSchedule (hd : d ∈ schedule.definitions)
    (hprogress : (successor p s schedule d).progress = s.resumed ⟨schedule.id, d.1.id⟩) :
    (p.syncSchedule s schedule).2.resumed ⟨schedule.id, d.1.id⟩ =
      (successor p s schedule d).resetIfReached.progress := by
  cases hexceeds : (successor p s schedule d).exceedsGoal with
  | false =>
    rw [Store.resumed_congr (progressRow_syncSchedule_of_below hs hdistinct hfor hd hexceeds),
      Prepared.resetIfReached, hexceeds, if_neg Bool.false_ne_true, hprogress]
  | true =>
    have hrow := progressRow_syncSchedule_of_exceeds hs hdistinct hfor hd hexceeds
    have hcount := Prepared.count_resetIfReached hexceeds
    rw [← key_successor (s := s) (d := d) hfor] at hrow ⊢
    exact Store.resumed_of_progressRow hrow (by rw [hcount]; rfl)

end Rows

end Processor
end Automation
