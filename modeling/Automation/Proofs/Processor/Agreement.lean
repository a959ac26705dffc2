import Automation.Proofs.Processor.Holding

/-!
# What one schedule sees

The part of a turn that belongs to a schedule is its prepared triggers, its rows and its firings.
What an operation makes of it depends on little more: the groups that the schedule is in, the
remembered state, and whether the processor is paused.  `Turn.AgreesOn` says that two turns have all
that in common for a schedule.  They may differ in everything else, other schedules included.

For every operation there are two facts.

* It is *confined*: carried out on turns that agree on a schedule it leaves turns that do.  What an
  event or a state leaves to be written and what it fires can be told apart by schedule
  (`forSchedule_flatMap`, `filter_firings`), and definitions are prepared from the schedule's own
  triggers and rows (`syncWork_congr`).
* It is *aside*: carried out for another schedule it leaves a turn that agrees with the one before.

`agreesOn_settle` carries the first for everything that is fired and written.  It also carries the
second, because to have done nothing is to have settled no outcomes.
-/

namespace Automation

/-! ## Agreement -/

/-- The rows of a schedule are the same. -/
def Store.AgreesOn (id : String) (s s' : Store) : Prop :=
  ∀ triggerId, s'.progressRow ⟨id, triggerId⟩ = s.progressRow ⟨id, triggerId⟩

namespace Processor

/-- What a processor knows that matters to a schedule is the same. -/
structure AgreesOn (id : String) (p p' : Processor) : Prop where
  prepared : p'.prepared.get? id = p.prepared.get? id
  groups : ∀ group, id ∈ members p'.groups group ↔ id ∈ members p.groups group
  lastState : p'.lastState = p.lastState
  paused : p'.paused = p.paused

end Processor

/-- The firings of a schedule. -/
def firedOf (id : String) (fs : List Firing) : List Firing := fs.filter fun f => f.scheduleId = id

/-- Every trigger stands under its schedule, whatever its count, and no call of the store is
refused. -/
structure Turn.IsOwned (t : Turn) : Prop where
  reliable : t.store.IsReliable
  owns : ∀ id, t.processor.Owns id

/-- Two turns are the same for a schedule. -/
structure Turn.AgreesOn (id : String) (t t' : Turn) : Prop where
  processor : t.processor.AgreesOn id t'.processor
  store : t.store.AgreesOn id t'.store
  fired : firedOf id t'.fired = firedOf id t.fired

section Equivalence

variable {id : String}

theorem Store.AgreesOn.refl (s : Store) : s.AgreesOn id s := fun _ => rfl

theorem Store.AgreesOn.trans {a b c : Store} (hab : a.AgreesOn id b) (hbc : b.AgreesOn id c) :
    a.AgreesOn id c := fun triggerId => (hbc triggerId).trans (hab triggerId)

theorem Store.AgreesOn.symm {a b : Store} (h : a.AgreesOn id b) : b.AgreesOn id a :=
  fun triggerId => (h triggerId).symm

theorem Processor.AgreesOn.refl (p : Processor) : p.AgreesOn id p :=
  ⟨rfl, fun _ => Iff.rfl, rfl, rfl⟩

theorem Processor.AgreesOn.trans {a b c : Processor} (hab : a.AgreesOn id b)
    (hbc : b.AgreesOn id c) : a.AgreesOn id c :=
  ⟨hbc.prepared.trans hab.prepared, fun group => (hbc.groups group).trans (hab.groups group),
    hbc.lastState.trans hab.lastState, hbc.paused.trans hab.paused⟩

theorem Processor.AgreesOn.symm {a b : Processor} (h : a.AgreesOn id b) : b.AgreesOn id a :=
  ⟨h.prepared.symm, fun group => (h.groups group).symm, h.lastState.symm, h.paused.symm⟩

theorem Processor.AgreesOn.triggersOf {p p' : Processor} (h : p.AgreesOn id p') :
    p'.triggersOf id = p.triggersOf id := by
  rw [Processor.triggersOf, Processor.triggersOf, h.prepared]

theorem Processor.AgreesOn.owns {p p' : Processor} (h : p.AgreesOn id p') (hp : p.Owns id) :
    p'.Owns id := by
  rw [Owns, h.triggersOf]
  exact hp

theorem Turn.AgreesOn.refl (t : Turn) : t.AgreesOn id t := ⟨.refl _, .refl _, rfl⟩

theorem Turn.AgreesOn.trans {a b c : Turn} (hab : a.AgreesOn id b) (hbc : b.AgreesOn id c) :
    a.AgreesOn id c :=
  ⟨hab.processor.trans hbc.processor, hab.store.trans hbc.store, hbc.fired.trans hab.fired⟩

theorem Turn.AgreesOn.symm {a b : Turn} (h : a.AgreesOn id b) : b.AgreesOn id a :=
  ⟨h.processor.symm, h.store.symm, h.fired.symm⟩

/-- Agreement goes on after turns that have fired the same. -/
theorem Turn.AgreesOn.followedBy {t t' next next' : Turn} (h : t.AgreesOn id t')
    (hnext : next.AgreesOn id next') : (t.followedBy next).AgreesOn id (t'.followedBy next') := by
  refine ⟨hnext.processor, hnext.store, ?_⟩
  have hfired := hnext.fired
  rw [firedOf, firedOf] at hfired
  rw [firedOf, firedOf, Turn.followedBy, Turn.followedBy, List.filter_append, List.filter_append,
    hfired]
  exact congrArg (· ++ _) h.fired

/-- A turn is followed by one in which nothing has changed. -/
theorem Turn.followedBy_nil (t : Turn) : t.followedBy ⟨t.processor, t.store, []⟩ = t := by
  rw [Turn.followedBy, List.append_nil]

/-- What is aside is aside after whatever has fired. -/
theorem Turn.AgreesOn.aside {t next : Turn}
    (h : Turn.AgreesOn id ⟨t.processor, t.store, []⟩ next) : t.AgreesOn id (t.followedBy next) := by
  have hboth := (Turn.AgreesOn.refl t).followedBy h
  rwa [Turn.followedBy_nil] at hboth

end Equivalence

namespace Processor

/-! ## Outcomes by schedule -/

/-- The outcomes that are for triggers of a schedule. -/
def forSchedule (id : String) (os : List (Int × Outcome)) : List (Int × Outcome) :=
  os.filter fun o => o.2.progress.scheduleId = id

/-- Outcomes that can be written, each of which fires for the schedule it is for. -/
structure AreSound (os : List (Int × Outcome)) : Prop where
  count : ∀ o ∈ os, o.2.progress.count ≠ .nan
  firing : ∀ o ∈ os, ∀ f ∈ o.2.firing, f.scheduleId = o.2.progress.scheduleId

theorem areSound_nil : AreSound [] := ⟨List.forall_mem_nil _, List.forall_mem_nil _⟩

section Outcomes

variable {id scheduleId : String} {ts : List Prepared} {event : Event} {now : Instant}

theorem scheduleId_of_mem_outcomes (hts : ∀ t ∈ ts, t.IsFor scheduleId) {o : Int × Outcome}
    (h : o ∈ outcomes event now ts) : o.2.progress.scheduleId = scheduleId := by
  obtain ⟨t, ht, ho, -⟩ := mem_outcomes.mp h
  exact congrArg ProgressKey.scheduleId (key_of_process (hts t ht) ho)

/-- What triggers of a schedule leave to be written is sound, if it is numbers. -/
theorem areSound_outcomes (hts : ∀ t ∈ ts, t.IsFor scheduleId)
    (hcount : ∀ o ∈ outcomes event now ts, o.2.progress.count ≠ .nan) :
    AreSound (outcomes event now ts) := by
  refine ⟨hcount, fun o ho f hf => ?_⟩
  have hof := isFiringOf_of_mem_outcomes hts ho f hf
  rw [isFiringOf, Bool.and_eq_true] at hof
  exact of_decide_eq_true hof.1

theorem forSchedule_outcomes (hts : ∀ t ∈ ts, t.IsFor id) :
    forSchedule id (outcomes event now ts) = outcomes event now ts :=
  List.filter_eq_self.mpr fun _ ho => decide_eq_true (scheduleId_of_mem_outcomes hts ho)

theorem forSchedule_outcomes_of_ne (hts : ∀ t ∈ ts, t.IsFor scheduleId) (hne : scheduleId ≠ id) :
    forSchedule id (outcomes event now ts) = [] :=
  List.filter_eq_nil_iff.mpr fun _ ho hid =>
    hne ((scheduleId_of_mem_outcomes hts ho).symm.trans (of_decide_eq_true hid))

/-- Of all outcomes of an event those for a schedule come from its own triggers. -/
theorem forSchedule_flatMap {p : Processor} (hp : p.IsProper) (event : Event) (now : Instant)
    (id : String) :
    forSchedule id (p.prepared.values.flatMap (outcomes event now)) =
      outcomes event now (p.triggersOf id) := by
  have hentries : ∀ e ∈ p.prepared.entries, ∀ t ∈ e.2, t.IsFor e.1 := fun e he =>
    hp e.1 e.2 ((Table.get?_eq_some_iff _ _ _).mpr he)
  rw [forSchedule, Table.values, filter_flatMap_entries (k := id) p.prepared.sorted
    fun e he hne => forSchedule_outcomes_of_ne (hentries e he) hne]
  rw [triggersOf, Table.get?]
  cases hfind : Table.find id p.prepared.entries with
  | none => rfl
  | some ts => exact forSchedule_outcomes (hp id ts hfind)

theorem areSound_flatMap {p : Processor} (hp : p.IsProper)
    (hcount : ∀ o ∈ p.prepared.values.flatMap (outcomes event now), o.2.progress.count ≠ .nan) :
    AreSound (p.prepared.values.flatMap (outcomes event now)) := by
  refine ⟨hcount, fun o ho => ?_⟩
  obtain ⟨ts, hts, hmem⟩ := List.mem_flatMap.mp ho
  obtain ⟨id, hget⟩ := (Table.mem_values_iff _ _).mp hts
  exact (areSound_outcomes (hp id ts hget) fun o' ho' =>
    hcount o' (List.mem_flatMap.mpr ⟨ts, hts, ho'⟩)).firing o hmem

/-- Of all firings those of a schedule are what its own outcomes fire, in the same order. -/
theorem filter_firings {os : List (Int × Outcome)} (hos : AreSound os) (id : String) :
    firedOf id (firings os) = firings (forSchedule id os) := by
  rw [firedOf, firings, firings, List.filter_map, filter_sortBy]
  refine congrArg (fun fs => (sortBy _ fs).map _) ?_
  rw [List.filter_filterMap, forSchedule, List.filterMap_filter]
  refine List.filterMap_congr fun o ho => ?_
  cases hfiring : o.2.firing with
  | none => simp
  | some f =>
    have hschedule := hos.firing o ho f hfiring
    by_cases hid : f.scheduleId = id
    · simp [hid, hschedule ▸ hid, Option.filter]
    · simp [hid, hschedule ▸ hid, Option.filter]

/-- What is written for a trigger is what is written of the outcomes for its schedule. -/
theorem filter_progress (k : ProgressKey) (os : List (Int × Outcome)) :
    ((os.map (·.2.progress)).filter fun q => q.key = k) =
      ((forSchedule k.scheduleId os).map (·.2.progress)).filter fun q => q.key = k := by
  rw [List.filter_map, List.filter_map, forSchedule, List.filter_filter]
  refine congrArg _ (List.filter_congr fun o _ => ?_)
  by_cases hk : o.2.progress.key = k
  · have hschedule : o.2.progress.scheduleId = k.scheduleId := congrArg ProgressKey.scheduleId hk
    simp [hk, hschedule]
  · simp [hk]

end Outcomes

variable {id scheduleId : String} {p p' : Processor} {s s' : Store} {now : Instant}

/-- Settling outcomes is confined: for a schedule it matters what is settled for it. -/
theorem agreesOn_settle (hp : p.AgreesOn id p') (hs : s.AgreesOn id s')
    (hallows : s.Allows .writeProgress) (hallows' : s'.Allows .writeProgress)
    {os os' : List (Int × Outcome)} (hos : AreSound os) (hos' : AreSound os')
    (h : forSchedule id os' = forSchedule id os) :
    (settle p s os).AgreesOn id (settle p' s' os') := by
  have hnumbers : ∀ {os : List (Int × Outcome)}, AreSound os →
      ∀ q ∈ os.map (·.2.progress), q.count ≠ .nan := fun hos q hq => by
    obtain ⟨o, ho, rfl⟩ := List.mem_map.mp hq
    exact hos.count o ho
  refine ⟨hp, fun triggerId => ?_, ?_⟩
  · show (persist s' _).progressRow _ = (persist s _).progressRow _
    rw [progressRow_persist_of_numbers hallows' (hnumbers hos'),
      progressRow_persist_of_numbers hallows (hnumbers hos), filter_progress, filter_progress _ os,
      h, hs triggerId]
  · exact (filter_firings hos' id).trans ((congrArg firings h).trans (filter_firings hos id).symm)

/-- To do nothing is to settle nothing. -/
theorem settle_nil (p : Processor) (s : Store) : settle p s [] = ⟨p, s, []⟩ := rfl

/-! ## Events -/

theorem agreesOn_remember (h : p.AgreesOn id p') (event : Event) :
    (p.remember event).AgreesOn id (p'.remember event) := by
  cases event with
  | occurred type data value => exact h
  | stateChanged state => exact ⟨h.prepared, h.groups, rfl, h.paused⟩

/-- An event is confined: a schedule's triggers look at it for themselves. -/
theorem agreesOn_processEvent (h : p.AgreesOn id p') (hs : s.AgreesOn id s') (hp : p.IsProper)
    (hp' : p'.IsProper) (hallows : s.Allows .writeProgress) (hallows' : s'.Allows .writeProgress)
    {event : Event} (hwrites : p.Writes s (.event event now))
    (hwrites' : p'.Writes s' (.event event now)) :
    (p.processEvent s event now).AgreesOn id (p'.processEvent s' event now) := by
  have hremember := agreesOn_remember h event
  by_cases hpaused : p.paused = true
  · rw [processEvent_of_paused hpaused, processEvent_of_paused (h.paused.trans hpaused)]
    exact ⟨hremember, hs, rfl⟩
  · have hpaused' : p'.paused ≠ true := by rwa [h.paused]
    rw [processEvent_of_not_paused hpaused, processEvent_of_not_paused hpaused']
    refine agreesOn_settle ?_ hs hallows hallows'
      (areSound_flatMap hp (hwrites.numbers hpaused))
      (areSound_flatMap hp' (hwrites'.numbers hpaused')) ?_
    · refine ⟨?_, hremember.groups, hremember.lastState, hremember.paused⟩
      rw [Table.get?_map, Table.get?_map, h.prepared]
    · rw [forSchedule_flatMap hp, forSchedule_flatMap hp', h.triggersOf]

/-! ## Entering a state -/

/-- What the outcomes of a schedule that enters a state are for. -/
theorem areSound_refed (hp : ∀ t ∈ p.triggersOf scheduleId, t.IsFor scheduleId)
    {state : ScheduleState} {ts : List Prepared}
    (hts : (p.entering scheduleId state).prepared.get? scheduleId = some ts) (last : AppState)
    (now : Instant) :
    (∀ t ∈ ts, t.IsFor scheduleId) ∧ AreSound (outcomes (.stateChanged last) now ts) := by
  have hfor : ∀ t ∈ ts, t.IsFor scheduleId := by
    have hentered := triggersOf_entering p scheduleId state scheduleId
    rw [if_pos rfl, triggersOf, hts, Option.getD_some] at hentered
    intro t ht
    rw [hentered] at ht
    obtain ⟨before, hbefore, rfl⟩ := List.mem_map.mp ht
    exact isFor_enter state (hp before hbefore)
  exact ⟨hfor, areSound_outcomes hfor (count_outcomes_stateChanged hfor last)⟩

theorem allows_applyState {state : ScheduleState} {op : StoreOperation} :
    (p.applyState s now scheduleId state).store.Allows op ↔ s.Allows op := by
  cases hrefed : p.refed? scheduleId state with
  | none => rw [applyState_of_refed?_eq_none hrefed]
  | some fed =>
    rw [(applyState_of_refed?_eq_some hrefed s now).2]
    exact allows_persist

/-- Entering a state is aside. -/
theorem agreesOn_applyState_aside (hp : ∀ t ∈ p.triggersOf scheduleId, t.IsFor scheduleId)
    (hallows : s.Allows .writeProgress) (hne : scheduleId ≠ id) (now : Instant) (state : ScheduleState) :
    Turn.AgreesOn id ⟨p, s, []⟩ (p.applyState s now scheduleId state) := by
  cases hrefed : p.refed? scheduleId state with
  | none =>
    rw [applyState_of_refed?_eq_none hrefed]
    refine ⟨⟨?_, fun _ => Iff.rfl, rfl, rfl⟩, .refl s, rfl⟩
    rw [get?_entering, if_neg (Ne.symm hne)]
  | some fed =>
    obtain ⟨last, ts⟩ := fed
    obtain ⟨hts, happly⟩ := applyState_of_refed?_eq_some hrefed s now
    obtain ⟨hfor, hsound⟩ := areSound_refed hp hts last now
    rw [happly, ← settle_nil]
    refine agreesOn_settle ?_ (.refl s) hallows hallows areSound_nil hsound
      (forSchedule_outcomes_of_ne hfor hne)
    refine ⟨?_, fun _ => Iff.rfl, rfl, rfl⟩
    rw [Table.get?_insert, if_neg (Ne.symm hne)]

/-- Entering a state is confined. -/
theorem agreesOn_applyState (h : p.AgreesOn id p') (hs : s.AgreesOn id s')
    (hp : ∀ t ∈ p.triggersOf id, t.IsFor id) (hallows : s.Allows .writeProgress)
    (hallows' : s'.Allows .writeProgress) (now : Instant) (state : ScheduleState) :
    (p.applyState s now id state).AgreesOn id (p'.applyState s' now id state) := by
  have hsame : p'.refed? id state = p.refed? id state := by
    rw [refed?, refed?, h.prepared, h.lastState, h.paused]
  cases hrefed : p.refed? id state with
  | none =>
    rw [applyState_of_refed?_eq_none hrefed, applyState_of_refed?_eq_none (hsame.trans hrefed)]
    refine ⟨⟨?_, h.groups, h.lastState, h.paused⟩, hs, rfl⟩
    rw [get?_entering, get?_entering, h.prepared]
  | some fed =>
    obtain ⟨last, ts⟩ := fed
    obtain ⟨hts, happly⟩ := applyState_of_refed?_eq_some hrefed s now
    obtain ⟨-, happly'⟩ := applyState_of_refed?_eq_some (hsame.trans hrefed) s' now
    have hsound := (areSound_refed hp hts last now).2
    rw [happly, happly']
    refine agreesOn_settle ?_ hs hallows hallows' hsound hsound rfl
    refine ⟨?_, h.groups, h.lastState, h.paused⟩
    rw [Table.get?_insert, Table.get?_insert, if_pos rfl, if_pos rfl]

/-! ## Defining a schedule -/

variable {schedule : Schedule}

/-- What is recalled is read from the row. -/
theorem recalled_congr {k : ProgressKey} (h : s'.progressRow k = s.progressRow k) :
    s'.recalled k = s.recalled k := by
  rw [Store.progressRow, Store.progressRow] at h
  rw [Store.recalled, Store.recalled, Tables.progress?, Tables.progress?]
  simp only [h]

theorem found_congr (hs : s.AgreesOn schedule.id s') (existing : Option Prepared)
    (d : Trigger × Execution) :
    found s'.recalled schedule existing d.1 d.2 = found s.recalled schedule existing d.1 d.2 := by
  rw [found, found, recalled_congr (hs d.1.id)]

/-- The work on a schedule but for the store. -/
structure Sync.Equal (w w' : Sync) : Prop where
  existing : w'.existing = w.existing
  prepared : w'.prepared = w.prepared
  reset : w'.reset = w.reset

/-- Definitions are prepared alike from the same triggers and rows. -/
theorem Sync.Equal.foldl_add (hs : s.AgreesOn schedule.id s') (hallows : s.Allows .readProgress)
    (hallows' : s'.Allows .readProgress) (ds : List (Trigger × Execution)) {w w' : Sync}
    (hread : w.store.IsReadOf s) (hread' : w'.store.IsReadOf s') (h : w.Equal w') :
    (ds.foldl (Sync.add schedule) w).Equal (ds.foldl (Sync.add schedule) w') := by
  induction ds generalizing w w' with
  | nil => exact h
  | cons d rest ih =>
    obtain ⟨hexisting, hstore, hprepared, hreset⟩ :=
      Sync.add_spec ((hread.allows _).mpr hallows) schedule d
    obtain ⟨hexisting', hstore', hprepared', hreset'⟩ :=
      Sync.add_spec ((hread'.allows _).mpr hallows') schedule d
    rw [hread'.recalled, h.existing, found_congr hs, ← hread.recalled] at hprepared' hreset'
    refine ih (hread.trans hstore) (hread'.trans hstore') ⟨?_, ?_, ?_⟩
    · rw [hexisting, hexisting', h.existing]
    · rw [hprepared, hprepared', h.prepared]
    · rw [hreset, hreset', h.reset]

theorem syncWork_congr (h : p.AgreesOn schedule.id p') (hs : s.AgreesOn schedule.id s')
    (hallows : s.Allows .readProgress) (hallows' : s'.Allows .readProgress) :
    (p.syncWork s schedule).Equal (p'.syncWork s' schedule) := by
  rw [syncWork, syncWork, h.triggersOf]
  exact Sync.Equal.foldl_add hs hallows hallows' _ (.refl s) (.refl s') ⟨rfl, rfl, rfl⟩

/-- A row of a schedule that is defined: the row of a trigger that is gone goes, and what is dropped
is written. -/
theorem progressRow_syncSchedule_eq (hp : p.Owns schedule.id) (hs : s.IsReliable)
    (triggerId : String) :
    (p.syncSchedule s schedule).2.progressRow ⟨schedule.id, triggerId⟩ =
      if triggerId ∈ (p.syncWork s schedule).stale then none
      else ((((p.syncWork s schedule).reset.filter
        fun q => q.key = ⟨schedule.id, triggerId⟩).getLast?).map Tables.rowOfProgress).or
          (s.progressRow ⟨schedule.id, triggerId⟩) := by
  have hwork := sound_syncWork hp (hs _)
  have hnumbers : ∀ q ∈ (p.syncWork s schedule).reset, q.count ≠ .nan := fun q hq hnan => by
    rw [(hwork.reset q hq).2] at hnan
    cases hnan
  have hwritten := progressRow_persist_of_numbers ((hwork.read.allows _).mpr (hs _)) hnumbers
    ⟨schedule.id, triggerId⟩
  rw [Store.progressRow, Store.progressRow, hwork.read.tables] at hwritten
  show (if (p.syncWork s schedule).stale.isEmpty then _ else _ : Store).progressRow _ = _
  split
  · next hnone =>
    rw [List.isEmpty_iff.mp hnone, if_neg List.not_mem_nil]
    exact hwritten
  · by_cases hstale : triggerId ∈ (p.syncWork s schedule).stale
    · rw [if_pos hstale]
      exact Store.progressRow_deleteTriggers_of_mem (k := ⟨schedule.id, triggerId⟩)
        (allows_persist.mpr ((hwork.read.allows _).mpr (hs _))) hstale
    · rw [if_neg hstale, Store.progressRow_deleteTriggers fun _ => hstale]
      exact hwritten

/-- Defining a schedule is confined. -/
theorem agreesOn_syncSchedule (h : p.AgreesOn schedule.id p') (hs : s.AgreesOn schedule.id s')
    (hp : p.Owns schedule.id) (hr : s.IsReliable) (hr' : s'.IsReliable) :
    (p.syncSchedule s schedule).1.AgreesOn schedule.id (p'.syncSchedule s' schedule).1 ∧
      (p.syncSchedule s schedule).2.AgreesOn schedule.id (p'.syncSchedule s' schedule).2 := by
  have hp' : p'.Owns schedule.id := h.owns hp
  have hwork := syncWork_congr h hs (hr _) (hr' _)
  have hstale : (p'.syncWork s' schedule).stale = (p.syncWork s schedule).stale := by
    rw [Sync.stale, Sync.stale, hwork.existing, hwork.prepared]
  refine ⟨⟨?_, fun group => ?_, h.lastState, h.paused⟩, fun triggerId => ?_⟩
  · rw [get?_syncSchedule, get?_syncSchedule, if_pos rfl, if_pos rfl, hwork.prepared]
  · show _ ∈ members (regroup p'.groups schedule) group ↔ _ ∈ members (regroup p.groups schedule) _
    rw [mem_members_regroup, mem_members_regroup, h.groups]
  · rw [progressRow_syncSchedule_eq hp' hr', progressRow_syncSchedule_eq hp hr, hstale, hwork.reset,
      hs triggerId]

/-- Defining a schedule is aside. -/
theorem agreesOn_syncSchedule_aside (hp : p.Owns schedule.id) (hr : s.IsReliable) (hne : schedule.id ≠ id) :
    p.AgreesOn id (p.syncSchedule s schedule).1 ∧ s.AgreesOn id (p.syncSchedule s schedule).2 := by
  have hwork := sound_syncWork hp (hr _)
  refine ⟨⟨?_, fun group => ?_, rfl, rfl⟩, fun triggerId => ?_⟩
  · rw [get?_syncSchedule, if_neg (Ne.symm hne)]
  · show _ ∈ members (regroup p.groups schedule) group ↔ _
    rw [mem_members_regroup]
    simp [Ne.symm hne]
  · refine progressRow_syncSchedule (fun q hq hkey => hne ?_) (fun hid => absurd hid.symm hne)
      hwork.read
    rw [← (hwork.reset q hq).1]
    exact congrArg ProgressKey.scheduleId hkey

/-! ## Several schedules -/

variable {t t' : Turn}

theorem reliable_syncSchedule (ht : t.IsOwned) (schedule : Schedule) :
    (t.processor.syncSchedule t.store schedule).2.IsReliable := fun op =>
  (allows_syncSchedule (ht.owns _) (ht.reliable _)).mpr (ht.reliable op)

theorem isOwned_registerOne (ht : t.IsOwned) (now : Instant) (schedule : Schedule) :
    (registerOne now t schedule).IsOwned := by
  refine ⟨fun op => ?_, fun id => ?_⟩
  · exact allows_applyState.mpr (reliable_syncSchedule ht schedule op)
  · exact (continues_applyState _ _ now schedule.id schedule.state).owns
      (owns_syncSchedule ht.owns (ht.reliable _) schedule id)

theorem agreesOn_registerOne_aside (ht : t.IsOwned) (hne : schedule.id ≠ id) (now : Instant) :
    t.AgreesOn id (registerOne now t schedule) := by
  obtain ⟨hp, hs⟩ := agreesOn_syncSchedule_aside (ht.owns _) ht.reliable hne
  have hreliable := reliable_syncSchedule ht schedule
  have hsynced : Turn.AgreesOn id ⟨t.processor, t.store, []⟩
      ⟨(t.processor.syncSchedule t.store schedule).1,
        (t.processor.syncSchedule t.store schedule).2, []⟩ := ⟨hp, hs, rfl⟩
  have hfor := isFor_syncSchedule (ht.owns schedule.id) (ht.reliable _)
  rw [registerOne_eq]
  exact (hsynced.trans
    (agreesOn_applyState_aside hfor (hreliable _) hne now schedule.state)).aside

theorem agreesOn_registerOne (h : t.AgreesOn schedule.id t') (ht : t.IsOwned) (ht' : t'.IsOwned)
    (now : Instant) :
    (registerOne now t schedule).AgreesOn schedule.id (registerOne now t' schedule) := by
  obtain ⟨hp, hs⟩ := agreesOn_syncSchedule h.processor h.store (ht.owns _) ht.reliable ht'.reliable
  have hfor := isFor_syncSchedule (ht.owns schedule.id) (ht.reliable _)
  exact h.followedBy (agreesOn_applyState hp hs hfor (reliable_syncSchedule ht schedule _)
    (reliable_syncSchedule ht' schedule _) now schedule.state)

/-- Of schedules that are defined together only the one in question matters. -/
theorem agreesOn_foldl_registerOne (h : t.AgreesOn id t') (ht : t.IsOwned) (ht' : t'.IsOwned)
    (now : Instant) (schedules : List Schedule) :
    (schedules.foldl (registerOne now) t).AgreesOn id
      ((schedules.filter fun schedule => schedule.id = id).foldl (registerOne now) t') := by
  induction schedules generalizing t t' with
  | nil => exact h
  | cons schedule rest ih =>
    rw [List.foldl_cons]
    by_cases hid : schedule.id = id
    · subst hid
      rw [List.filter_cons_of_pos (by simp), List.foldl_cons]
      exact ih (agreesOn_registerOne h ht ht' now) (isOwned_registerOne ht now schedule)
        (isOwned_registerOne ht' now schedule)
    · rw [List.filter_cons_of_neg (by simpa using hid)]
      exact ih ((agreesOn_registerOne_aside ht hid now).symm.trans h)
        (isOwned_registerOne ht now schedule) ht'

/-! ## Cancelling -/

/-- Forgetting schedules leaves what belongs to none. -/
theorem foldl_forget_rest (scheduleIds : List String) (p : Processor) :
    (scheduleIds.foldl forget p).lastState = p.lastState ∧
      (scheduleIds.foldl forget p).paused = p.paused := by
  induction scheduleIds generalizing p with
  | nil => exact ⟨rfl, rfl⟩
  | cons scheduleId rest ih => exact ih (p.forget scheduleId)

/-- Cancelling is confined: a schedule is cancelled if it is named. -/
theorem agreesOn_cancel (h : p.AgreesOn id p') (hs : s.AgreesOn id s')
    (hallows : s.Allows .deleteSchedules) (hallows' : s'.Allows .deleteSchedules)
    {scheduleIds scheduleIds' : List String} (hids : id ∈ scheduleIds' ↔ id ∈ scheduleIds) :
    (p.cancel s scheduleIds).AgreesOn id (p'.cancel s' scheduleIds') := by
  obtain ⟨hstate, hpaused⟩ := foldl_forget_rest scheduleIds p
  obtain ⟨hstate', hpaused'⟩ := foldl_forget_rest scheduleIds' p'
  refine ⟨⟨?_, fun group => ?_, ?_, ?_⟩, fun triggerId => ?_, rfl⟩
  · show (scheduleIds'.foldl forget p').prepared.get? id =
      (scheduleIds.foldl forget p).prepared.get? id
    rw [get?_foldl_forget, get?_foldl_forget, h.prepared]
    simp only [hids]
  · exact mem_members_foldl_forget.trans
      ((and_congr (h.groups group) (not_congr hids)).trans mem_members_foldl_forget.symm)
  · exact hstate'.trans (h.lastState.trans hstate.symm)
  · exact hpaused'.trans (h.paused.trans hpaused.symm)
  · show (s'.deleteSchedules scheduleIds').2.progressRow _ =
      (s.deleteSchedules scheduleIds).2.progressRow _
    by_cases hid : id ∈ scheduleIds
    · rw [Store.progressRow_deleteSchedules_of_mem hallows hid,
        Store.progressRow_deleteSchedules_of_mem hallows' (hids.mpr hid)]
    · rw [Store.progressRow_deleteSchedules (mt hids.mp hid),
        Store.progressRow_deleteSchedules hid, hs triggerId]

/-- Cancelling is aside for a schedule that is not named. -/
theorem agreesOn_cancel_aside (s : Store) {scheduleIds : List String} (h : id ∉ scheduleIds) :
    Turn.AgreesOn id ⟨p, s, []⟩ (p.cancel s scheduleIds) := by
  refine ⟨⟨?_, fun group => ?_, ?_, ?_⟩, fun _ => Store.progressRow_deleteSchedules h, rfl⟩
  · exact (get?_foldl_forget scheduleIds p id).trans (if_neg h)
  · exact mem_members_foldl_forget.trans (and_iff_left h)
  · exact (foldl_forget_rest scheduleIds p).1
  · exact (foldl_forget_rest scheduleIds p).2

theorem mem_members_erase {groups : Table String (List String)} {group erased : String} :
    id ∈ members (groups.erase erased) group ↔ group ≠ erased ∧ id ∈ members groups group := by
  rw [members, Table.get?_erase, members]
  split
  · next heq => exact iff_of_false List.not_mem_nil fun h => h.1 heq
  · next hne => exact (and_iff_right hne).symm

/-- Cancelling a group is aside for a schedule that is not in it. -/
theorem agreesOn_cancelGroup_aside (s : Store) {group : String} (h : id ∉ members p.groups group) :
    Turn.AgreesOn id ⟨p, s, []⟩ (p.cancelGroup s group) := by
  rw [cancelGroup]
  rw [members] at h
  split
  · exact .refl _
  · next ids hids =>
    rw [hids] at h
    have herased : p.AgreesOn id { p with groups := p.groups.erase group } := by
      refine ⟨rfl, fun other => ?_, rfl, rfl⟩
      rw [mem_members_erase, members]
      refine and_iff_right_of_imp fun hmem heq => h ?_
      rw [heq, hids] at hmem
      exact hmem
    have hcancelled := agreesOn_cancel_aside (p := { p with groups := p.groups.erase group }) s h
    exact ⟨herased.trans hcancelled.processor, hcancelled.store, hcancelled.fired⟩

/-- Cancelling a group is confined: a schedule is cancelled if it is in the group. -/
theorem agreesOn_cancelGroup (h : p.AgreesOn id p') (hs : s.AgreesOn id s')
    (hallows : s.Allows .deleteSchedules) (hallows' : s'.Allows .deleteSchedules)
    (group : String) : (p.cancelGroup s group).AgreesOn id (p'.cancelGroup s' group) := by
  by_cases hmem : id ∈ members p.groups group
  · have hmem' := (h.groups group).mpr hmem
    obtain ⟨ids, hids, hid⟩ := mem_members_iff.mp hmem
    obtain ⟨ids', hids', hid'⟩ := mem_members_iff.mp hmem'
    simp only [cancelGroup, hids, hids']
    refine agreesOn_cancel ?_ hs hallows hallows' (iff_of_true hid' hid)
    refine ⟨h.prepared, fun other => ?_, h.lastState, h.paused⟩
    rw [mem_members_erase, mem_members_erase, h.groups]
  · have hbefore : Turn.AgreesOn id ⟨p, s, []⟩ ⟨p', s', []⟩ := ⟨h, hs, rfl⟩
    exact (agreesOn_cancelGroup_aside s hmem).symm.trans
      (hbefore.trans (agreesOn_cancelGroup_aside s' (mt (h.groups group).mp hmem)))

/-- Keeping the rows of some schedules is confined. -/
theorem agreesOn_keepSchedules (hs : s.AgreesOn id s') (hallows : s.Allows .keepSchedules)
    (hallows' : s'.Allows .keepSchedules) {scheduleIds scheduleIds' : List String}
    (hids : id ∈ scheduleIds' ↔ id ∈ scheduleIds) :
    (s.keepSchedules scheduleIds).2.AgreesOn id (s'.keepSchedules scheduleIds').2 := by
  intro triggerId
  by_cases hid : id ∈ scheduleIds
  · rw [Store.progressRow_keepSchedules (hids.mpr hid), Store.progressRow_keepSchedules hid,
      hs triggerId]
  · rw [Store.progressRow_keepSchedules_of_not_mem hallows hid,
      Store.progressRow_keepSchedules_of_not_mem hallows' (mt hids.mp hid)]

end Processor
end Automation
