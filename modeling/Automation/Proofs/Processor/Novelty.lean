import Automation.Proofs.Processor.FireCount
import Automation.Proofs.Processor.Holding

/-!
# State triggers count changes

A state may be reported many times.  The application repeats itself, a schedule that becomes active
again is fed what is remembered, and a state that brings a new version still names the session of
before.  A state trigger is to count each session or version when it begins and not again.

It compares with the last state that counted, and that is a whole state, of which only one field is
its own.  Since a state counts only if it shows the trigger something, and is then remembered, the
field of the remembered state is always the last thing that the trigger was shown, or what it had
when it was prepared.  So it counts the places at which what it is shown changes
(`matched_eq_changes`).  That a firing takes the count back does not matter, and neither does the
store, which is asked once and may refuse everything else.

## Episodes

Two things happen to a trigger while its schedule stays: a definition prepares it, and it is fed an
event, by a request or because its schedule begins to listen.  `Turn.episodes` lists them as they
come in a run.  What the trigger was shown and what it counted are both read off that list, and the
proof goes along it: every episode finds the trigger with the value that the one before has left
(`Succeeds`).
-/

namespace Automation

/-! ## What a state shows -/

namespace Trigger

/-- The part of a state that a trigger compares. -/
def valueIn (t : Trigger) (state : AppState) : Option String :=
  match t.type with
  | .activeSession => state.session
  | .version => state.version
  | _ => none

/-- Whether a value may be shown to a trigger: of versions only those that its predicate accepts. -/
def passes (t : Trigger) (value : String) : Bool :=
  t.type ≠ .version || t.admits (.obj [("version", .str value)])

/-- What a state shows to a trigger: a session, or a version that the predicate accepts. -/
def reading? (t : Trigger) (state : AppState) : Option String := (t.valueIn state).filter t.passes

variable {t : Trigger}

/-- What a state shows is the part that is compared later. -/
theorem valueIn_of_reading? {state : AppState} {v : String} (h : t.reading? state = some v) :
    t.valueIn state = some v := (Option.filter_eq_some_iff.mp h).1

/-- A state counts if it shows something other than what was compared last. -/
theorem countsState_eq (t : Trigger) (state : AppState) (last : Option AppState) :
    t.countsState state last =
      (t.reading? state).any fun v => decide (last.bind t.valueIn ≠ some v) := by
  cases htype : t.type with
  | activeSession =>
    have hvalue : t.valueIn = AppState.session := funext fun state => by rw [valueIn, htype]
    have hpasses : t.passes = fun _ => true := funext fun v => by rw [passes, htype]; rfl
    rw [countsState, reading?, htype, hvalue, hpasses]
    cases state.session <;> rfl
  | version =>
    have hvalue : t.valueIn = AppState.version := funext fun state => by rw [valueIn, htype]
    have hpasses : t.passes = fun v => t.admits (.obj [("version", .str v)]) :=
      funext fun v => by rw [passes, htype]; rfl
    rw [countsState, reading?, htype, hvalue, hpasses]
    cases state.version with
    | none => rfl
    | some v => cases hadmits : t.admits (.obj [("version", .str v)]) <;> simp [hadmits]
  | _ =>
    have hvalue : t.valueIn state = none := by rw [valueIn, htype]
    rw [countsState, reading?, htype, hvalue]
    rfl

/-- An activity counts for no state trigger. -/
theorem advance?_occurred (htype : t.type.isState = true) (type : EventType) (data : Option Json)
    (value : Binary64) (p : Progress) : t.advance? (.occurred type data value) p = none := by
  have hnot : t.countsActivity type data = false := by
    rw [countsActivity, htype, Bool.not_true, Bool.and_false, Bool.false_and]
  rw [advance?, hnot, if_neg Bool.false_ne_true]

end Trigger

/-! ## Changes -/

/-- At how many places of a list a value differs from the one before it, or at the first place from
a value given. -/
def changes (first : Option String) (values : List String) : Nat :=
  ((first :: values.map some).zip (values.map some)).countP fun p => p.1 ≠ p.2

theorem changes_cons (first : Option String) (v : String) (rest : List String) :
    changes first (v :: rest) = (if first = some v then 0 else 1) + changes (some v) rest := by
  rw [changes, List.map_cons, List.zip_cons_cons, List.countP_cons, Nat.add_comm, changes]
  by_cases hsame : first = some v <;> simp [hsame]

namespace Processor

/-! ## Episodes -/

/-- What happens to a trigger: a definition of its schedule prepares it, or it is fed an event. -/
inductive Episode where
  | prepared (t : Prepared)
  | fed (t : Prepared) (event : Event) (now : Instant)

namespace Episode

/-- The trigger as an episode finds it. -/
def before : Episode → Prepared
  | .prepared t => t
  | .fed t _ _ => t

/-- The trigger as an episode leaves it. -/
def after : Episode → Prepared
  | .prepared t => t
  | .fed t event now => (t.process event now).1

/-- Whether the trigger counts what happens. -/
def credits : Episode → Bool
  | .prepared _ => false
  | .fed t event now => t.credits event now

/-- The state that the trigger is fed while it listens. -/
def heard? : Episode → Option AppState
  | .fed t (.stateChanged state) now => if t.listens now then some state else none
  | _ => none

end Episode

/-- The states that a trigger is fed while it listens, in order. -/
def heard (eps : List Episode) : List AppState := eps.filterMap Episode.heard?

/-- The last state that counted before anything happened to a trigger: what it has when it is
prepared for the first time.  `hydrated_syncSchedule` says where that comes from. -/
def hydrated : List Episode → Option AppState
  | .prepared t :: _ => t.progress.lastState
  | _ => none

/-- What happens to the triggers with an id when an event is fed to a schedule. -/
def feedings (triggerId : String) (event : Event) (now : Instant) (ts : List Prepared) :
    List Episode := (withId triggerId ts).map fun t => .fed t event now

/-- What happens to the triggers with a key when a schedule enters a state. -/
def episodesOnEntering (k : ProgressKey) (p : Processor) (now : Instant) (scheduleId : String)
    (state : ScheduleState) : List Episode :=
  if scheduleId = k.scheduleId then
    match p.refed? scheduleId state with
    | some (last, ts) => feedings k.triggerId (.stateChanged last) now ts
    | none => []
  else []

/-- What happens to them when schedules are defined one after another. -/
def episodesOnDefining (k : ProgressKey) (now : Instant) :
    Processor → Store → List Schedule → List Episode
  | _, _, [] => []
  | p, s, schedule :: rest =>
    let (p, s) := p.syncSchedule s schedule
    let next := p.applyState s now schedule.id schedule.state
    (if schedule.id = k.scheduleId then
        (withId k.triggerId (p.triggersOf k.scheduleId)).map .prepared
      else []) ++
      episodesOnEntering k p now schedule.id schedule.state ++
      episodesOnDefining k now next.processor next.store rest

/-- What happens to them in a request. -/
def episodesOn (k : ProgressKey) (p : Processor) (s : Store) : Request → List Episode
  | .event event now =>
    if p.paused then [] else feedings k.triggerId event now (p.triggersOf k.scheduleId)
  | .update schedules now | .restore schedules now =>
    episodesOnDefining k now p s (sortBy Schedule.priority schedules)
  | .enter scheduleId state now => episodesOnEntering k p now scheduleId state
  | .pause _ | .cancel _ | .cancelGroup _ | .restart => []

end Processor

/-- What happens to the triggers with a key in a run. -/
def Turn.episodes (k : ProgressKey) : Turn → List Processor.Request → List Processor.Episode
  | _, [] => []
  | t, r :: rs => Processor.episodesOn k t.processor t.store r ++ (t.serve r).episodes k rs

namespace Processor

/-! ## What is counted is read off the episodes -/

theorem hits_eq_countP (triggerId : String) (event : Event) (now : Instant) (ts : List Prepared) :
    hits triggerId event now ts = (feedings triggerId event now ts).countP Episode.credits := by
  rw [feedings, List.countP_map]
  rfl

theorem matchedOnEntering_eq_countP (k : ProgressKey) (p : Processor) (now : Instant)
    (scheduleId : String) (state : ScheduleState) : matchedOnEntering k p now scheduleId state =
      (episodesOnEntering k p now scheduleId state).countP Episode.credits := by
  rw [matchedOnEntering, episodesOnEntering]
  split
  · cases p.refed? scheduleId state with
    | none => rfl
    | some fed => exact hits_eq_countP _ _ _ _
  · rfl

/-- Being prepared counts for nothing. -/
theorem countP_map_prepared (ts : List Prepared) :
    (ts.map Episode.prepared).countP Episode.credits = 0 := by
  rw [List.countP_map, List.countP_eq_zero]
  exact fun _ _ => Bool.false_ne_true

theorem matchedOnDefining_eq_countP (k : ProgressKey) (now : Instant) (p : Processor) (s : Store)
    (schedules : List Schedule) : matchedOnDefining k now p s schedules =
      (episodesOnDefining k now p s schedules).countP Episode.credits := by
  induction schedules generalizing p s with
  | nil => rfl
  | cons schedule rest ih =>
    have hprepared : ∀ eps : List Prepared,
        (if schedule.id = k.scheduleId then eps.map Episode.prepared else []).countP
          Episode.credits = 0 := by
      intro eps
      split
      · exact countP_map_prepared eps
      · rfl
    rw [episodesOnDefining, List.countP_append, List.countP_append, hprepared, Nat.zero_add, ← ih,
      ← matchedOnEntering_eq_countP]
    rfl

theorem matchedOn_eq_countP (k : ProgressKey) (p : Processor) (s : Store) (r : Request) :
    matchedOn k p s r = (episodesOn k p s r).countP Episode.credits := by
  cases r with
  | event event now =>
    rw [matchedOn, episodesOn]
    split
    · rfl
    · exact hits_eq_countP _ _ _ _
  | update schedules now => exact matchedOnDefining_eq_countP k now p s _
  | restore schedules now => exact matchedOnDefining_eq_countP k now p s _
  | enter scheduleId state now => exact matchedOnEntering_eq_countP k p now scheduleId state
  | _ => rfl

/-- A run has counted the episodes that count. -/
theorem matched_eq_countP (k : ProgressKey) (t : Turn) (rs : List Request) :
    t.matched k rs = (t.episodes k rs).countP Episode.credits := by
  induction rs generalizing t with
  | nil => rfl
  | cons r rest ih => rw [Turn.matched, Turn.episodes, List.countP_append, matchedOn_eq_countP, ih]

/-! ## One episode -/

/-- The value in the last state that counted. -/
def recent (trigger : Trigger) (t : Prepared) : Option String :=
  t.progress.lastState.bind trigger.valueIn

/-- A prepared trigger is the one in question, but perhaps for its goal. -/
def IsLike (trigger : Trigger) (t : Prepared) : Prop :=
  t.trigger = { trigger with goal := t.trigger.goal }

/-- What an episode shows to the trigger. -/
def Episode.shows? (trigger : Trigger) (e : Episode) : Option String :=
  e.heard?.bind trigger.reading?

section Episodes

variable {trigger : Trigger} {t : Prepared} {event : Event} {now : Instant}

/-- A trigger counts a state that shows it something other than what it compares with, whatever its
goal is. -/
theorem credits_of_isLike (htype : trigger.type.isState = true) (hlike : IsLike trigger t)
    (event : Event) (now : Instant) : t.credits event now =
      ((Episode.fed t event now).shows? trigger).any fun v =>
        decide (recent trigger t ≠ some v) := by
  have hstate : t.trigger.type.isState = true := by rw [hlike]; exact htype
  cases event with
  | occurred type data value =>
    rw [Prepared.credits, Trigger.advance?_occurred hstate, Option.isSome_none, Bool.and_false]
    rfl
  | stateChanged state =>
    have hcounts : t.trigger.countsState state t.progress.lastState =
        trigger.countsState state t.progress.lastState := by
      rw [hlike]
      rfl
    rw [Prepared.credits, Trigger.advance?, hcounts, Trigger.countsState_eq, Episode.shows?,
      Episode.heard?]
    cases t.listens now with
    | false => rfl
    | true =>
      rw [Bool.true_and, if_pos rfl, Option.bind_some, ← recent]
      cases (trigger.reading? state).any fun v => decide (recent trigger t ≠ some v) <;> rfl

/-- A trigger that is shown something compares with it from then on. -/
theorem recent_process (htype : trigger.type.isState = true) (hlike : IsLike trigger t) :
    recent trigger (t.process event now).1 =
      ((Episode.fed t event now).shows? trigger).or (recent trigger t) := by
  have hcredits := credits_of_isLike htype hlike event now
  cases hcounted : t.credits event now with
  | false =>
    -- a state may show something all the same, but then it shows what is compared with
    rw [Prepared.process_of_not_credits hcounted]
    rw [hcounted] at hcredits
    cases hshown : (Episode.fed t event now).shows? trigger with
    | none => rfl
    | some v =>
      rw [hshown, Option.any_some] at hcredits
      rw [Option.some_or]
      simpa using hcredits.symm
  | true =>
    obtain ⟨progress, hadvance, hprocess⟩ := Prepared.process_of_credits hcounted
    rw [hcounted, eq_comm, Option.any_eq_true] at hcredits
    obtain ⟨v, hshown, -⟩ := hcredits
    obtain ⟨state, hheard, hreading⟩ := Option.bind_eq_some_iff.mp hshown
    have hlast : progress.lastState = some state := by
      cases event with
      | occurred => cases hheard
      | stateChanged fed =>
        obtain ⟨-, hfed⟩ := Option.ite_none_right_eq_some.mp hheard
        cases hfed
        obtain ⟨-, hprogress⟩ := Option.ite_none_right_eq_some.mp hadvance
        cases hprogress
        rfl
    have hrecent : (t.process event now).1.progress.lastState = some state := by
      rw [hprocess]
      split <;> exact hlast
    rw [recent, hrecent, Option.bind_some, hshown, Option.some_or]
    exact Trigger.valueIn_of_reading? hreading

/-- The same for an episode of either kind. -/
theorem Episode.credits_eq (htype : trigger.type.isState = true) (e : Episode)
    (hlike : IsLike trigger e.before) : e.credits =
      (e.shows? trigger).any fun v => decide (recent trigger e.before ≠ some v) := by
  cases e with
  | prepared t => rfl
  | fed t event now => exact credits_of_isLike htype hlike event now

theorem Episode.recent_after (htype : trigger.type.isState = true) (e : Episode)
    (hlike : IsLike trigger e.before) :
    recent trigger e.after = (e.shows? trigger).or (recent trigger e.before) := by
  cases e with
  | prepared t => rfl
  | fed t event now => exact recent_process htype hlike

/-! ## Episodes that follow each other -/

/-- Every episode finds the trigger as the one in question and with the value that the one before
has left.  Before a trigger is prepared there is no value, and nothing else can happen to it. -/
inductive Succeeds (trigger : Trigger) :
    Option (Option String) → List Episode → Option (Option String) → Prop
  | nil {left : Option (Option String)} : Succeeds trigger left [] left
  | first {t : Prepared} {eps : List Episode} {left : Option (Option String)}
    (rest : Succeeds trigger (some (recent trigger t)) eps left) :
    Succeeds trigger none (.prepared t :: eps) left
  | next {e : Episode} {eps : List Episode} {v : Option String} {left : Option (Option String)}
    (like : IsLike trigger e.before) (found : recent trigger e.before = v)
    (rest : Succeeds trigger (some (recent trigger e.after)) eps left) :
    Succeeds trigger (some v) (e :: eps) left

variable {eps eps' : List Episode} {found left left' : Option (Option String)} {v : Option String}

theorem Succeeds.append (h : Succeeds trigger found eps left)
    (h' : Succeeds trigger left eps' left') : Succeeds trigger found (eps ++ eps') left' := by
  induction h with
  | nil => exact h'
  | first _ ih => exact .first (ih h')
  | next like found _ ih => exact .next like found (ih h')

/-- Of episodes that follow each other those count that show a change. -/
theorem Succeeds.countP_eq (h : Succeeds trigger (some v) eps left)
    (htype : trigger.type.isState = true) :
    eps.countP Episode.credits = changes v (eps.filterMap (Episode.shows? trigger)) := by
  induction eps generalizing v with
  | nil => rfl
  | cons e rest ih =>
    cases h with
    | next like found hrest =>
      have hcredits := e.credits_eq htype like
      have hafter := e.recent_after htype like
      rw [found] at hcredits hafter
      rw [List.countP_cons, ih hrest, hafter, hcredits]
      cases hshown : e.shows? trigger with
      | none =>
        rw [List.filterMap_cons_none hshown]
        rfl
      | some u =>
        rw [List.filterMap_cons_some hshown, changes_cons, Option.some_or, Option.any_some,
          Nat.add_comm]
        by_cases hsame : v = some u <;> simp [hsame]

/-- What a trigger is shown is what it hears of the states that it is fed. -/
theorem filterMap_shows? (trigger : Trigger) (eps : List Episode) :
    eps.filterMap (Episode.shows? trigger) = (heard eps).filterMap trigger.reading? :=
  List.filterMap_filterMap.symm

/-- From the beginning the first value is that of the state that the trigger is prepared with. -/
theorem Succeeds.countP_eq_of_none (h : Succeeds trigger none eps left)
    (htype : trigger.type.isState = true) : eps.countP Episode.credits =
      changes ((hydrated eps).bind trigger.valueIn) ((heard eps).filterMap trigger.reading?) := by
  rw [← filterMap_shows?]
  cases h with
  | nil => rfl
  | first rest =>
    rw [List.countP_cons_of_neg Bool.false_ne_true, rest.countP_eq htype,
      List.filterMap_cons_none rfl]
    rfl

end Episodes

/-! ## Where a trigger stands -/

/-- Of the triggers of a schedule none has the id of the trigger in question, or there is one and it
is that trigger, with a value. -/
def Stands (kind : Execution) (trigger : Trigger) : Option (Option String) → List Prepared → Prop
  | none, ts => withId trigger.id ts = []
  | some v, ts => ∃ t, withId trigger.id ts = [t] ∧ t.kind = kind ∧ IsLike trigger t ∧
      recent trigger t = v

/-- Episodes lead from triggers to triggers: they follow each other from where the trigger stands
among the first to where it stands among the others. -/
def Leads (kind : Execution) (trigger : Trigger) (ts : List Prepared) (eps : List Episode)
    (ts' : List Prepared) : Prop :=
  ∀ found, Stands kind trigger found ts →
    ∃ left, Succeeds trigger found eps left ∧ Stands kind trigger left ts'

section Leading

variable {kind : Execution} {trigger : Trigger} {ts ts' ts'' : List Prepared}
  {eps eps' : List Episode} {scheduleId : String} {p : Processor}

theorem Leads.trans (h : Leads kind trigger ts eps ts') (h' : Leads kind trigger ts' eps' ts'') :
    Leads kind trigger ts (eps ++ eps') ts'' := by
  intro found hfound
  obtain ⟨left, hsucceeds, hleft⟩ := h found hfound
  obtain ⟨left', hsucceeds', hleft'⟩ := h' left hleft
  exact ⟨left', hsucceeds.append hsucceeds', hleft'⟩

theorem Leads.refl (kind : Execution) (trigger : Trigger) (ts : List Prepared) :
    Leads kind trigger ts [] ts := fun found hfound => ⟨found, .nil, hfound⟩

/-- Changing triggers without changing what they are and what they remember is no episode. -/
theorem leads_map {f : Prepared → Prepared} (htrigger : ∀ t, (f t).trigger = t.trigger)
    (hkind : ∀ t, (f t).kind = t.kind)
    (hlast : ∀ t, (f t).progress.lastState = t.progress.lastState) :
    Leads kind trigger ts [] (ts.map f) := by
  intro found hfound
  refine ⟨found, .nil, ?_⟩
  cases found with
  | none =>
    rw [Stands, withId_map htrigger, show withId trigger.id ts = [] from hfound]
    rfl
  | some v =>
    obtain ⟨t, hone, rfl, hlike, rfl⟩ := hfound
    refine ⟨f t, ?_, hkind t, ?_, ?_⟩
    · rw [withId_map htrigger, hone]
      rfl
    · rw [IsLike, htrigger]
      exact hlike
    · rw [recent, hlast, recent]

/-- Feeding an event is an episode. -/
theorem leads_feed (event : Event) (now : Instant) (ts : List Prepared) :
    Leads kind trigger ts (feedings trigger.id event now ts) (feed event now ts) := by
  have hfed : withId trigger.id (feed event now ts) =
      (withId trigger.id ts).map fun t => (t.process event now).1 :=
    withId_map (fun t => t.process_trigger) _ _
  intro found hfound
  cases found with
  | none =>
    rw [feedings, show withId trigger.id ts = [] from hfound]
    refine ⟨none, .nil, ?_⟩
    rw [Stands, hfed, show withId trigger.id ts = [] from hfound]
    rfl
  | some v =>
    obtain ⟨t, hone, rfl, hlike, rfl⟩ := hfound
    obtain ⟨progress, hprocess, -, -⟩ := t.process_fst event now
    rw [feedings, hone]
    refine ⟨some (recent trigger (t.process event now).1), .next hlike rfl .nil,
      (t.process event now).1, ?_, ?_, ?_, rfl⟩
    · rw [hfed, hone]
      rfl
    · rw [hprocess]
    · rw [hprocess]
      exact hlike

/-! ## Entering a state -/

theorem lastState_enter (state : ScheduleState) (t : Prepared) :
    (enter state t).progress.lastState = t.progress.lastState := by
  rw [enter]
  split
  · rw [Prepared.activate]
    split
    · rfl
    · split <;> rfl
  · rfl

theorem leads_entering (id : String) (state : ScheduleState) :
    Leads kind trigger (p.triggersOf scheduleId) []
      ((p.entering id state).triggersOf scheduleId) := by
  rw [triggersOf_entering]
  split
  · exact leads_map (enter_trigger state) (enter_kind state) (lastState_enter state)
  · exact .refl kind trigger _

theorem leads_applyState (s : Store) (now : Instant) (id : String) (state : ScheduleState) :
    Leads kind trigger (p.triggersOf scheduleId)
      (episodesOnEntering ⟨scheduleId, trigger.id⟩ p now id state)
      ((p.applyState s now id state).processor.triggersOf scheduleId) := by
  rw [episodesOnEntering]
  cases hrefed : p.refed? id state with
  | none =>
    rw [applyState_of_refed?_eq_none hrefed]
    simp only [ite_self]
    exact leads_entering id state
  | some fed =>
    obtain ⟨last, ts⟩ := fed
    obtain ⟨hts, happly⟩ := applyState_of_refed?_eq_some hrefed s now
    rw [happly]
    by_cases hid : id = scheduleId
    · subst hid
      have hentered : (p.entering id state).triggersOf id = ts := by
        rw [triggersOf, hts]
        rfl
      have hfed : triggersOf
          { p with prepared := p.prepared.insert id (feed (.stateChanged last) now ts) } id =
            feed (.stateChanged last) now ts := by
        rw [triggersOf, Table.get?_insert, if_pos rfl]
        rfl
      rw [if_pos rfl]
      exact (leads_entering id state).trans
        (hentered.symm ▸ hfed.symm ▸ leads_feed (.stateChanged last) now ts)
    · have hsame : triggersOf
          { p with prepared := p.prepared.insert id (feed (.stateChanged last) now ts) }
          scheduleId = p.triggersOf scheduleId := by
        rw [triggersOf, Table.get?_insert, if_neg (Ne.symm hid)]
        rfl
      rw [if_neg hid]
      exact hsame.symm ▸ Leads.refl kind trigger _

/-! ## Defining schedules -/

/-- A schedule defines a trigger once among all its triggers, as a trigger of a kind and with any
goal. -/
def DefinesOnce (schedule : Schedule) (kind : Execution) (trigger : Trigger) : Prop :=
  ∃ goal, schedule.definitions.filter (fun d => d.1.id = trigger.id) =
    [({ trigger with goal := goal }, kind)]

/-- Definitions with other ids prepare no trigger with the id. -/
theorem withId_foldl_add_of_ne {schedule : Schedule} {ds : List (Trigger × Execution)} {id : String}
    (hds : ∀ d ∈ ds, d.1.id ≠ id) (w : Sync) :
    withId id (ds.foldl (Sync.add schedule) w).prepared = withId id w.prepared := by
  induction ds generalizing w with
  | nil => rfl
  | cons d rest ih =>
    obtain ⟨hfirst, hrest⟩ := List.forall_mem_cons.mp hds
    have hother : ¬ (prepareOne schedule (w.existing.get? d.1.id) w.store d.1
        d.2).1.resetIfReached.trigger.id = id := by
      rw [Prepared.resetIfReached_trigger, (prepareOne_role ..).1]
      exact hfirst
    rw [List.foldl_cons, ih hrest, prepared_add, withId, List.filter_append,
      List.filter_cons_of_neg (by simpa using hother), List.filter_nil, List.append_nil, withId]

/-- The trigger is prepared from the one that was prepared before, or from what can be read in the
store at that moment. -/
theorem withId_syncSchedule {schedule : Schedule} (hdefines : DefinesOnce schedule kind trigger)
    (p : Processor) (s : Store) : ∃ goal s', s'.IsReadOf s ∧
      withId trigger.id ((p.syncSchedule s schedule).1.triggersOf schedule.id) =
        [(prepareOne schedule (withId trigger.id (p.triggersOf schedule.id)).getLast? s'
          { trigger with goal := goal } kind).1.resetIfReached] := by
  obtain ⟨goal, hone⟩ := hdefines
  obtain ⟨before, after, hsplit, hbefore, -, hafter⟩ := List.filter_eq_cons_iff.mp hone
  rw [List.filter_eq_nil_iff] at hafter
  have hothers : ∀ d, d ∈ before ∨ d ∈ after → d.1.id ≠ trigger.id := by
    rintro d (hd | hd)
    · exact fun hid => hbefore d hd (decide_eq_true hid)
    · exact fun hid => hafter d hd (decide_eq_true hid)
  rw [triggersOf_syncSchedule, if_pos rfl, syncWork, hsplit, List.foldl_append, List.foldl_cons,
    withId_foldl_add_of_ne fun d hd => hothers d (Or.inr hd), prepared_add, withId,
    List.filter_append, ← withId, withId_foldl_add_of_ne fun d hd => hothers d (Or.inl hd),
    get?_existing_foldl_add, if_neg, get?_ofList_triggers, List.filter_cons_of_pos]
  · exact ⟨goal, _, isReadOf_foldl_add schedule before _, rfl⟩
  · rw [Prepared.resetIfReached_trigger, (prepareOne_role ..).1]
    exact decide_eq_true rfl
  · intro hmem
    obtain ⟨d, hd, hid⟩ := List.mem_map.mp hmem
    exact hothers d (Or.inl hd) hid

theorem lastState_resetIfReached (t : Prepared) :
    t.resetIfReached.progress.lastState = t.progress.lastState := by
  rw [Prepared.resetIfReached]
  split <;> rfl

/-- A trigger that was not prepared remembers the state that is read of it, and without a row or
with one that cannot be read it remembers none. -/
theorem hydrated_syncSchedule {schedule : Schedule} (hdefines : DefinesOnce schedule kind trigger)
    (habsent : withId trigger.id (p.triggersOf schedule.id) = []) (s : Store) :
    ∃ s', s'.IsReadOf s ∧
      hydrated ((withId trigger.id ((p.syncSchedule s schedule).1.triggersOf schedule.id)).map
          .prepared) =
        (loadProgress s' schedule.id trigger.id).1.bind (·.lastState) := by
  obtain ⟨goal, s', hread, hone⟩ := withId_syncSchedule hdefines p s
  refine ⟨s', hread, ?_⟩
  rw [hone, List.map_singleton, hydrated, lastState_resetIfReached, habsent, List.getLast?_nil,
    prepareOne, Option.filter_none]
  show ((loadProgress s' schedule.id trigger.id).1.getD _).lastState = _
  cases (loadProgress s' schedule.id trigger.id).1 <;> rfl

/-- Defining a schedule prepares its triggers, and those that were prepared remember what they
did. -/
theorem leads_syncSchedule (s : Store) {schedule : Schedule}
    (hdefines : schedule.id = scheduleId → DefinesOnce schedule kind trigger) :
    Leads kind trigger (p.triggersOf scheduleId)
      (if schedule.id = scheduleId then
        (withId trigger.id ((p.syncSchedule s schedule).1.triggersOf scheduleId)).map .prepared
      else [])
      ((p.syncSchedule s schedule).1.triggersOf scheduleId) := by
  by_cases hid : schedule.id = scheduleId
  · have hdefined := hdefines hid
    subst hid
    obtain ⟨goal, s', -, hone⟩ := withId_syncSchedule hdefined p s
    generalize hfound : (prepareOne schedule (withId trigger.id (p.triggersOf schedule.id)).getLast?
      s' { trigger with goal := goal } kind).1 = x at hone
    obtain ⟨htrigger, hkind⟩ := prepareOne_role schedule
      (withId trigger.id (p.triggersOf schedule.id)).getLast? s' { trigger with goal := goal } kind
    rw [hfound] at htrigger hkind
    have hlike : IsLike trigger x.resetIfReached := by
      rw [IsLike, Prepared.resetIfReached_trigger, htrigger]
    have hrecent : recent trigger x.resetIfReached = recent trigger x := by
      rw [recent, lastState_resetIfReached, recent]
    have hstands : Stands kind trigger (some (recent trigger x.resetIfReached))
        ((p.syncSchedule s schedule).1.triggersOf schedule.id) :=
      ⟨_, hone, (Prepared.resetIfReached_kind).trans hkind, hlike, rfl⟩
    rw [if_pos rfl, hone]
    intro found hstood
    cases found with
    | none => exact ⟨_, .first .nil, hstands⟩
    | some v =>
      obtain ⟨t, hbefore, htkind, -, rfl⟩ := hstood
      -- one that was prepared with this id and kind is taken over
      have hsame : x.progress = t.progress := by
        rw [← hfound, hbefore, List.getLast?_singleton, prepareOne,
          Option.filter_some_pos (by simpa using htkind)]
        rfl
      exact ⟨_, .next hlike (by rw [Episode.before, hrecent, recent, hsame, recent]) .nil, hstands⟩
  · rw [if_neg hid, triggersOf_syncSchedule, if_neg (Ne.symm hid)]
    exact .refl kind trigger _

theorem leads_foldl_registerOne (now : Instant) (t : Turn) {schedules : List Schedule}
    (hdefines : ∀ schedule ∈ schedules, schedule.id = scheduleId →
      DefinesOnce schedule kind trigger) :
    Leads kind trigger (t.processor.triggersOf scheduleId)
      (episodesOnDefining ⟨scheduleId, trigger.id⟩ now t.processor t.store schedules)
      ((schedules.foldl (registerOne now) t).processor.triggersOf scheduleId) := by
  induction schedules generalizing t with
  | nil => exact .refl kind trigger _
  | cons schedule rest ih =>
    obtain ⟨hfirst, hrest⟩ := List.forall_mem_cons.mp hdefines
    exact ((leads_syncSchedule t.store hfirst).trans
      (leads_applyState _ now schedule.id schedule.state)).trans
        (ih (registerOne now t schedule) hrest)

/-! ## A run -/

/-- A request leaves a trigger defined, with the same type and predicate and in the same list, and
does not take its schedule away. -/
def Retains (scheduleId : String) (kind : Execution) (trigger : Trigger) (p : Processor) :
    Request → Prop
  | .update schedules _ | .restore schedules _ =>
    ∀ schedule ∈ schedules, schedule.id = scheduleId → DefinesOnce schedule kind trigger
  | .cancel scheduleIds => scheduleId ∉ scheduleIds
  | .cancelGroup group => ∀ scheduleIds, p.groups.get? group = some scheduleIds →
      scheduleId ∉ scheduleIds
  | .restart => False
  | .event _ _ | .pause _ | .enter _ _ _ => True

theorem triggersOf_cancel {scheduleIds : List String} (h : scheduleId ∉ scheduleIds) (s : Store) :
    (p.cancel s scheduleIds).processor.triggersOf scheduleId = p.triggersOf scheduleId := by
  rw [cancel, triggersOf, get?_foldl_forget, if_neg h, triggersOf]

/-- Every request leads on. -/
theorem leads_respond (s : Store) {r : Request} (h : p.Retains scheduleId kind trigger r) :
    Leads kind trigger (p.triggersOf scheduleId) (episodesOn ⟨scheduleId, trigger.id⟩ p s r)
      ((p.respond s r).processor.triggersOf scheduleId) := by
  cases r with
  | event event now =>
    rw [episodesOn, respond]
    by_cases hpaused : p.paused = true
    · rw [if_pos hpaused, processEvent_of_paused hpaused]
      cases event <;> exact .refl kind trigger _
    · have hfed : (p.processEvent s event now).processor.triggersOf scheduleId =
          feed event now (p.triggersOf scheduleId) := by
        rw [processEvent_of_not_paused hpaused, triggersOf, settle, Table.get?_map, triggersOf]
        cases p.prepared.get? scheduleId <;> rfl
      rw [if_neg hpaused, hfed]
      exact leads_feed event now _
  | pause paused => exact .refl kind trigger _
  | update schedules now =>
    exact leads_foldl_registerOne now ⟨p, s, []⟩ fun schedule hschedule =>
      h schedule ((perm_sortBy Schedule.priority schedules).mem_iff.mp hschedule)
  | restore schedules now =>
    exact leads_foldl_registerOne now ⟨p, s, []⟩ fun schedule hschedule =>
      h schedule ((perm_sortBy Schedule.priority schedules).mem_iff.mp hschedule)
  | enter id state now => exact leads_applyState s now id state
  | cancel scheduleIds =>
    rw [respond, triggersOf_cancel h]
    exact .refl kind trigger _
  | cancelGroup group =>
    rw [respond, cancelGroup]
    cases hids : p.groups.get? group with
    | none => exact .refl kind trigger _
    | some scheduleIds =>
      dsimp only
      rw [triggersOf_cancel (h scheduleIds hids)]
      exact .refl kind trigger _
  | restart => cases h

end Leading
end Processor

/-- A run of one processor leaves a trigger defined. -/
def Turn.Retains (scheduleId : String) (kind : Execution) (trigger : Trigger) :
    Turn → List Processor.Request → Prop
  | _, [] => True
  | t, r :: rs => t.processor.Retains scheduleId kind trigger r ∧
      (t.serve r).Retains scheduleId kind trigger rs

namespace Processor

variable {scheduleId : String} {kind : Execution} {trigger : Trigger}

theorem leads_run {t : Turn} {rs : List Request} (h : t.Retains scheduleId kind trigger rs) :
    Leads kind trigger (t.processor.triggersOf scheduleId)
      (t.episodes ⟨scheduleId, trigger.id⟩ rs) ((t.run rs).processor.triggersOf scheduleId) := by
  induction rs generalizing t with
  | nil => exact .refl kind trigger _
  | cons r rest ih => exact (leads_respond t.store h.1).trans (ih h.2)

/-- **State triggers count changes, never repeats.**  Let a trigger for sessions or versions not be
prepared yet, whatever else the processor and the store hold, and whatever the store refuses.  From
there on let it stay defined, with any goals, while events come, the processor is paused and goes
on, its schedule changes its state, and definitions come again.  Then it counts as often as what it
is shown while it listens changes, beginning with what is in the last state that it is prepared
with. -/
theorem matched_eq_changes (htype : trigger.type.isState = true) {t : Turn} {rs : List Request}
    (habsent : ∀ x ∈ t.processor.triggersOf scheduleId, x.trigger.id ≠ trigger.id)
    (hretains : t.Retains scheduleId kind trigger rs) :
    t.matched ⟨scheduleId, trigger.id⟩ rs =
      changes ((hydrated (t.episodes ⟨scheduleId, trigger.id⟩ rs)).bind trigger.valueIn)
        ((heard (t.episodes ⟨scheduleId, trigger.id⟩ rs)).filterMap trigger.reading?) := by
  have hnone : Stands kind trigger none (t.processor.triggersOf scheduleId) :=
    List.filter_eq_nil_iff.mpr fun x hx hid => habsent x hx (of_decide_eq_true hid)
  obtain ⟨left, hsucceeds, -⟩ := leads_run hretains none hnone
  rw [matched_eq_countP, hsucceeds.countP_eq_of_none htype]

/-- A trigger for versions, but not for the second. -/
def versionTrigger : Trigger :=
  ⟨"v", .version, .ofNat 2, some (.negation (.equals "version" (.str "2")))⟩

/-- A schedule with that trigger and any goal. -/
def versionSchedule (goal : Binary64) : Schedule :=
  ⟨"s", none, 0, ⟨none, none⟩, [{ versionTrigger with goal := goal }], [], [], .idle⟩

/-- The first version counted in an earlier life, and is reported again.  The fourth comes while the
processor is paused, and is fed again when the schedule leaves and enters its state.  Then the goal
changes. -/
def versionRequests (now : Instant) : List Request :=
  [.restore [versionSchedule (.ofNat 2)] now, .event (.stateChanged ⟨none, some "1"⟩) now,
    .event (.stateChanged ⟨some "a", some "2"⟩) now, .event (.stateChanged ⟨none, some "3"⟩) now,
    .pause true, .event (.stateChanged ⟨none, some "4"⟩) now, .pause false,
    .enter "s" .paused now, .enter "s" .idle now, .update [versionSchedule (.ofNat 1)] now,
    .event (.stateChanged ⟨some "b", some "4"⟩) now, .event (.stateChanged ⟨none, none⟩) now,
    .event (.stateChanged ⟨none, some "3"⟩) now]

/-- The store before the requests. -/
def versionStore : Store :=
  .ofTables (Tables.empty.putProgress ⟨"s", "v", .ofNat 1, some ⟨none, some "1"⟩⟩)

theorem definesOnce_versionSchedule (goal : Binary64) :
    ∀ schedule ∈ [versionSchedule goal], schedule.id = "s" →
      DefinesOnce schedule .execution versionTrigger := fun _ hschedule _ =>
  ⟨goal, List.mem_singleton.mp hschedule ▸ rfl⟩

/-- Three versions count: the third, the fourth, and the third again. -/
theorem matched_eq_changes_versions :
    (Turn.start versionStore).matched ⟨"s", "v"⟩ (versionRequests .epoch) = 3 := by
  have hretains : (Turn.start versionStore).Retains "s" .execution versionTrigger
      (versionRequests .epoch) :=
    ⟨definesOnce_versionSchedule _, trivial, trivial, trivial, trivial, trivial, trivial, trivial,
      trivial, definesOnce_versionSchedule _, trivial, trivial, trivial, trivial⟩
  have hshown : changes
      ((hydrated ((Turn.start versionStore).episodes ⟨"s", "v"⟩
        (versionRequests .epoch))).bind versionTrigger.valueIn)
      ((heard ((Turn.start versionStore).episodes ⟨"s", "v"⟩
        (versionRequests .epoch))).filterMap versionTrigger.reading?) = 3 := by decide +kernel
  exact (matched_eq_changes rfl (List.forall_mem_nil _) hretains).trans hshown

end Processor
end Automation
