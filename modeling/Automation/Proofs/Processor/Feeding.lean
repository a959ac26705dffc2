import Automation.Proofs.Store.ProgressRows

/-!
# Feeding an event to the triggers of a schedule

An event is looked at by each trigger for itself.  So what an event does to one trigger can be seen
in the outcomes of all of them, by keeping those that are for that trigger: `ofTrigger_outcomes`
says so for the triggers of one schedule, and `ofTrigger_flatMap` for those of all schedules.

For that an outcome has to say whom it is for, and say the truth.  A trigger bears its schedule's id
and its own in three places, in what it is, in its progress and in what it fires.  `Prepared.IsFor`
is the invariant that they agree, together with one more that matters whenever progress is written:
the count is a number.
-/

namespace Automation
namespace Prepared

/-! ## Triggers of a schedule -/

/-- A prepared trigger stands under its schedule, its progress is its own, and its count is a
number. -/
structure IsFor (scheduleId : String) (t : Prepared) : Prop where
  schedule : t.scheduleId = scheduleId
  progressSchedule : t.progress.scheduleId = scheduleId
  progressTrigger : t.progress.triggerId = t.trigger.id
  count : t.progress.count ≠ .nan

/-- A prepared trigger stands under its schedule and its progress is its own, whatever the count. -/
structure IsOf (scheduleId : String) (t : Prepared) : Prop where
  schedule : t.scheduleId = scheduleId
  key : t.progress.key = ⟨scheduleId, t.trigger.id⟩

variable {scheduleId : String} {t : Prepared} {event : Event} {now : Instant}

theorem IsFor.isOf (h : t.IsFor scheduleId) : t.IsOf scheduleId :=
  ⟨h.schedule, by rw [Progress.key, h.progressSchedule, h.progressTrigger]⟩

/-! ## One trigger -/

/-- Whether an event counts for a trigger: it listens, and the event is one that its rule counts. -/
def credits (t : Prepared) (event : Event) (now : Instant) : Bool :=
  t.listens now && (t.trigger.advance? event t.progress).isSome

/-- An event that does not count changes nothing. -/
theorem process_of_not_credits (h : t.credits event now = false) :
    t.process event now = (t, none) := by
  rw [credits, Bool.and_eq_false_iff] at h
  rw [process]
  rcases h with h | h
  · rw [if_neg (by simp [h])]
  · split
    · cases hadvance : t.trigger.advance? event t.progress with
      | none => rfl
      | some progress => simp [hadvance] at h
    · rfl

/-- An event that counts advances the progress, and takes it back where the goal is reached. -/
theorem process_of_credits (h : t.credits event now = true) :
    ∃ progress, t.trigger.advance? event t.progress = some progress ∧
      t.process event now =
        if t.trigger.isReached progress then
          ({ t with progress := { progress with count := 0 } },
            some ⟨{ progress with count := 0 }, some (t.firing event progress now)⟩)
        else ({ t with progress := progress }, some ⟨progress, none⟩) := by
  rw [credits, Bool.and_eq_true, Option.isSome_iff_exists] at h
  obtain ⟨hlistens, progress, hadvance⟩ := h
  refine ⟨progress, hadvance, ?_⟩
  rw [process, if_pos hlistens, hadvance]

/-- Progress stays that of the same trigger. -/
theorem advance?_ids {trigger : Trigger} {p p' : Progress}
    (h : trigger.advance? event p = some p') :
    p'.scheduleId = p.scheduleId ∧ p'.triggerId = p.triggerId := by
  cases event with
  | occurred type data value =>
    rw [Trigger.advance?] at h
    split at h
    · cases h
      exact ⟨rfl, rfl⟩
    · cases h
  | stateChanged state =>
    rw [Trigger.advance?] at h
    split at h
    · cases h
      exact ⟨rfl, rfl⟩
    · cases h

/-- An event changes the progress of a trigger and nothing else about it. -/
theorem process_fst (t : Prepared) (event : Event) (now : Instant) :
    ∃ progress, (t.process event now).1 = { t with progress := progress } ∧
      progress.scheduleId = t.progress.scheduleId ∧ progress.triggerId = t.progress.triggerId := by
  cases hcredits : t.credits event now with
  | false =>
    rw [process_of_not_credits hcredits]
    exact ⟨t.progress, rfl, rfl, rfl⟩
  | true =>
    obtain ⟨progress, hadvance, hprocess⟩ := process_of_credits hcredits
    obtain ⟨hschedule, htrigger⟩ := advance?_ids hadvance
    rw [hprocess]
    split
    · exact ⟨_, rfl, hschedule, htrigger⟩
    · exact ⟨_, rfl, hschedule, htrigger⟩

@[simp] theorem process_trigger : (t.process event now).1.trigger = t.trigger := by
  obtain ⟨progress, h, -⟩ := process_fst t event now
  rw [h]

/-- What an event did is what the trigger's progress is afterwards, and what fired is the trigger. -/
theorem process_snd {o : Outcome} (h : (t.process event now).2 = some o) :
    o.progress = (t.process event now).1.progress ∧
      ∀ f ∈ o.firing, f.scheduleId = t.scheduleId ∧ f.info.triggerId = t.trigger.id := by
  cases hcredits : t.credits event now with
  | false =>
    rw [process_of_not_credits hcredits] at h
    cases h
  | true =>
    obtain ⟨progress, hadvance, hprocess⟩ := process_of_credits hcredits
    rw [hprocess] at h ⊢
    split at h
    · next hreached =>
      cases h
      rw [if_pos hreached]
      refine ⟨rfl, fun f hf => ?_⟩
      cases hf
      exact ⟨rfl, rfl⟩
    · next hreached =>
      cases h
      rw [if_neg hreached]
      exact ⟨rfl, fun f hf => by cases hf⟩

/-- An event that did nothing left the trigger as it was. -/
theorem process_fst_of_snd_eq_none (h : (t.process event now).2 = none) :
    (t.process event now).1 = t := by
  cases hcredits : t.credits event now with
  | false => rw [process_of_not_credits hcredits]
  | true =>
    obtain ⟨progress, -, hprocess⟩ := process_of_credits hcredits
    rw [hprocess] at h
    split at h <;> cases h

/-- An event leaves a trigger under its schedule, if the count is still a number. -/
theorem IsFor.process (h : t.IsFor scheduleId)
    (hcount : (t.process event now).1.progress.count ≠ .nan) :
    (t.process event now).1.IsFor scheduleId := by
  obtain ⟨progress, hprocess, hschedule, htrigger⟩ := process_fst t event now
  rw [hprocess] at hcount ⊢
  exact ⟨h.schedule, hschedule.trans h.progressSchedule, htrigger.trans h.progressTrigger, hcount⟩

end Prepared

namespace Processor

/-! ## Outcomes for one trigger -/

/-- The outcomes that are for one trigger. -/
def ofTrigger (k : ProgressKey) (os : List (Int × Outcome)) : List (Int × Outcome) :=
  os.filter fun o => o.2.progress.key = k

/-- Whether a firing is that of a trigger. -/
def isFiringOf (k : ProgressKey) (f : Firing) : Bool :=
  f.scheduleId = k.scheduleId && f.info.triggerId = k.triggerId

/-- Every prepared trigger stands under its schedule. -/
def IsProper (p : Processor) : Prop :=
  ∀ id ts, p.prepared.get? id = some ts → ∀ t ∈ ts, t.IsFor id

section Outcomes

variable {event : Event} {now : Instant} {id : String} {ts : List Prepared}

theorem mem_outcomes {o : Int × Outcome} :
    o ∈ outcomes event now ts ↔
      ∃ t ∈ ts, (t.process event now).2 = some o.2 ∧ o.1 = t.priority := by
  rw [outcomes, List.mem_filterMap]
  constructor
  · rintro ⟨t, ht, ho⟩
    obtain ⟨outcome, houtcome, rfl⟩ := Option.map_eq_some_iff.mp ho
    exact ⟨t, ht, houtcome, rfl⟩
  · rintro ⟨t, ht, houtcome, hpriority⟩
    refine ⟨t, ht, ?_⟩
    rw [houtcome, Option.map_some, ← hpriority]

/-- An outcome is for the trigger that it comes from. -/
theorem key_of_process {t : Prepared} (ht : t.IsFor id) {o : Outcome}
    (h : (t.process event now).2 = some o) : o.progress.key = ⟨id, t.trigger.id⟩ := by
  obtain ⟨progress, hprocess, hschedule, htrigger⟩ := t.process_fst event now
  rw [(Prepared.process_snd h).1, hprocess, Progress.key]
  show (⟨progress.scheduleId, progress.triggerId⟩ : ProgressKey) = _
  rw [hschedule, htrigger, ht.progressSchedule, ht.progressTrigger]

/-- What fires is the trigger that the outcome is for. -/
theorem isFiringOf_of_mem_outcomes (hts : ∀ t ∈ ts, t.IsFor id) {o : Int × Outcome}
    (h : o ∈ outcomes event now ts) : ∀ f ∈ o.2.firing, isFiringOf o.2.progress.key f = true := by
  obtain ⟨t, ht, ho, -⟩ := mem_outcomes.mp h
  intro f hf
  obtain ⟨hschedule, htrigger⟩ := (Prepared.process_snd ho).2 f hf
  rw [key_of_process (hts t ht) ho, isFiringOf, hschedule, htrigger, (hts t ht).schedule]
  simp

theorem outcomes_cons (t : Prepared) : outcomes event now (t :: ts) =
    ((t.process event now).2.map (t.priority, ·)).toList ++ outcomes event now ts := by
  rw [outcomes, List.filterMap_cons]
  cases (t.process event now).2 <;> rfl

/-- The outcomes for a trigger come from the triggers with its id. -/
theorem ofTrigger_outcomes (hts : ∀ t ∈ ts, t.IsFor id) (triggerId : String) :
    ofTrigger ⟨id, triggerId⟩ (outcomes event now ts) =
      outcomes event now (ts.filter fun t => t.trigger.id = triggerId) := by
  induction ts with
  | nil => rfl
  | cons t rest ih =>
    have hrest := ih fun u hu => hts u (List.mem_cons_of_mem _ hu)
    rw [ofTrigger] at hrest ⊢
    rw [outcomes_cons, List.filter_append, hrest, List.filter_cons]
    cases hprocess : (t.process event now).2 with
    | none =>
      split
      · rw [outcomes_cons, hprocess]
        rfl
      · rfl
    | some o =>
      have hkey := key_of_process (hts t List.mem_cons_self) hprocess
      rw [Option.map_some, Option.toList_some, List.filter_cons, List.filter_nil, hkey]
      by_cases hid : t.trigger.id = triggerId
      · simp [hid, outcomes_cons, hprocess]
      · simp [hid]

/-- No outcome of a schedule is for a trigger of another one. -/
theorem ofTrigger_outcomes_of_ne (hts : ∀ t ∈ ts, t.IsFor id) {k : ProgressKey}
    (hk : k.scheduleId ≠ id) : ofTrigger k (outcomes event now ts) = [] := by
  rw [ofTrigger, List.filter_eq_nil_iff]
  intro o ho hkey
  obtain ⟨t, ht, hprocess, -⟩ := mem_outcomes.mp ho
  rw [decide_eq_true_eq, key_of_process (hts t ht) hprocess] at hkey
  exact hk (hkey ▸ rfl)

end Outcomes

/-- What is kept of a list over a table, if only one key contributes to it. -/
theorem filter_flatMap_entries {α β : Type} {k : String} {l : List (String × α)}
    (hsorted : l.Pairwise fun a b => a.1 < b.1) {f : α → List β} {keep : β → Bool}
    (hothers : ∀ e ∈ l, e.1 ≠ k → (f e.2).filter keep = []) :
    ((l.map (·.2)).flatMap f).filter keep =
      ((Table.find k l).map fun v => (f v).filter keep).getD [] := by
  induction l with
  | nil => rfl
  | cons e rest ih =>
    obtain ⟨hfirst, hrest⟩ := List.pairwise_cons.mp hsorted
    have hmore := ih hrest fun e' he' => hothers e' (List.mem_cons_of_mem _ he')
    rw [List.map_cons, List.flatMap_cons, List.filter_append, hmore, Table.find]
    by_cases hk : k = e.1
    · have hnone : Table.find k rest = none := by
        rw [Option.eq_none_iff_forall_ne_some]
        intro v hv
        have hmem := (Table.find_eq_some_iff hrest).mp hv
        exact absurd (hfirst _ hmem) (hk ▸ String.lt_irrefl _)
      rw [if_pos hk, hnone]
      exact List.append_nil _
    · rw [if_neg hk, hothers e List.mem_cons_self (Ne.symm hk), List.nil_append]

/-- Of all outcomes of an event those for a trigger come from its own schedule. -/
theorem ofTrigger_flatMap {p : Processor} (hp : p.IsProper) (event : Event) (now : Instant)
    (k : ProgressKey) :
    ofTrigger k (p.prepared.values.flatMap (outcomes event now)) =
      outcomes event now ((p.triggersOf k.scheduleId).filter fun t => t.trigger.id = k.triggerId) := by
  have hentries : ∀ e ∈ p.prepared.entries, ∀ t ∈ e.2, t.IsFor e.1 := fun e he =>
    hp e.1 e.2 ((Table.get?_eq_some_iff _ _ _).mpr he)
  rw [ofTrigger, Table.values, filter_flatMap_entries (k := k.scheduleId) p.prepared.sorted
    fun e he hne => ofTrigger_outcomes_of_ne (hentries e he) (Ne.symm hne)]
  rw [triggersOf, Table.get?]
  cases hfind : Table.find k.scheduleId p.prepared.entries with
  | none => rfl
  | some ts => exact ofTrigger_outcomes (hp _ _ hfind) k.triggerId

/-! ## What fires -/

/-- Sorting neither loses nor adds a firing: there are as many of a trigger as outcomes for it that
fire. -/
theorem countP_firings {os : List (Int × Outcome)}
    (hos : ∀ o ∈ os, ∀ f ∈ o.2.firing, isFiringOf o.2.progress.key f = true) (k : ProgressKey) :
    (firings os).countP (isFiringOf k) = (ofTrigger k os).countP fun o => o.2.firing.isSome := by
  have hunsorted : (firings os).countP (isFiringOf k) =
      (os.filterMap fun o => o.2.firing).countP (isFiringOf k) := by
    rw [firings, ((perm_sortBy _ _).map _).countP_eq, List.map_filterMap]
    refine congrArg (List.countP _) (congrArg (List.filterMap · os) (funext fun o => ?_))
    cases o.2.firing <;> rfl
  rw [hunsorted]
  clear hunsorted
  induction os with
  | nil => rfl
  | cons o rest ih =>
    have hmore := ih fun o' ho' => hos o' (List.mem_cons_of_mem _ ho')
    rw [List.filterMap_cons, ofTrigger, List.filter_cons]
    rw [ofTrigger] at hmore
    cases hfiring : o.2.firing with
    | none =>
      simp only [hmore]
      split
      · rw [List.countP_cons, hfiring]
        rfl
      · rfl
    | some f =>
      have hof := hos o List.mem_cons_self f hfiring
      rw [isFiringOf, Bool.and_eq_true, decide_eq_true_eq, decide_eq_true_eq] at hof
      have hsame : isFiringOf k f = decide (o.2.progress.key = k) := by
        rw [isFiringOf, hof.1, hof.2, ← Bool.decide_and, decide_eq_decide]
        constructor
        · rintro ⟨hschedule, htrigger⟩
          cases k
          exact ProgressKey.mk.injEq .. ▸ ⟨hschedule, htrigger⟩
        · rintro rfl
          exact ⟨rfl, rfl⟩
      simp only [List.countP_cons, hmore, hsame]
      split
      · rw [List.countP_cons, hfiring]
        rfl
      · simp

end Processor
end Automation
