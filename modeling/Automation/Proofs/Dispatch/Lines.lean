import Automation.Dispatch.Timeline
import Automation.Proofs.Dispatch.Gates

/-!
# Who is in line

On a time line operations take turns, and whoever may have something to do is in line.  Whatever
changes the queue puts everybody who waits at a gate back into it, so an operation whose gate is
open is in line (`Timeline.Attended`).

## Numbers and operations

Lines hold operations and gates ask for numbers.  `Timeline.Linked` says how the two belong
together: every live call has its operation, no two operations share a number, and an operation
that waits for something that comes with time is not at a gate.  It looks at the queue and the
tracks alone.  The line is a matter of `withQueue`, which sets up the rest of the invariant from
nothing (`Linked.withQueue`).
-/

namespace Automation

/-! ## What an event leaves of the calls -/

namespace Queue

/-- The number of the call that an event happens to. -/
def Event.subject (q : Queue) : Event → Option Nat
  | .submit => some q.ledger.nextSeq
  | .start seq | .endAttempt seq _ | .deliver seq | .wake seq | .abandon seq | .endCancelled seq =>
    some seq
  | .cancel => none

variable {q q' : Queue} {e : Event}

/-- After an event a call is as it was, or it is the one that the event happened to. -/
theorem Sound.mem_of_step? (h : q.Sound) (hstep : q.step? e = some q') {d : Call}
    (hd : d ∈ q'.calls) :
    (d ∈ q.calls ∧ e.subject q ≠ some d.seq) ∨
      (e.subject q = some d.seq ∧ e.enters = some d.phase) := by
  rcases step?_cases hstep with
    ⟨rfl, rfl⟩ | ⟨rfl, rfl⟩ | ⟨c, hc, hends, rfl⟩ | ⟨c, hc, c', l, hmoves, rfl⟩
  · rw [submit, List.mem_append, List.mem_singleton] at hd
    rcases hd with hd | rfl
    · refine Or.inl ⟨hd, fun hsame => ?_⟩
      exact (h.agrees.lt_nextSeq d hd).ne (Option.some.inj hsame).symm
    · exact Or.inr ⟨rfl, rfl⟩
  · exact Or.inl ⟨hd, fun hnone => by cases hnone⟩
  · obtain ⟨hd, hne⟩ := mem_withoutCall.mp hd
    have hsubject : e.subject q = some c.seq := by cases hends <;> rfl
    rw [hsubject]
    exact Or.inl ⟨hd, fun hsame => hne (Option.some.inj hsame).symm⟩
  · have hsubject : e.subject q = some c.seq := by cases hmoves <;> rfl
    rw [hsubject]
    rcases (mem_withCall hc hmoves.seq_eq).mp hd with rfl | ⟨hd, hne⟩
    · exact Or.inr ⟨congrArg some hmoves.seq_eq.symm, hmoves.phases.2⟩
    · exact Or.inl ⟨hd, fun hsame => hne (Option.some.inj hsame).symm⟩

end Queue

namespace Timeline

variable {config : QueueConfig} {t t' : Timeline} {q : Queue} {e : Queue.Event} {job seq : Nat}

/-! ## What is known of an operation -/

/-- The number of an operation. -/
def seqOf? (t : Timeline) (job : Nat) : Option Nat := t.tracks[job]?.bind (·.seq)

/-- What an operation waits for that comes with time. -/
def dueOf? (t : Timeline) (job : Nat) : Option Due := t.tracks[job]?.bind (·.due)

/-- The place of a number is that of an operation that has it. -/
theorem seqOf?_of_jobOf? (h : t.jobOf? seq = some job) : t.seqOf? job = some seq := by
  obtain ⟨hlt, hseq, -⟩ := List.findIdx?_eq_some_iff_getElem.mp h
  rw [seqOf?, List.getElem?_eq_getElem hlt]
  exact of_decide_eq_true hseq

theorem exists_jobOf? (h : t.seqOf? job = some seq) : ∃ other, t.jobOf? seq = some other := by
  obtain ⟨k, hk, hseq⟩ := Option.bind_eq_some_iff.mp h
  rw [← Option.isSome_iff_exists, jobOf?, List.findIdx?_isSome, List.any_eq_true]
  exact ⟨k, List.mem_of_getElem? hk, decide_eq_true hseq⟩

theorem tracks_updateTrack (f : Track → Track) (i : Nat) :
    (t.updateTrack job f).tracks[i]? = if i = job then t.tracks[i]?.map f else t.tracks[i]? := by
  rw [updateTrack, List.getElem?_modify]
  by_cases h : i = job
  · rw [if_pos h, h]
    cases t.tracks[job]? <;> simp
  · rw [if_neg h]
    cases t.tracks[i]? <;> simp [Ne.symm h]

/-- A change that leaves the numbers alone. -/
theorem seqOf?_updateTrack {f : Track → Track} (hf : ∀ k, (f k).seq = k.seq) :
    (t.updateTrack job f).seqOf? = t.seqOf? := by
  funext i
  rw [seqOf?, tracks_updateTrack, seqOf?]
  split
  · rw [Option.bind_map]
    exact congrArg (Option.bind _) (funext hf)
  · rfl

/-- A change after which nobody waits who has not waited before. -/
theorem dueOf?_updateTrack {f : Track → Track} (hf : ∀ k, (f k).due = k.due ∨ (f k).due = none)
    {i : Nat} {due : Due} (h : (t.updateTrack job f).dueOf? i = some due) :
    t.dueOf? i = some due := by
  rw [dueOf?, tracks_updateTrack] at h
  split at h
  · rw [Option.bind_map] at h
    obtain ⟨k, hk, hdue⟩ := Option.bind_eq_some_iff.mp h
    rw [dueOf?, hk]
    rcases hf k with hsame | hnone
    · exact hsame.symm.trans hdue
    · exact absurd (hnone.symm.trans hdue) (Option.some_ne_none due).symm
  · exact h

/-! ## The line -/

/-- An operation that lines up changes nothing but the line, and is in it. -/
theorem lineUp_eq (t : Timeline) (job : Nat) :
    ∃ line, t.lineUp job = { t with line := line } ∧ (∀ i ∈ t.line, i ∈ line) ∧ job ∈ line := by
  rw [lineUp]
  split
  · next hmem => exact ⟨t.line, rfl, fun _ hi => hi, List.contains_iff_mem.mp hmem⟩
  · exact ⟨t.line ++ [job], rfl, fun _ hi => List.mem_append_left _ hi,
      List.mem_append_right _ (List.mem_singleton_self job)⟩

theorem foldl_lineUp_eq (jobs : List Nat) (t : Timeline) :
    ∃ line, jobs.foldl lineUp t = { t with line := line } ∧ (∀ i ∈ t.line, i ∈ line) ∧
      ∀ i ∈ jobs, i ∈ line := by
  induction jobs generalizing t with
  | nil => exact ⟨t.line, rfl, fun _ hi => hi, fun _ hi => absurd hi List.not_mem_nil⟩
  | cons job rest ih =>
    obtain ⟨line, hfirst, hkeeps, hmem⟩ := lineUp_eq t job
    obtain ⟨line', hrest, hkeeps', hmem'⟩ := ih { t with line := line }
    refine ⟨line', ?_, fun i hi => hkeeps' i (hkeeps i hi), fun i hi => ?_⟩
    · rw [List.foldl_cons, hfirst, hrest]
    · rcases List.mem_cons.mp hi with rfl | hi
      · exact hkeeps' _ hmem
      · exact hmem' i hi

/-- A change of the queue changes nothing else but the line, in which whoever waits at a gate is
afterwards. -/
theorem withQueue_eq (t : Timeline) (q : Queue) :
    ∃ line, t.withQueue q = { t with queue := q, line := line } ∧ (∀ i ∈ t.line, i ∈ line) ∧
      ∀ c ∈ q.calls, c.phase.isAtGate = true → ∀ i, t.jobOf? c.seq = some i → i ∈ line := by
  obtain ⟨line, hline, hkeeps, hmem⟩ :=
    foldl_lineUp_eq ({ t with queue := q } : Timeline).atGates { t with queue := q }
  refine ⟨line, hline, hkeeps, fun c hc hgate i hi => hmem i ?_⟩
  have hphase : c.phase = .waiting ∨ c.phase = .finished := by
    cases hphase : c.phase <;> simp_all [CallPhase.isAtGate]
  rw [atGates, List.mem_filterMap]
  exact ⟨c, hc, (if_pos hphase).trans hi⟩

/-! ## What a turn keeps -/

/-- The calls and the operations belong together. -/
structure Linked (t : Timeline) (config : QueueConfig) : Prop where
  /-- Nothing but events happens to the queue. -/
  reached : ∃ es, (Queue.empty config).run? es = some t.queue
  lt_nextSeq : ∀ i n, t.seqOf? i = some n → n < t.queue.ledger.nextSeq
  unique : ∀ i j n, t.seqOf? i = some n → t.seqOf? j = some n → i = j
  owned : ∀ c ∈ t.queue.calls, ∃ i, t.seqOf? i = some c.seq
  /-- Who waits for something that comes with time does not wait at a gate. -/
  away : ∀ i due, t.dueOf? i = some due → ∃ n, t.seqOf? i = some n ∧
    ∀ c ∈ t.queue.calls, c.seq = n → c.phase.isAtGate = false

/-- Whoever waits at an open gate is in line. -/
def Attended (t : Timeline) : Prop :=
  ∀ c ∈ t.queue.calls, t.queue.IsOpenFor c → ∃ i ∈ t.line, t.seqOf? i = some c.seq

/-- The invariant of a time line. -/
structure Kept (t : Timeline) (config : QueueConfig) : Prop where
  linked : t.Linked config
  attended : t.Attended

theorem Linked.sound (h : t.Linked config) : t.queue.Sound := by
  obtain ⟨es, hes⟩ := h.reached
  exact Queue.sound_of_run? hes

/-- What happens to the queue of a time line is an event. -/
theorem Linked.reached_of_step? (h : t.Linked config) (hstep : t.queue.step? e = some q) :
    ∃ es, (Queue.empty config).run? es = some q := by
  obtain ⟨es, hes⟩ := h.reached
  refine ⟨es ++ [e], ?_⟩
  rw [Queue.run?_concat, hes]
  exact hstep

theorem Linked.congr (h : t.Linked config) (hqueue : t'.queue = t.queue)
    (hseq : t'.seqOf? = t.seqOf?)
    (hdue : ∀ i due, t'.dueOf? i = some due → t.dueOf? i = some due) : t'.Linked config where
  reached := hqueue ▸ h.reached
  lt_nextSeq := by
    rw [hqueue, hseq]
    exact h.lt_nextSeq
  unique := by
    rw [hseq]
    exact h.unique
  owned := by
    rw [hqueue, hseq]
    exact h.owned
  away i due hi := by
    rw [hqueue, hseq]
    exact h.away i due (hdue i due hi)

/-- What leaves the queue and the numbers alone, and takes nobody out of the line. -/
theorem Kept.congr (h : t.Kept config) (hqueue : t'.queue = t.queue) (hseq : t'.seqOf? = t.seqOf?)
    (hdue : ∀ i due, t'.dueOf? i = some due → t.dueOf? i = some due)
    (hline : ∀ i ∈ t.line, i ∈ t'.line) : t'.Kept config := by
  refine ⟨h.linked.congr hqueue hseq hdue, ?_⟩
  intro c hc hopen
  rw [hqueue] at hc hopen
  obtain ⟨i, hi, hown⟩ := h.attended c hc hopen
  exact ⟨i, hline i hi, hseq ▸ hown⟩

theorem Kept.updateTrack (h : t.Kept config) (job : Nat) {f : Track → Track}
    (hseq : ∀ k, (f k).seq = k.seq) (hdue : ∀ k, (f k).due = k.due ∨ (f k).due = none) :
    (t.updateTrack job f).Kept config :=
  h.congr rfl (seqOf?_updateTrack hseq) (fun _ _ => dueOf?_updateTrack hdue) fun _ hi => hi

theorem Kept.lineUp (h : t.Kept config) (job : Nat) : (t.lineUp job).Kept config := by
  obtain ⟨line, hline, hkeeps, -⟩ := lineUp_eq t job
  rw [hline]
  exact h.congr rfl rfl (fun _ _ hdue => hdue) hkeeps

theorem Kept.planTurn (h : t.Kept config) (job time : Nat) : (t.planTurn job time).Kept config := by
  rw [Timeline.planTurn]
  split
  · exact h.congr rfl rfl (fun _ _ hdue => hdue) fun _ hi => hi
  · exact h

theorem Kept.recordReturn (h : t.Kept config) (job : Nat) : (t.recordReturn job).Kept config := by
  have hkept := h.updateTrack job (f := fun k => { k with fate := .returned t.now k.starts.length })
    (fun _ => rfl) fun _ => Or.inl rfl
  exact hkept.congr rfl rfl (fun _ _ hdue => hdue) fun _ hi => hi

/-- An operation whose call is at no gate may wait for something that comes with time. -/
theorem Kept.plan (h : t.Kept config) (delay : Nat) (deed : Deed) (hown : t.seqOf? job = some seq)
    (haway : ∀ c ∈ t.queue.calls, c.seq = seq → c.phase.isAtGate = false) :
    (t.plan job delay deed).Kept config := by
  refine Kept.planTurn ?_ _ _
  have hseq : (t.updateTrack job fun k => { k with due := some ⟨t.now + delay, deed⟩ }).seqOf? =
      t.seqOf? := seqOf?_updateTrack fun _ => rfl
  refine ⟨⟨h.linked.reached, ?_, ?_, ?_, ?_⟩, ?_⟩
  · rw [hseq]
    exact h.linked.lt_nextSeq
  · rw [hseq]
    exact h.linked.unique
  · rw [hseq]
    exact h.linked.owned
  · intro i due hdue
    rw [hseq]
    by_cases hi : i = job
    · exact ⟨seq, hi ▸ hown, haway⟩
    · rw [dueOf?, tracks_updateTrack, if_neg hi] at hdue
      exact h.linked.away i due hdue
  · intro c hc hopen
    rw [hseq]
    exact h.attended c hc hopen

/-! ## Events on a time line -/

/-- An event that happens to the call of an operation.  If it brings the call to a gate, then the
operation must not wait for anything else. -/
theorem Linked.event (h : t.Linked config) (job : Nat) (hstep : t.queue.step? e = some q)
    (hown : ∀ n, e.subject t.queue = some n → t.seqOf? job = some n)
    (hgate : ∀ phase, e.enters = some phase → phase.isAtGate = true → t.dueOf? job = none) :
    ({ t with queue := q } : Timeline).Linked config where
  reached := h.reached_of_step? hstep
  lt_nextSeq i n hn := by
    refine (h.lt_nextSeq i n hn).trans_le ?_
    show t.queue.ledger.nextSeq ≤ q.ledger.nextSeq
    rw [Queue.nextSeq_step hstep]
    exact Nat.le_add_right _ _
  unique := h.unique
  owned c hc := by
    rcases h.sound.mem_of_step? hstep hc with ⟨hold, -⟩ | ⟨hsubject, -⟩
    · exact h.owned c hold
    · exact ⟨job, hown _ hsubject⟩
  away i due hdue := by
    obtain ⟨n, hn, haway⟩ := h.away i due hdue
    refine ⟨n, hn, ?_⟩
    rintro c hc rfl
    rcases h.sound.mem_of_step? hstep hc with ⟨hold, -⟩ | ⟨hsubject, henters⟩
    · exact haway c hold rfl
    · rw [Bool.eq_false_iff]
      intro hat
      obtain rfl := h.unique i job c.seq hn (hown _ hsubject)
      have hnone : t.dueOf? i = some due := hdue
      rw [hgate _ henters hat] at hnone
      cases hnone

/-- Where the calls and the operations belong together after a change of the queue, the line is set
up for it. -/
theorem Linked.withQueue (h : ({ t with queue := q } : Timeline).Linked config) :
    (t.withQueue q).Kept config := by
  obtain ⟨line, hline, -, hmem⟩ := withQueue_eq t q
  rw [hline]
  refine ⟨h.congr rfl rfl fun _ _ hdue => hdue, ?_⟩
  intro c hc hopen
  obtain ⟨i, hi⟩ := h.owned c hc
  obtain ⟨j, hj⟩ := exists_jobOf? hi
  exact ⟨j, hmem c hc hopen.isAtGate j hj, seqOf?_of_jobOf? hj⟩

theorem seqOf?_withQueue : (t.withQueue q).seqOf? = t.seqOf? := by
  obtain ⟨line, hline, -⟩ := withQueue_eq t q
  rw [hline]
  rfl

theorem queue_withQueue : (t.withQueue q).queue = q := by
  obtain ⟨line, hline, -⟩ := withQueue_eq t q
  rw [hline]

/-- An event that takes a call away from the gates. -/
theorem Linked.away_of_step? (h : t.Linked config) (hstep : t.queue.step? e = some q)
    (hsubject : e.subject t.queue = some seq)
    (henters : ∀ phase, e.enters = some phase → phase.isAtGate = false) :
    ∀ c ∈ q.calls, c.seq = seq → c.phase.isAtGate = false := by
  rintro c hc rfl
  rcases h.sound.mem_of_step? hstep hc with ⟨-, hne⟩ | ⟨-, hphase⟩
  · exact absurd hsubject hne
  · exact henters _ hphase

end Timeline
end Automation
