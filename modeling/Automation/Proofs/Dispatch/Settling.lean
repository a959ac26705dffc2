import Automation.Proofs.Dispatch.Lines

/-!
# A time line settles with shut gates

What ends a turn is that the operation cannot move.  So an operation goes out of the line at a gate
that is shut, or while it is busy elsewhere (`Kept.leave`), and nothing else takes anybody out of
the line.  Every move, every submission and every entry of the agenda keeps the invariant, and when
nobody is in line no gate is open.

A submission is the one place where a call comes before its operation is known by its number.  The
operation is at work then, and so it is in line already (`Kept.place`).
-/

namespace Automation
namespace Timeline

variable {config : QueueConfig} {t t' : Timeline} {q : Queue} {e : Queue.Event} {job seq : Nat}

/-! ## Moves -/

theorem Kept.startCall? (h : t.Kept config) (hown : t.seqOf? job = some seq)
    (hstart : t.startCall? job seq = some t') : t'.Kept config := by
  obtain ⟨q, hq, rfl⟩ := Option.map_eq_some_iff.mp hstart
  have hstep : t.queue.step? (.start seq) = some q := hq
  have hlinked := h.linked.event job hstep (fun n hn => by rwa [← Option.some.inj hn])
    fun phase hphase hat => by cases hphase; cases hat
  dsimp only
  generalize ((t.tracks[job]?.map fun k => k.starts.length).getD 0) = made
  have hkept := hlinked.withQueue.updateTrack job
    (f := fun k => { k with starts := k.starts ++ [t.now] }) (fun _ => rfl) fun _ => Or.inl rfl
  have hown' : (t.withQueue q).seqOf? job = some seq := by
    rw [seqOf?_withQueue]
    exact hown
  have haway : ∀ c ∈ (t.withQueue q).queue.calls, c.seq = seq → c.phase.isAtGate = false := by
    rw [queue_withQueue]
    exact h.linked.away_of_step? hstep rfl fun phase hphase => by cases hphase; rfl
  split
  · refine hkept.plan _ _ ((congrFun (seqOf?_updateTrack ?_) job).trans hown') haway
    exact fun _ => rfl
  · exact hkept

theorem Kept.returnCall? (h : t.Kept config) (hown : t.seqOf? job = some seq)
    (hreturn : t.returnCall? job seq = some t') : t'.Kept config := by
  obtain ⟨q, hq, rfl⟩ := Option.map_eq_some_iff.mp hreturn
  have hstep : t.queue.step? (.deliver seq) = some q := hq
  have hlinked := h.linked.event job hstep (fun n hn => by rwa [← Option.some.inj hn])
    fun phase hphase => by cases hphase
  exact hlinked.withQueue.recordReturn job

/-- An attempt after which the operation sleeps was no success. -/
theorem isRetried_of_sleeps {q q' : Queue} {outcome : AttemptEnd} {delay : Span}
    (h : q.endAttempt? seq outcome = some (.sleeps delay, q')) : outcome.isRetried = true := by
  rw [Queue.endAttempt?] at h
  split at h
  · cases h
  · cases outcome with
    | success => cases h
    | successUnordered => cases h
    | retry => rfl
    | failure => rfl

theorem Kept.endAttempt (h : t.Kept config) (hown : t.seqOf? job = some seq)
    (hdue : t.dueOf? job = none) (outcome : AttemptEnd) : (t.endAttempt job seq outcome).Kept config := by
  have hlinked : ∀ after q, t.queue.endAttempt? seq outcome = some (after, q) →
      t.queue.step? (.endAttempt seq outcome) = some q ∧
        ({ t with queue := q } : Timeline).Linked config := by
    intro after q hq
    have hstep : t.queue.step? (.endAttempt seq outcome) = some q := by
      rw [Queue.step?, hq]
      rfl
    exact ⟨hstep, h.linked.event job hstep (fun n hn => by rwa [← Option.some.inj hn])
      fun _ _ _ => hdue⟩
  unfold Timeline.endAttempt
  split
  · exact h
  · next q hq => exact (hlinked _ q hq).2.withQueue.recordReturn job
  · next q hq => exact (hlinked _ q hq).2.withQueue
  · next delay q hq =>
    obtain ⟨hstep, hnext⟩ := hlinked _ q hq
    have haway : ∀ c ∈ q.calls, c.seq = seq → c.phase.isAtGate = false := by
      refine h.linked.away_of_step? hstep rfl fun phase hphase => ?_
      have hretried := isRetried_of_sleeps hq
      cases outcome with
      | success => cases hretried
      | successUnordered => cases hretried
      | retry => cases hphase; rfl
      | failure => cases hphase; rfl
    refine hnext.withQueue.plan _ _ ((congrFun seqOf?_withQueue job).trans hown) ?_
    rw [queue_withQueue]
    exact haway

theorem Kept.wakeCall (h : t.Kept config) (hown : t.seqOf? job = some seq)
    (hdue : t.dueOf? job = none) : (t.wakeCall seq).Kept config := by
  unfold Timeline.wakeCall
  split
  · next q hq =>
    exact (h.linked.event (e := .wake seq) job hq (fun n hn => by rwa [← Option.some.inj hn])
      fun _ _ _ => hdue).withQueue
  · exact h

theorem Kept.perform (h : t.Kept config) (hown : t.seqOf? job = some seq) (deed : Deed) :
    (t.perform job seq deed).Kept config := by
  have hkept : (t.updateTrack job fun k => { k with due := none }).Kept config :=
    h.updateTrack job (fun _ => rfl) fun _ => Or.inr rfl
  have hown' : (t.updateTrack job fun k => { k with due := none }).seqOf? job = some seq := by
    rw [seqOf?_updateTrack]
    · exact hown
    · exact fun _ => rfl
  have hdue : (t.updateTrack job fun k => { k with due := none }).dueOf? job = none := by
    rw [dueOf?, tracks_updateTrack, if_pos rfl, Option.bind_map]
    cases t.tracks[job]? <;> rfl
  unfold Timeline.perform
  cases deed with
  | endAttempt outcome => exact hkept.endAttempt hown' hdue outcome
  | wake => exact hkept.wakeCall hown' hdue

theorem Kept.endCancelled (h : t.Kept config) (seq : Nat) : (t.endCancelled seq).Kept config := by
  unfold Timeline.endCancelled
  split
  · next q job hq hjob =>
    have hlinked := h.linked.event (e := .endCancelled seq) job hq
      (fun n hn => by rw [← Option.some.inj hn]; exact seqOf?_of_jobOf? hjob)
      fun phase hphase => by cases hphase
    exact hlinked.withQueue.updateTrack job (fun _ => rfl) fun _ => Or.inl rfl
  · exact h

/-! ## Submissions -/

/-- A new call waits, and the operation that submitted it has its number. -/
def place (t : Timeline) (job : Nat) : Timeline :=
  (t.withQueue t.queue.submit.2).updateTrack job fun k => { k with seq := some t.queue.submit.1 }

theorem queue_place : (t.place job).queue = t.queue.submit.2 := queue_withQueue

theorem seqOf?_place_self {k : Track} (hk : t.tracks[job]? = some k) :
    (t.place job).seqOf? job = some t.queue.ledger.nextSeq := by
  obtain ⟨line, hline, -⟩ := withQueue_eq t t.queue.submit.2
  rw [seqOf?, place, tracks_updateTrack, if_pos rfl, hline]
  show (t.tracks[job]?.map _).bind _ = _
  rw [hk]
  rfl

theorem seqOf?_place_of_ne {i : Nat} (hi : i ≠ job) : (t.place job).seqOf? i = t.seqOf? i := by
  obtain ⟨line, hline, -⟩ := withQueue_eq t t.queue.submit.2
  rw [seqOf?, place, tracks_updateTrack, if_neg hi, hline]
  rfl

theorem dueOf?_place {i : Nat} {due : Due} (h : (t.place job).dueOf? i = some due) :
    t.dueOf? i = some due := by
  obtain ⟨line, hline, -⟩ := withQueue_eq t t.queue.submit.2
  rw [place, hline] at h
  exact dueOf?_updateTrack (f := fun k => { k with seq := some t.queue.submit.1 })
    (fun _ => Or.inl rfl) h

theorem mem_calls_place (h : t.Linked config) {c : Call} (hc : c ∈ (t.place job).queue.calls) :
    c ∈ t.queue.calls ∨ c.seq = t.queue.ledger.nextSeq := by
  rw [queue_place] at hc
  rcases h.sound.mem_of_step? (e := .submit) rfl hc with ⟨hc, -⟩ | ⟨hsubject, -⟩
  · exact Or.inl hc
  · exact Or.inr (Option.some.inj hsubject).symm

/-- Numbers that were given out before stay where they are. -/
theorem seqOf?_place_of_some (hnone : t.seqOf? job = none) {i n : Nat} (hn : t.seqOf? i = some n) :
    (t.place job).seqOf? i = some n := by
  rw [seqOf?_place_of_ne fun hi => by rw [hi, hnone] at hn; cases hn]
  exact hn

/-- Who has a number after a submission has submitted just now, or had it before. -/
theorem seqOf?_of_place {k : Track} (hk : t.tracks[job]? = some k) {i n : Nat}
    (hn : (t.place job).seqOf? i = some n) :
    i = job ∧ n = t.queue.ledger.nextSeq ∨ t.seqOf? i = some n := by
  by_cases hi : i = job
  · rw [hi, seqOf?_place_self hk] at hn
    exact Or.inl ⟨hi, (Option.some.inj hn).symm⟩
  · rw [seqOf?_place_of_ne hi] at hn
    exact Or.inr hn

theorem Linked.place (h : t.Linked config) {k : Track} (hk : t.tracks[job]? = some k)
    (hnone : t.seqOf? job = none) : (t.place job).Linked config := by
  refine ⟨?_, ?_, ?_, ?_, ?_⟩
  · rw [queue_place]
    exact h.reached_of_step? (e := .submit) rfl
  · intro i n hn
    rw [queue_place]
    show n < t.queue.ledger.nextSeq + 1
    rcases seqOf?_of_place hk hn with ⟨-, rfl⟩ | hn
    · exact Nat.lt_succ_self _
    · exact (h.lt_nextSeq i n hn).trans (Nat.lt_succ_self _)
  · intro i j n hi hj
    rcases seqOf?_of_place hk hi with ⟨rfl, rfl⟩ | hi
    · rcases seqOf?_of_place hk hj with ⟨rfl, -⟩ | hj
      · rfl
      · exact absurd (h.lt_nextSeq j _ hj) (lt_irrefl _)
    · rcases seqOf?_of_place hk hj with ⟨-, rfl⟩ | hj
      · exact absurd (h.lt_nextSeq i _ hi) (lt_irrefl _)
      · exact h.unique i j n hi hj
  · intro c hc
    rcases mem_calls_place h hc with hc | hseq
    · obtain ⟨i, hi⟩ := h.owned c hc
      exact ⟨i, seqOf?_place_of_some hnone hi⟩
    · exact ⟨job, hseq ▸ seqOf?_place_self hk⟩
  · intro i due hi
    obtain ⟨n, hn, haway⟩ := h.away i due (dueOf?_place hi)
    refine ⟨n, seqOf?_place_of_some hnone hn, fun c hc hseq => ?_⟩
    rcases mem_calls_place h hc with hc | hnext
    · exact haway c hc hseq
    · exact absurd (hseq.symm.trans hnext) (h.lt_nextSeq i n hn).ne

/-- The operation at work is in line already, and so its call is looked after. -/
theorem Kept.place (h : t.Kept config) {k : Track} (hk : t.tracks[job]? = some k)
    (hnone : t.seqOf? job = none) (hline : job ∈ t.line) : (t.place job).Kept config := by
  refine ⟨h.linked.place hk hnone, ?_⟩
  intro c hc hopen
  obtain ⟨line, hwith, hkeeps, hmem⟩ := withQueue_eq t t.queue.submit.2
  have hplace : (t.place job).line = line := by
    rw [Timeline.place, hwith]
    rfl
  rw [hplace]
  rcases mem_calls_place h.linked hc with hold | hseq
  · obtain ⟨i, hi⟩ := h.linked.owned c hold
    obtain ⟨j, hj⟩ := exists_jobOf? hi
    rw [queue_place] at hc
    exact ⟨j, hmem c hc hopen.isAtGate j hj, seqOf?_place_of_some hnone (seqOf?_of_jobOf? hj)⟩
  · exact ⟨job, hkeeps job hline, hseq ▸ seqOf?_place_self hk⟩

theorem Kept.submitJob (h : t.Kept config) {k : Track} (hk : t.tracks[job]? = some k)
    (hnone : t.seqOf? job = none) (hline : job ∈ t.line) : (t.submitJob job).Kept config := by
  have hplaced := h.place hk hnone hline
  change Kept (if t.queue.submit.2.cancelled then (t.place job).endCancelled t.queue.submit.1
    else _) config
  split
  · exact hplaced.endCancelled _
  · split
    · exact hplaced.planTurn _ _
    · exact hplaced

/-! ## Turns -/

/-- An operation that can do something leaves the invariant as it is. -/
theorem Kept.move? (h : t.Kept config) (hline : job ∈ t.line) (hmove : t.move? job = some t') :
    t'.Kept config := by
  rw [Timeline.move?] at hmove
  split at hmove
  · cases hmove
  · next hk =>
    cases hmove
    exact h.submitJob hk (congrArg (Option.bind · Track.seq) hk) hline
  · next hk =>
    split_ifs at hmove
    cases hmove
    exact h.perform (congrArg (Option.bind · Track.seq) hk) _
  · next hk =>
    have hown := congrArg (Option.bind · Track.seq) hk
    rcases Option.or_eq_some_iff.mp hmove with hstart | ⟨-, hreturn⟩
    · exact h.startCall? hown hstart
    · exact h.returnCall? hown hreturn

/-- An operation that can do nothing waits at no open gate. -/
theorem Linked.not_isOpenFor (h : t.Linked config) (hmove : t.move? job = none) {c : Call}
    (hc : c ∈ t.queue.calls) (hown : t.seqOf? job = some c.seq) : ¬ t.queue.IsOpenFor c := by
  intro hopen
  rw [seqOf?, Option.bind_eq_some_iff] at hown
  obtain ⟨k, hk, hseq⟩ := hown
  rw [Timeline.move?, hk] at hmove
  obtain ⟨number, starts, due, fate⟩ := k
  cases hseq
  cases due with
  | some due =>
    obtain ⟨n, hn, haway⟩ := h.away job due (congrArg (Option.bind · Track.due) hk)
    have hsame : t.seqOf? job = some c.seq := congrArg (Option.bind · Track.seq) hk
    rw [hsame] at hn
    exact absurd hopen.isAtGate (Bool.eq_false_iff.mp (haway c hc (Option.some.inj hn)))
  | none =>
    obtain ⟨hstart, hreturn⟩ := Option.or_eq_none_iff.mp hmove
    refine h.sound.pass?_of_isOpenFor hc hopen (Queue.pass?_eq_none_iff.mpr ⟨?_, ?_⟩)
    · exact Option.map_eq_none_iff.mp hstart
    · exact Option.map_eq_none_iff.mp hreturn

theorem Kept.endTurn (h : t.Kept config) (job : Nat) : (t.endTurn job).Kept config := by
  unfold Timeline.endTurn
  dsimp only
  split
  · next q hq =>
    obtain ⟨seq, hown, habandon⟩ := Option.bind_eq_some_iff.mp hq
    have hlinked := h.linked.event (e := .abandon seq) job habandon
      (fun n hn => by rwa [← Option.some.inj hn]) fun phase hphase => by cases hphase
    split
    · exact hlinked.withQueue.updateTrack job (fun _ => rfl) fun _ => Or.inl rfl
    · exact h
  · exact h

/-- An operation that can do nothing may go out of the line. -/
theorem Kept.leave (h : t.Kept config) {rest : List Nat} (hline : t.line = job :: rest)
    (hmove : t.move? job = none) : ({ t with line := rest } : Timeline).Kept config := by
  refine ⟨h.linked.congr rfl rfl fun _ _ hdue => hdue, ?_⟩
  intro c hc hopen
  obtain ⟨i, hi, hown⟩ := h.attended c hc hopen
  rw [hline] at hi
  rcases List.mem_cons.mp hi with rfl | hi
  · exact absurd hopen (h.linked.not_isOpenFor hmove hc hown)
  · exact ⟨i, hi, hown⟩

/-! ## Moments -/

/-- The cancellation opens no gate. -/
theorem Kept.cancel (h : t.Kept config) :
    ({ t with queue := t.queue.cancel } : Timeline).Kept config := by
  have hlinked := h.linked.event (e := .cancel) 0 rfl (fun n hn => by cases hn)
    fun phase hphase => by cases hphase
  refine ⟨hlinked, ?_⟩
  intro c hc hopen
  cases hopen with
  | start hphase hgate => exact h.attended c hc (.start hphase hgate)
  | deliver hphase hgate => exact h.attended c hc (.deliver hphase hgate)

theorem Kept.cancelQueue (h : t.Kept config) : t.cancelQueue.Kept config :=
  List.foldlRecOn (motive := fun t : Timeline => t.Kept config) _ _ h.cancel
    fun _ hkept seq _ => hkept.endCancelled seq

theorem Kept.begin (h : t.Kept config) (e : AgendaEntry) : (t.begin e).Kept config := by
  unfold Timeline.begin
  split
  · exact h.cancelQueue
  · exact h.lineUp _
  · exact h.lineUp _

theorem Kept.advance? (h : t.Kept config) {stop : Nat} (hadvance : t.advance? stop = some t') :
    t'.Kept config := by
  rw [Timeline.advance?] at hadvance
  split at hadvance
  · cases hadvance
  · next e rest hagenda =>
    split_ifs at hadvance
    · cases hadvance
      refine List.foldlRecOn (motive := fun t : Timeline => t.Kept config) _ _ ?_
        fun _ hkept f _ => hkept.begin f
      exact h.congr rfl rfl (fun _ _ hdue => hdue) fun _ hi => hi
    · cases hadvance
      exact h.cancel.congr rfl rfl (fun _ _ hdue => hdue) fun _ hi => hi

/-! ## Runs -/

/-- Every step keeps the invariant. -/
theorem Kept.step? (h : t.Kept config) {stop : Nat} (hstep : t.step? stop = some t') :
    t'.Kept config := by
  rw [Timeline.step?] at hstep
  split at hstep
  · exact h.advance? hstep
  · next job rest hline =>
    split at hstep
    · next hmove =>
      cases hstep
      exact h.move? (hline ▸ List.mem_cons_self) hmove
    · next hmove =>
      cases hstep
      exact (h.leave hline hmove).endTurn job

theorem Kept.runUntil (h : t.Kept config) (stop n : Nat) : (t.runUntil stop n).Kept config := by
  induction n generalizing t with
  | zero => exact h
  | succ n ih =>
    rw [Timeline.runUntil]
    split
    · next next hstep => exact ih (h.step? hstep)
    · exact h

theorem kept_start (config : QueueConfig) (jobs : List Job) (cancelAt : Option Nat) :
    (start config jobs cancelAt).Kept config := by
  have hseq : ∀ i, (start config jobs cancelAt).seqOf? i = none := by
    intro i
    rw [seqOf?, start, List.getElem?_map]
    cases jobs[i]? <;> rfl
  have hdue : ∀ i, (start config jobs cancelAt).dueOf? i = none := by
    intro i
    rw [dueOf?, start, List.getElem?_map]
    cases jobs[i]? <;> rfl
  refine ⟨⟨⟨[], rfl⟩, ?_, ?_, ?_, ?_⟩, ?_⟩
  · intro i n hn
    rw [hseq] at hn
    cases hn
  · intro i j n hi
    rw [hseq] at hi
    cases hi
  · intro c hc
    cases hc
  · intro i due hi
    rw [hdue] at hi
    cases hi
  · intro c hc
    cases hc

/-- **A time line settles with shut gates.**  When nobody is in line, no call could start or
return. -/
theorem Kept.shut_of_line_nil (h : t.Kept config) (hline : t.line = []) (seq : Nat) :
    t.queue.pass? seq = none := by
  rw [h.linked.sound.pass?_eq_none_iff]
  rintro c hc - hopen
  obtain ⟨i, hi, -⟩ := h.attended c hc hopen
  rw [hline] at hi
  cases hi

end Timeline
end Automation
