import Automation.Proofs.Dispatch.Runs
import Mathlib.Data.List.Sort

/-!
# The ledger agrees with the calls

The gates look at the ledger and not at the calls, so whatever is to be said about gates has to be
carried from the calls to the ledger.  `Ledger.Agrees` says how: the two lists of numbers are those
of the calls in certain phases, each in increasing order, and the two counters count phases.

Calls never change their numbers and new ones get the next, so a list of calls stays in increasing
order.  With that an event touches one number of each list and one summand of each counter, and the
agreement is kept by what it does to these (`Agrees.replace`, `Agrees.remove`).
-/

namespace Automation

/-! ## Lists of numbers -/

namespace Ledger

@[simp] theorem mem_add {seq n : Nat} {seqs : List Nat} :
    n ∈ add seq seqs ↔ n = seq ∨ n ∈ seqs := by
  rw [add]
  split
  · next h =>
    have hmem : seq ∈ seqs := List.contains_iff_mem.mp h
    refine ⟨Or.inr, ?_⟩
    rintro (rfl | hn)
    · exact hmem
    · exact hn
  · rw [(perm_insertBy _ _ _).mem_iff, List.mem_cons]

/-- Adding a number keeps a list in increasing order. -/
theorem sorted_add {seq : Nat} {seqs : List Nat} (h : seqs.Pairwise (· < ·)) :
    (add seq seqs).Pairwise (· < ·) := by
  rw [add]
  split
  · exact h
  · next hnew =>
    have hnot : seq ∉ seqs := fun hmem => hnew (List.contains_iff_mem.mpr hmem)
    have hweak : (insertBy (fun n : Nat => (n : Int)) seq seqs).Pairwise
        fun (a b : Nat) => (a : Int) ≤ b :=
      sorted_insertBy (h.imp fun hlt => by omega)
    have hnodup : (insertBy (fun n : Nat => (n : Int)) seq seqs).Nodup :=
      (perm_insertBy _ _ _).nodup_iff.mpr
        (List.nodup_cons.mpr ⟨hnot, h.imp fun hlt => Nat.ne_of_lt hlt⟩)
    refine (hweak.and hnodup).imp fun hle => ?_
    omega

theorem mem_erase {seq n : Nat} {seqs : List Nat} (h : seqs.Pairwise (· < ·)) :
    n ∈ seqs.erase seq ↔ n ≠ seq ∧ n ∈ seqs :=
  List.Nodup.mem_erase_iff (h.imp fun hlt => Nat.ne_of_lt hlt)

theorem sorted_erase {seq : Nat} {seqs : List Nat} (h : seqs.Pairwise (· < ·)) :
    (seqs.erase seq).Pairwise (· < ·) := h.sublist List.erase_sublist

/-- In an increasing list the first number is the smallest. -/
theorem le_of_head? {seqs : List Nat} (h : seqs.Pairwise (· < ·)) {seq : Nat}
    (hhead : seqs.head? = some seq) : ∀ n ∈ seqs, seq ≤ n := by
  cases seqs with
  | nil => cases hhead
  | cons first rest =>
    cases hhead
    intro n hn
    rcases List.mem_cons.mp hn with rfl | hn
    · exact le_rfl
    · exact (List.rel_of_pairwise_cons h hn).le

end Ledger

/-! ## Agreement -/

/-- Whether a call stands in the list of those that have started. -/
def CallPhase.isStarted : CallPhase → Bool
  | .executing | .finished => true
  | .waiting | .asleep => false

/-- The ledger says of the calls what it should. -/
structure Ledger.Agrees (l : Ledger) (calls : List Call) : Prop where
  ascending : (calls.map (·.seq)).Pairwise (· < ·)
  lt_nextSeq : ∀ c ∈ calls, c.seq < l.nextSeq
  sorted_waiting : l.waiting.Pairwise (· < ·)
  mem_waiting : ∀ n, n ∈ l.waiting ↔ ∃ c ∈ calls, c.seq = n ∧ c.phase = .waiting
  sorted_started : l.started.Pairwise (· < ·)
  mem_started : ∀ n, n ∈ l.started ↔ ∃ c ∈ calls, c.seq = n ∧ c.phase.isStarted = true
  executing : l.executing = calls.countP fun c => c.phase = .executing
  pendingResults : l.pendingResults = calls.countP fun c => c.phase = .finished

namespace Queue

variable {q : Queue} {c c' : Call}

theorem mem_withCall (hc : c ∈ q.calls) (hseq : c'.seq = c.seq) {d : Call} :
    d ∈ q.withCall c' ↔ d = c' ∨ d ∈ q.calls ∧ d.seq ≠ c.seq := by
  rw [withCall, List.mem_map, hseq]
  constructor
  · rintro ⟨d₀, hd₀, rfl⟩
    split
    · exact Or.inl rfl
    · next hne => exact Or.inr ⟨hd₀, hne⟩
  · rintro (rfl | ⟨hd, hne⟩)
    · exact ⟨c, hc, if_pos rfl⟩
    · exact ⟨d, hd, if_neg hne⟩

theorem mem_withoutCall {seq : Nat} {d : Call} :
    d ∈ q.withoutCall seq ↔ d ∈ q.calls ∧ d.seq ≠ seq := by
  rw [withoutCall, List.mem_filter, decide_eq_true_eq]

theorem map_seq_withCall (q : Queue) (c' : Call) :
    (q.withCall c').map (·.seq) = q.calls.map (·.seq) := by
  rw [withCall, List.map_map]
  refine List.map_congr_left fun d _ => ?_
  show (if d.seq = c'.seq then c' else d).seq = d.seq
  split
  · next h => exact h.symm
  · rfl

/-- Among calls with different numbers each has its own place. -/
theorem exists_split (h : (q.calls.map (·.seq)).Pairwise (· < ·)) (hc : c ∈ q.calls) :
    ∃ before after, q.calls = before ++ c :: after ∧
      (∀ c' : Call, c'.seq = c.seq → q.withCall c' = before ++ c' :: after) ∧
      q.withoutCall c.seq = before ++ after := by
  obtain ⟨before, after, hsplit⟩ := List.append_of_mem hc
  rw [hsplit, List.map_append, List.map_cons, List.pairwise_append, List.pairwise_cons] at h
  obtain ⟨-, ⟨hafter, -⟩, hbefore⟩ := h
  have hne : ∀ d, d ∈ before ∨ d ∈ after → d.seq ≠ c.seq := by
    rintro d (hd | hd)
    · exact (hbefore _ (List.mem_map_of_mem hd) _ List.mem_cons_self).ne
    · exact (hafter _ (List.mem_map_of_mem hd)).ne'
  refine ⟨before, after, hsplit, fun c' hseq => ?_, ?_⟩
  · have hsame : ∀ ds : List Call, (∀ d ∈ ds, d.seq ≠ c.seq) →
        ds.map (fun d => if d.seq = c'.seq then c' else d) = ds := by
      intro ds hds
      rw [hseq]
      exact (List.map_congr_left fun d hd => if_neg (hds d hd)).trans (List.map_id' ds)
    rw [withCall, hsplit, List.map_append, List.map_cons, if_pos hseq.symm,
      hsame before fun d hd => hne d (Or.inl hd), hsame after fun d hd => hne d (Or.inr hd)]
  · have hsame : ∀ ds : List Call, (∀ d ∈ ds, d.seq ≠ c.seq) →
        ds.filter (fun d => d.seq ≠ c.seq) = ds := by
      intro ds hds
      rw [List.filter_eq_self]
      exact fun d hd => decide_eq_true (hds d hd)
    rw [withoutCall, hsplit, List.filter_append, List.filter_cons_of_neg (by simp),
      hsame before fun d hd => hne d (Or.inl hd), hsame after fun d hd => hne d (Or.inr hd)]

end Queue

namespace Ledger.Agrees

variable {q : Queue} {c c' : Call} {l : Ledger}

theorem empty : Ledger.empty.Agrees [] where
  ascending := List.Pairwise.nil
  lt_nextSeq _ hc := absurd hc List.not_mem_nil
  sorted_waiting := List.Pairwise.nil
  mem_waiting _ :=
    ⟨fun h => absurd h List.not_mem_nil, fun ⟨_, hc, _⟩ => absurd hc List.not_mem_nil⟩
  sorted_started := List.Pairwise.nil
  mem_started _ :=
    ⟨fun h => absurd h List.not_mem_nil, fun ⟨_, hc, _⟩ => absurd hc List.not_mem_nil⟩
  executing := rfl
  pendingResults := rfl

/-- Calls are told apart by their numbers. -/
theorem eq_of_seq_eq {calls : List Call} (h : l.Agrees calls) {d : Call} (hc : c ∈ calls)
    (hd : d ∈ calls) (hseq : d.seq = c.seq) : d = c :=
  List.inj_on_of_nodup_map (h.ascending.imp fun hlt => Nat.ne_of_lt hlt) hd hc hseq

/-- A call changes its phase, and the ledger changes what it says of that number. -/
theorem replace (h : q.ledger.Agrees q.calls) (hc : c ∈ q.calls) (hseq : c'.seq = c.seq)
    (hnext : l.nextSeq = q.ledger.nextSeq) (hsorted : l.waiting.Pairwise (· < ·))
    (hwaits : c.seq ∈ l.waiting ↔ c'.phase = .waiting)
    (hwaiting : ∀ n, n ≠ c.seq → (n ∈ l.waiting ↔ n ∈ q.ledger.waiting))
    (hsorted' : l.started.Pairwise (· < ·))
    (hstarts : c.seq ∈ l.started ↔ c'.phase.isStarted = true)
    (hstarted : ∀ n, n ≠ c.seq → (n ∈ l.started ↔ n ∈ q.ledger.started))
    (hexecuting : l.executing + (if c.phase = .executing then 1 else 0) =
      q.ledger.executing + if c'.phase = .executing then 1 else 0)
    (hpending : l.pendingResults + (if c.phase = .finished then 1 else 0) =
      q.ledger.pendingResults + if c'.phase = .finished then 1 else 0) :
    l.Agrees (q.withCall c') := by
  obtain ⟨before, after, hsplit, hwith, -⟩ := Queue.exists_split h.ascending hc
  have hmem : ∀ (n : Nat) (p : CallPhase → Prop), (∃ d ∈ q.withCall c', d.seq = n ∧ p d.phase) ↔
      n = c.seq ∧ p c'.phase ∨ n ≠ c.seq ∧ ∃ d ∈ q.calls, d.seq = n ∧ p d.phase := by
    intro n p
    simp only [Queue.mem_withCall hc hseq]
    constructor
    · rintro ⟨d, rfl | ⟨hd, hne⟩, rfl, hp⟩
      · exact Or.inl ⟨hseq, hp⟩
      · exact Or.inr ⟨hne, d, hd, rfl, hp⟩
    · rintro (⟨rfl, hp⟩ | ⟨hne, d, hd, rfl, hp⟩)
      · exact ⟨c', Or.inl rfl, hseq, hp⟩
      · exact ⟨d, Or.inr ⟨hd, hne⟩, rfl, hp⟩
  refine ⟨?_, ?_, hsorted, fun n => ?_, hsorted', fun n => ?_, ?_, ?_⟩
  · rw [Queue.map_seq_withCall]
    exact h.ascending
  · intro d hd
    rw [hnext]
    rcases (Queue.mem_withCall hc hseq).mp hd with rfl | ⟨hd, -⟩
    · rw [hseq]
      exact h.lt_nextSeq c hc
    · exact h.lt_nextSeq d hd
  · rw [hmem n fun p => p = .waiting, ← h.mem_waiting]
    by_cases hn : n = c.seq
    · simpa [hn] using hwaits
    · simpa [hn] using hwaiting n hn
  · rw [hmem n fun p => p.isStarted = true, ← h.mem_started]
    by_cases hn : n = c.seq
    · simpa [hn] using hstarts
    · simpa [hn] using hstarted n hn
  · have hcount := h.executing
    rw [hsplit, List.countP_append, List.countP_cons] at hcount
    rw [hwith c' hseq, List.countP_append, List.countP_cons]
    simp only [decide_eq_true_eq] at hcount ⊢
    omega
  · have hcount := h.pendingResults
    rw [hsplit, List.countP_append, List.countP_cons] at hcount
    rw [hwith c' hseq, List.countP_append, List.countP_cons]
    simp only [decide_eq_true_eq] at hcount ⊢
    omega

/-- A call goes, and the ledger forgets its number. -/
theorem remove (h : q.ledger.Agrees q.calls) (hc : c ∈ q.calls) :
    (q.ledger.release c.seq c.phase).Agrees (q.withoutCall c.seq) := by
  obtain ⟨before, after, hsplit, -, hwithout⟩ := Queue.exists_split h.ascending hc
  have hmem : ∀ (n : Nat) (p : CallPhase → Prop),
      (∃ d ∈ q.withoutCall c.seq, d.seq = n ∧ p d.phase) ↔
        n ≠ c.seq ∧ ∃ d ∈ q.calls, d.seq = n ∧ p d.phase := by
    intro n p
    simp only [Queue.mem_withoutCall]
    constructor
    · rintro ⟨d, ⟨hd, hne⟩, rfl, hp⟩
      exact ⟨hne, d, hd, rfl, hp⟩
    · rintro ⟨hne, d, hd, rfl, hp⟩
      exact ⟨d, ⟨hd, hne⟩, rfl, hp⟩
  refine ⟨?_, ?_, sorted_erase h.sorted_waiting, fun n => ?_, sorted_erase h.sorted_started,
    fun n => ?_, ?_, ?_⟩
  · exact h.ascending.sublist (List.filter_sublist.map _)
  · intro d hd
    exact h.lt_nextSeq d (Queue.mem_withoutCall.mp hd).1
  · rw [hmem n fun p => p = .waiting, ← h.mem_waiting]
    exact mem_erase h.sorted_waiting
  · rw [hmem n fun p => p.isStarted = true, ← h.mem_started]
    exact mem_erase h.sorted_started
  · have hcount := h.executing
    rw [hsplit, List.countP_append, List.countP_cons] at hcount
    rw [hwithout, List.countP_append]
    simp only [decide_eq_true_eq] at hcount
    show (if c.phase = .executing then q.ledger.executing - 1 else q.ledger.executing) = _
    split_ifs at hcount ⊢ <;> omega
  · have hcount := h.pendingResults
    rw [hsplit, List.countP_append, List.countP_cons] at hcount
    rw [hwithout, List.countP_append]
    simp only [decide_eq_true_eq] at hcount
    show (if c.phase = .finished then q.ledger.pendingResults - 1 else q.ledger.pendingResults) = _
    split_ifs at hcount ⊢ <;> omega

/-- A new call waits under the next number. -/
theorem submit (h : q.ledger.Agrees q.calls) : q.submit.2.ledger.Agrees q.submit.2.calls := by
  have hfresh : ∀ d ∈ q.calls, d.seq ≠ q.ledger.nextSeq := fun d hd => (h.lt_nextSeq d hd).ne
  have hmem : ∀ (n : Nat) (p : CallPhase → Prop),
      (∃ d ∈ q.submit.2.calls, d.seq = n ∧ p d.phase) ↔
        n = q.ledger.nextSeq ∧ p .waiting ∨ ∃ d ∈ q.calls, d.seq = n ∧ p d.phase := by
    intro n p
    simp only [Queue.submit, List.mem_append, List.mem_singleton]
    constructor
    · rintro ⟨d, hd | rfl, rfl, hp⟩
      · exact Or.inr ⟨d, hd, rfl, hp⟩
      · exact Or.inl ⟨rfl, hp⟩
    · rintro (⟨rfl, hp⟩ | ⟨d, hd, rfl, hp⟩)
      · exact ⟨_, Or.inr rfl, rfl, hp⟩
      · exact ⟨d, Or.inl hd, rfl, hp⟩
  refine ⟨?_, ?_, sorted_add h.sorted_waiting, fun n => ?_, h.sorted_started, fun n => ?_, ?_, ?_⟩
  · rw [Queue.submit, List.map_append, List.pairwise_append]
    refine ⟨h.ascending, List.pairwise_singleton _ _, ?_⟩
    intro a ha b hb
    obtain ⟨d, hd, rfl⟩ := List.mem_map.mp ha
    rw [List.mem_singleton.mp hb]
    exact h.lt_nextSeq d hd
  · intro d hd
    rw [Queue.submit, List.mem_append, List.mem_singleton] at hd
    show d.seq < q.ledger.nextSeq + 1
    rcases hd with hd | rfl
    · exact (h.lt_nextSeq d hd).trans (Nat.lt_succ_self _)
    · exact Nat.lt_succ_self _
  · rw [hmem n fun p => p = .waiting, ← h.mem_waiting]
    show n ∈ add q.ledger.nextSeq q.ledger.waiting ↔ _
    rw [mem_add, and_iff_left rfl]
  · rw [hmem n fun p => p.isStarted = true, ← h.mem_started]
    refine ⟨Or.inr, ?_⟩
    rintro (⟨-, hp⟩ | hn)
    · cases hp
    · exact hn
  · rw [Queue.submit, List.countP_append]
    exact h.executing
  · rw [Queue.submit, List.countP_append]
    exact h.pendingResults

/-- Every change of phase keeps the agreement. -/
theorem moves (h : q.ledger.Agrees q.calls) (hc : c ∈ q.calls) {e : Queue.Event}
    (hmoves : q.Moves e c c' l) : l.Agrees (q.withCall c') := by
  have hwaits : c.seq ∈ q.ledger.waiting ↔ c.phase = .waiting := by
    rw [h.mem_waiting]
    exact ⟨fun ⟨d, hd, hseq, hp⟩ => h.eq_of_seq_eq hc hd hseq ▸ hp, fun hp => ⟨c, hc, rfl, hp⟩⟩
  have hstarts : c.seq ∈ q.ledger.started ↔ c.phase.isStarted = true := by
    rw [h.mem_started]
    exact ⟨fun ⟨d, hd, hseq, hp⟩ => h.eq_of_seq_eq hc hd hseq ▸ hp, fun hp => ⟨c, hc, rfl, hp⟩⟩
  have hruns : c.phase = .executing → 0 < q.ledger.executing := by
    intro hphase
    rw [h.executing, List.countP_pos_iff]
    exact ⟨c, hc, decide_eq_true hphase⟩
  cases hmoves with
  | start hphase hgate =>
    refine h.replace hc rfl rfl (sorted_erase h.sorted_waiting) ?_ ?_ (sorted_add h.sorted_started)
      ?_ ?_ ?_ ?_
    · simp [start, mem_erase h.sorted_waiting]
    · intro n hn
      simp [start, mem_erase h.sorted_waiting, hn]
    · simp [start, CallPhase.isStarted]
    · intro n hn
      simp [start, hn]
    · simp [start, hphase]
    · simp [start, hphase]
  | hold hphase =>
    have hpos := hruns hphase
    refine h.replace hc rfl rfl h.sorted_waiting ?_ (fun n _ => Iff.rfl) h.sorted_started ?_
      (fun n _ => Iff.rfl) ?_ ?_
    · rw [hphase] at hwaits
      exact hwaits.trans (by simp)
    · rw [hphase] at hstarts
      exact hstarts
    · simp only [holdResult, endAttempt, hphase]
      simp
      omega
    · simp [holdResult, endAttempt, hphase]
  | rest hphase hretried =>
    have hpos := hruns hphase
    refine h.replace hc rfl rfl h.sorted_waiting ?_ (fun n _ => Iff.rfl)
      (sorted_erase h.sorted_started) ?_ ?_ ?_ ?_
    · rw [hphase] at hwaits
      exact hwaits.trans (by simp)
    · simp [suspend, endAttempt, mem_erase h.sorted_started, CallPhase.isStarted]
    · intro n hn
      simp [suspend, endAttempt, mem_erase h.sorted_started, hn]
    · simp only [suspend, endAttempt, hphase]
      simp
      omega
    · simp [suspend, endAttempt, hphase]
  | wake hphase =>
    refine h.replace hc rfl rfl (sorted_add h.sorted_waiting) ?_ ?_ h.sorted_started ?_
      (fun n _ => Iff.rfl) ?_ ?_
    · simp [requeue]
    · intro n hn
      simp [requeue, hn]
    · rw [hphase] at hstarts
      exact hstarts
    · simp [requeue, hphase]
    · simp [requeue, hphase]

end Ledger.Agrees

/-! ## The invariant of a queue -/

namespace Queue

/-- What holds of a queue at every point of every run: the ledger agrees with the calls, whatever
does not wait has started, and calls start for the first time in the order of their numbers. -/
structure Sound (q : Queue) : Prop where
  agrees : q.ledger.Agrees q.calls
  started : ∀ c ∈ q.calls, c.phase ≠ .waiting → 0 < c.starts
  inOrder : ∀ c ∈ q.calls, ∀ d ∈ q.calls, c.starts = 0 → 0 < d.starts → d.seq < c.seq

theorem sound_empty (config : QueueConfig) : (empty config).Sound where
  agrees := .empty
  started _ hc := absurd hc List.not_mem_nil
  inOrder _ hc := absurd hc List.not_mem_nil

/-- A live call is found by its number. -/
theorem Sound.call?_eq_some {q : Queue} (h : q.Sound) {c : Call} (hc : c ∈ q.calls) :
    q.call? c.seq = some c := by
  have hsome : (q.call? c.seq).isSome = true := by
    rw [call?, List.find?_isSome]
    exact ⟨c, hc, decide_eq_true rfl⟩
  obtain ⟨d, hd⟩ := Option.isSome_iff_exists.mp hsome
  obtain ⟨hmem, hseq⟩ := mem_of_call? hd
  rw [hd, h.agrees.eq_of_seq_eq hc hmem hseq]

/-- A call that starts has the smallest number of all that wait. -/
theorem Sound.le_of_canStart {q : Queue} (h : q.Sound) {seq : Nat}
    (hgate : q.ledger.canStart q.config seq = true) :
    ∀ d ∈ q.calls, d.phase = .waiting → seq ≤ d.seq := by
  rw [Ledger.canStart, Bool.and_eq_true, Bool.and_eq_true, decide_eq_true_eq] at hgate
  intro d hd hwaits
  exact Ledger.le_of_head? h.agrees.sorted_waiting hgate.1.1 d.seq
    ((h.agrees.mem_waiting _).mpr ⟨d, hd, rfl, hwaits⟩)

/-- Every event keeps the invariant. -/
theorem Sound.step {q q' : Queue} {e : Event} (h : q.Sound) (hstep : q.step? e = some q') :
    q'.Sound := by
  rcases step?_cases hstep with ⟨-, rfl⟩ | ⟨-, rfl⟩ | ⟨c, hc, -, rfl⟩ | ⟨c, hc, c', l, hmoves, rfl⟩
  · -- a new call has not started, and its number is the largest
    refine ⟨h.agrees.submit, ?_, ?_⟩
    · intro d hd hphase
      rw [submit, List.mem_append, List.mem_singleton] at hd
      rcases hd with hd | rfl
      · exact h.started d hd hphase
      · exact absurd rfl hphase
    · intro a ha b hb hnever hstarted
      rw [submit, List.mem_append, List.mem_singleton] at ha hb
      rcases hb with hb | rfl
      · rcases ha with ha | rfl
        · exact h.inOrder a ha b hb hnever hstarted
        · exact h.agrees.lt_nextSeq b hb
      · exact absurd hstarted (lt_irrefl 0)
  · exact ⟨h.agrees, h.started, h.inOrder⟩
  · refine ⟨h.agrees.remove hc, ?_, ?_⟩
    · intro d hd
      exact h.started d (mem_withoutCall.mp hd).1
    · intro a ha b hb
      exact h.inOrder a (mem_withoutCall.mp ha).1 b (mem_withoutCall.mp hb).1
  · have hstarted : 0 < c'.starts := by
      cases hmoves with
      | start => exact Nat.succ_pos _
      | hold hphase => exact h.started c hc (by rw [hphase]; decide)
      | rest hphase => exact h.started c hc (by rw [hphase]; decide)
      | wake hphase => exact h.started c hc (by rw [hphase]; decide)
    refine ⟨h.agrees.moves hc hmoves, ?_, ?_⟩
    · intro d hd hphase
      rcases (mem_withCall hc hmoves.seq_eq).mp hd with rfl | ⟨hd, -⟩
      · exact hstarted
      · exact h.started d hd hphase
    · intro a ha b hb hnever hstarted'
      rcases (mem_withCall hc hmoves.seq_eq).mp ha with rfl | ⟨ha', hne⟩
      · omega
      rcases (mem_withCall hc hmoves.seq_eq).mp hb with rfl | ⟨hb', -⟩
      · -- the call that has changed may have started just now, and then it was the first that waited
        rw [hmoves.seq_eq]
        cases hmoves with
        | start hphase hgate =>
          have hwaits : a.phase = .waiting := by
            by_contra hnot
            exact absurd (h.started a ha' hnot) (by omega)
          exact lt_of_le_of_ne (h.le_of_canStart hgate a ha' hwaits) (Ne.symm hne)
        | hold => exact h.inOrder a ha' c hc hnever hstarted
        | rest => exact h.inOrder a ha' c hc hnever hstarted
        | wake => exact h.inOrder a ha' c hc hnever hstarted
      · exact h.inOrder a ha' b hb' hnever hstarted'

end Queue
end Automation
