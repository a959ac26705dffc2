import Automation.Proofs.Dispatch.Gates
import Mathlib.Logic.Function.Basic

/-!
# No wake-up is lost

A call that waits at a gate does not look at it all the time.  It takes note of the version of the
queue, tries the gate, and if that is shut it parks until the version is another one.  Between any
two of these steps other calls may do whatever they can, so a gate may open after a call has tried
it and before it parks.  That is noticed all the same, because the version is noted before the try
and compared afterwards: a call that has parked at the present version has found its gate shut, and
nothing has changed since (`Watched.Attentive`).

## Acts

Whoever passes a gate does so by a try (`Act.attempt`), so starting and handing back are no events
that happen by themselves.  All other events do.  Each changes the version, except the cancellation:
that reaches the calls in another way, and opens no gate.  What a call does between two waits is one
event, and a call that arrives at a gate has taken note of nothing.

Who acts next is open.  A queue has settled when no call has a step of its own left to take at a
gate, and then every gate is shut for everybody (`Watched.shut_of_isSettled`).
-/

namespace Automation
namespace Queue

/-- Whether an event is the passage of a gate. -/
def Event.isPassage : Event → Bool
  | .start _ | .deliver _ => true
  | .submit | .endAttempt _ _ | .wake _ | .abandon _ | .cancel | .endCancelled _ => false

/-- How far a call has come at the gate at which it waits. -/
inductive Stance where
  | fresh
  /-- It has taken note of a version and is going to try the gate. -/
  | trying (seen : Nat)
  /-- It has tried in vain, and is woken when the version is no longer the one it noted. -/
  | parked (seen : Nat)
  deriving DecidableEq, Repr

/-- A queue, its version, and how far each call has come. -/
structure Watched where
  queue : Queue
  version : Nat
  stance : Nat → Stance

/-- What can be done to a queue that is watched. -/
inductive Act where
  | happen (e : Event)
  | note (seq : Nat)
  | attempt (seq : Nat)
  deriving DecidableEq, Repr

namespace Watched

/-- A watched queue without calls. -/
def empty (config : QueueConfig) : Watched := ⟨.empty config, 0, fun _ => .fresh⟩

/-- Whether there is a call with a number that waits at a gate. -/
def isAtGate (w : Watched) (seq : Nat) : Bool :=
  (w.queue.call? seq).any fun c => c.phase.isAtGate

/-- A call comes to another point. -/
def withStance (w : Watched) (seq : Nat) (s : Stance) : Watched :=
  { w with stance := Function.update w.stance seq s }

/-- Something happens at no gate. -/
def happen? (w : Watched) (e : Event) : Option Watched :=
  if e.isPassage then none
  else (w.queue.step? e).map fun q =>
    { w with queue := q, version := if e = .cancel then w.version else w.version + 1 }

/-- A call that has arrived or is woken takes note of the version. -/
def note? (w : Watched) (seq : Nat) : Option Watched :=
  if w.isAtGate seq then
    match w.stance seq with
    | .fresh => some (w.withStance seq (.trying w.version))
    | .trying _ => none
    | .parked seen => if seen = w.version then none else some (w.withStance seq (.trying w.version))
  else none

/-- A call tries its gate, and passes or parks. -/
def attempt? (w : Watched) (seq : Nat) : Option Watched :=
  if w.isAtGate seq then
    match w.stance seq with
    | .trying seen =>
      match w.queue.pass? seq with
      | some q => some ⟨q, w.version + 1, Function.update w.stance seq .fresh⟩
      | none => some (w.withStance seq (.parked seen))
    | .fresh | .parked _ => none
  else none

/-- What is there after an act, if it can be done. -/
def act? (w : Watched) : Act → Option Watched
  | .happen e => w.happen? e
  | .note seq => w.note? seq
  | .attempt seq => w.attempt? seq

/-- What is there after some acts, if they can be done one after another. -/
def acts? (w : Watched) (as : List Act) : Option Watched := as.foldlM act? w

/-- No wake-up is outstanding: no call has anything left to do at a gate. -/
def IsSettled (w : Watched) : Prop := ∀ seq, w.note? seq = none ∧ w.attempt? seq = none

variable {w w' : Watched} {a : Act}

theorem stance_withStance_self (w : Watched) (seq : Nat) (s : Stance) :
    (w.withStance seq s).stance seq = s :=
  Function.update_self ..

theorem stance_withStance_of_ne {n seq : Nat} (h : n ≠ seq) (s : Stance) :
    (w.withStance seq s).stance n = w.stance n :=
  Function.update_of_ne h ..

/-! ## What an act does -/

/-- An act is an event with a new version, or the cancellation, or it changes nothing but how far a
call has come: it has noted the present version, or found its gate shut. -/
theorem act?_cases (h : w.act? a = some w') :
    (∃ e q, w.queue.step? e = some q ∧ w'.queue = q ∧ w'.version = w.version + 1 ∧
        ∀ seq, w'.stance seq = w.stance seq ∨ w'.stance seq = .fresh) ∨
      w' = { w with queue := w.queue.cancel } ∨
      (∃ seq, w' = w.withStance seq (.trying w.version)) ∨
      ∃ seq seen, w.stance seq = .trying seen ∧ w.queue.pass? seq = none ∧
        w' = w.withStance seq (.parked seen) := by
  cases a with
  | happen e =>
    rw [act?, happen?] at h
    split at h
    · cases h
    · obtain ⟨q, hq, rfl⟩ := Option.map_eq_some_iff.mp h
      by_cases hcancel : e = .cancel
      · subst hcancel
        cases hq
        exact Or.inr (Or.inl rfl)
      · exact Or.inl ⟨e, q, hq, rfl, if_neg hcancel, fun _ => Or.inl rfl⟩
  | note seq =>
    have hnotes : w' = w.withStance seq (.trying w.version) := by
      rw [act?, note?] at h
      split_ifs at h
      cases hstance : w.stance seq with
      | fresh =>
        rw [hstance] at h
        exact (Option.some.inj h).symm
      | trying =>
        rw [hstance] at h
        cases h
      | parked seen =>
        rw [hstance] at h
        dsimp only at h
        split_ifs at h
        exact (Option.some.inj h).symm
    exact Or.inr (Or.inr (Or.inl ⟨seq, hnotes⟩))
  | attempt seq =>
    rw [act?, attempt?] at h
    split_ifs at h
    cases hstance : w.stance seq with
    | fresh =>
      rw [hstance] at h
      cases h
    | parked =>
      rw [hstance] at h
      cases h
    | trying seen =>
      rw [hstance] at h
      cases hpass : w.queue.pass? seq with
      | none =>
        rw [hpass] at h
        exact Or.inr (Or.inr (Or.inr ⟨seq, seen, hstance, hpass, (Option.some.inj h).symm⟩))
      | some q =>
        rw [hpass] at h
        cases h
        have hfresh : ∀ n, Function.update w.stance seq .fresh n = w.stance n ∨
            Function.update w.stance seq .fresh n = .fresh := by
          intro n
          rcases eq_or_ne n seq with rfl | hne
          · exact Or.inr (Function.update_self ..)
          · exact Or.inl (Function.update_of_ne hne ..)
        rcases step?_of_pass? hpass with hstep | hstep
        · exact Or.inl ⟨_, q, hstep, rfl, rfl, hfresh⟩
        · exact Or.inl ⟨_, q, hstep, rfl, rfl, hfresh⟩

/-- Acts are runs of the queue, with noting and trying in vain left out. -/
theorem run?_of_acts? {as : List Act} (h : w.acts? as = some w') :
    ∃ es, w.queue.run? es = some w'.queue := by
  induction as generalizing w with
  | nil =>
    cases h
    exact ⟨[], rfl⟩
  | cons a rest ih =>
    rw [acts?, List.foldlM_cons] at h
    obtain ⟨v, hv, hrest⟩ := Option.bind_eq_some_iff.mp h
    obtain ⟨es, hes⟩ := ih hrest
    have hevent : ∀ e, w.queue.step? e = some v.queue →
        ∃ es, w.queue.run? es = some w'.queue := by
      intro e he
      refine ⟨e :: es, ?_⟩
      rw [run?, List.foldlM_cons, he]
      exact hes
    rcases act?_cases hv with ⟨e, q, he, rfl, -⟩ | rfl | ⟨seq, rfl⟩ | ⟨seq, seen, -, -, rfl⟩
    · exact hevent e he
    · exact hevent .cancel rfl
    · exact ⟨es, hes⟩
    · exact ⟨es, hes⟩

/-! ## Attention -/

/-- Nobody has noted a version that is still to come, and whoever has parked at the present one
waits at a gate that is shut. -/
structure Attentive (w : Watched) : Prop where
  seen_le : ∀ seq seen, w.stance seq = .trying seen ∨ w.stance seq = .parked seen →
    seen ≤ w.version
  shut : ∀ seq, w.stance seq = .parked w.version → w.queue.pass? seq = none

theorem attentive_empty (config : QueueConfig) : (empty config).Attentive where
  seen_le _ _ h := by rcases h with h | h <;> cases h
  shut _ h := by cases h

/-- A new version wakes everybody. -/
theorem Attentive.renew (h : w.Attentive) (hversion : w'.version = w.version + 1)
    (hstance : ∀ seq, w'.stance seq = w.stance seq ∨ w'.stance seq = .fresh) : w'.Attentive := by
  have hold : ∀ seq seen, w'.stance seq = .trying seen ∨ w'.stance seq = .parked seen →
      seen ≤ w.version := by
    intro seq seen hseen
    rcases hstance seq with hsame | hfresh
    · rw [hsame] at hseen
      exact h.seen_le seq seen hseen
    · rw [hfresh] at hseen
      rcases hseen with hseen | hseen <;> cases hseen
  refine ⟨fun seq seen hseen => ?_, fun seq hparked => ?_⟩
  · rw [hversion]
    exact (hold seq seen hseen).trans (Nat.le_succ _)
  · have hle := hold seq _ (Or.inr hparked)
    omega

theorem Attentive.withStance (h : w.Attentive) {seq : Nat} {s : Stance}
    (hseen : ∀ seen, s = .trying seen ∨ s = .parked seen → seen ≤ w.version)
    (hshut : s = .parked w.version → w.queue.pass? seq = none) : (w.withStance seq s).Attentive := by
  constructor
  · intro n seen hn
    rcases eq_or_ne n seq with rfl | hne
    · rw [stance_withStance_self] at hn
      exact hseen seen hn
    · rw [stance_withStance_of_ne hne] at hn
      exact h.seen_le n seen hn
  · intro n hn
    rcases eq_or_ne n seq with rfl | hne
    · rw [stance_withStance_self] at hn
      exact hshut hn
    · rw [stance_withStance_of_ne hne] at hn
      exact h.shut n hn

/-- Every act keeps the attention. -/
theorem Attentive.act (h : w.Attentive) (hact : w.act? a = some w') : w'.Attentive := by
  rcases act?_cases hact with
    ⟨e, q, -, -, hversion, hstance⟩ | rfl | ⟨seq, rfl⟩ | ⟨seq, seen, htrying, hshut, rfl⟩
  · exact h.renew hversion hstance
  · refine ⟨h.seen_le, fun seq hparked => ?_⟩
    rw [pass?_cancel, h.shut seq hparked]
    rfl
  · refine h.withStance (fun seen hseen => ?_) fun hparked => by cases hparked
    rcases hseen with hseen | hseen
    · cases hseen
      exact le_rfl
    · cases hseen
  · refine h.withStance (fun n hn => ?_) fun _ => hshut
    rcases hn with hn | hn
    · cases hn
    · cases hn
      exact h.seen_le seq seen (Or.inl htrying)

theorem Attentive.acts {as : List Act} (h : w.Attentive) (hacts : w.acts? as = some w') :
    w'.Attentive := by
  induction as generalizing w with
  | nil =>
    cases hacts
    exact h
  | cons a rest ih =>
    rw [acts?, List.foldlM_cons] at hacts
    obtain ⟨v, hv, hrest⟩ := Option.bind_eq_some_iff.mp hacts
    exact ih (h.act hv) hrest

/-! ## Settled queues -/

/-- Where nothing is left to do at the gates, whoever waits has parked at the present version. -/
theorem IsSettled.parked (h : w.IsSettled) {seq : Nat} (hgate : w.isAtGate seq = true) :
    w.stance seq = .parked w.version := by
  obtain ⟨hnote, hattempt⟩ := h seq
  rw [note?, if_pos hgate] at hnote
  rw [attempt?, if_pos hgate] at hattempt
  cases hstance : w.stance seq with
  | fresh =>
    rw [hstance] at hnote
    cases hnote
  | trying seen =>
    rw [hstance] at hattempt
    dsimp only at hattempt
    split at hattempt <;> cases hattempt
  | parked seen =>
    rw [hstance] at hnote
    dsimp only at hnote
    split at hnote
    · next hsame => rw [hsame]
    · cases hnote

/-- **No wake-up is lost.**  When a watched queue has settled, no call could start or return. -/
theorem shut_of_isSettled {config : QueueConfig} {as : List Act}
    (h : (empty config).acts? as = some w) (hsettled : w.IsSettled) (seq : Nat) :
    w.queue.pass? seq = none := by
  have hattentive := (attentive_empty config).acts h
  obtain ⟨es, hes⟩ := run?_of_acts? h
  have hsound := sound_of_run? hes
  rw [hsound.pass?_eq_none_iff]
  rintro c hc rfl hopen
  have hgate : w.isAtGate c.seq = true := by
    rw [isAtGate, hsound.call?_eq_some hc]
    exact hopen.isAtGate
  exact hsound.pass?_of_isOpenFor hc hopen (hattentive.shut _ (hsettled.parked hgate))

end Watched
end Queue
end Automation
