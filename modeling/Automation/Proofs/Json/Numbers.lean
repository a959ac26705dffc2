import Automation.Json.Reader
import Automation.Proofs.Number.Sums

/-!
# The numbers of a text are finite

A text has digits for its numbers and nothing else, and a number beyond every double is unreadable.
So whatever is decoded from a text, no double in it is infinite and none is not a number.

The reader is a machine with a stack of open containers, so the invariant is one of stacks:
everything that is complete in a container has finite numbers.  A character completes a value with
finite numbers or leaves what is complete as it is (`Reader.State.IsFinite.step`).
-/

namespace Automation
namespace Json

/-- A draft in which every number is finite. -/
inductive Draft.IsFinite : Draft → Prop where
  | null : IsFinite .null
  | bool (b : Bool) : IsFinite (.bool b)
  | int {n : Int} (h : fits n = true) : IsFinite (.int n)
  | float {x : Binary64} (h : x.isFinite = true) : IsFinite (.float x)
  | str (s : String) : IsFinite (.str s)
  | arr {items : List Draft} (h : ∀ d ∈ items, IsFinite d) : IsFinite (.arr items)
  | obj {members : List (String × Draft)} (h : ∀ m ∈ members, IsFinite m.2) : IsFinite (.obj members)
  | unreadable : IsFinite .unreadable

namespace Reader

/-- What is complete in a container has finite numbers. -/
def Frame.IsFinite : Frame → Prop
  | .items done => ∀ d ∈ done, d.IsFinite
  | .members done _ => ∀ m ∈ done, m.2.IsFinite
  | .member done _ _ => ∀ m ∈ done, m.2.IsFinite

/-- What is complete anywhere has finite numbers. -/
def State.IsFinite : State → Prop
  | .between _ stack => ∀ f ∈ stack, f.IsFinite
  | .text _ _ stack => ∀ f ∈ stack, f.IsFinite
  | .number _ stack => ∀ f ∈ stack, f.IsFinite
  | .word _ d stack => d.IsFinite ∧ ∀ f ∈ stack, f.IsFinite
  | .complete d => d.IsFinite
  | .refused => True

variable {d : Draft} {stack : List Frame} {c : Char}

/-! ## Numbers -/

theorem isFinite_double (n : Number) : n.double.IsFinite := by
  unfold Number.double
  dsimp only
  split
  · next hdouble =>
    obtain ⟨steps, -, rfl⟩ := Option.map_eq_some_iff.mp hdouble
    exact .float rfl
  · exact .unreadable

theorem isFinite_integer (n : Number) (value : Int) {p : Prop} [Decidable p] :
    (if fits value = true ∧ p then Draft.int value else n.double).IsFinite := by
  split
  · next hfits => exact .int hfits.1
  · exact isFinite_double n

theorem isFinite_of_draft? {n : Number} (h : n.draft? = some d) : d.IsFinite := by
  unfold Number.draft? at h
  cases hdigits : n.significand.natural? with
  | none =>
    simp only [hdigits] at h
    split at h <;> cases h <;> exact isFinite_double n
  | some digits =>
    simp only [hdigits] at h
    split at h <;> cases h
    · exact isFinite_integer n _
    · exact isFinite_integer n _
    · exact isFinite_double n
    · exact isFinite_double n

/-! ## Containers -/

theorem isFinite_deliver (hd : d.IsFinite) (hstack : ∀ f ∈ stack, f.IsFinite) :
    (deliver d stack).IsFinite := by
  cases stack with
  | nil => exact hd
  | cons f rest =>
    rw [List.forall_mem_cons] at hstack
    obtain ⟨hf, hrest⟩ := hstack
    cases f with
    | items done =>
      refine List.forall_mem_cons.mpr ⟨?_, hrest⟩
      exact List.forall_mem_cons.mpr ⟨hd, hf⟩
    | members done readable => trivial
    | member done readable key =>
      refine List.forall_mem_cons.mpr ⟨?_, hrest⟩
      exact List.forall_mem_cons.mpr ⟨hd, hf⟩

theorem isFinite_close (hstack : ∀ f ∈ stack, f.IsFinite) : (close c stack).IsFinite := by
  unfold close
  split
  · next done rest =>
    rw [List.forall_mem_cons] at hstack
    split
    · refine isFinite_deliver ?_ hstack.2
      split
      · exact .unreadable
      · exact .arr fun d hd => hstack.1 d (List.mem_reverse.mp hd)
    · trivial
  · next done readable rest =>
    rw [List.forall_mem_cons] at hstack
    split
    · refine isFinite_deliver ?_ hstack.2
      split
      · exact .obj fun m hm => hstack.1 m (List.mem_reverse.mp hm)
      · exact .unreadable
    · trivial
  · trivial

theorem isFinite_openValue (hstack : ∀ f ∈ stack, f.IsFinite) : (openValue c stack).IsFinite := by
  unfold openValue
  split
  · exact hstack
  · exact List.forall_mem_cons.mpr ⟨List.forall_mem_nil _, hstack⟩
  · exact List.forall_mem_cons.mpr ⟨List.forall_mem_nil _, hstack⟩
  · exact ⟨.bool true, hstack⟩
  · exact ⟨.bool false, hstack⟩
  · exact ⟨.null, hstack⟩
  · exact hstack
  · split
    · exact hstack
    · trivial

theorem isFinite_closeKey {t : Text} (hstack : ∀ f ∈ stack, f.IsFinite) :
    (closeKey t stack).IsFinite := by
  unfold closeKey
  split
  · rw [List.forall_mem_cons] at hstack
    split <;> exact List.forall_mem_cons.mpr hstack
  · trivial

/-! ## One character -/

theorem isFinite_stepBetween {expect : Expect} (hstack : ∀ f ∈ stack, f.IsFinite) :
    (stepBetween expect stack c).IsFinite := by
  unfold stepBetween
  split
  · exact hstack
  · cases expect with
    | value => exact isFinite_openValue hstack
    | valueOrClose =>
      dsimp only
      split
      · exact isFinite_close hstack
      · exact isFinite_openValue hstack
    | key =>
      dsimp only
      split
      · exact hstack
      · trivial
    | keyOrClose =>
      dsimp only
      split
      · exact hstack
      · split
        · exact isFinite_close hstack
        · trivial
    | colon =>
      dsimp only
      split
      · exact hstack
      · trivial
    | commaOrClose =>
      dsimp only
      split
      · split
        · exact hstack
        · exact hstack
        · trivial
      · exact isFinite_close hstack

theorem isFinite_stepDelivered {s : State} (hs : s.IsFinite) : (stepDelivered s c).IsFinite := by
  unfold stepDelivered
  split
  · exact isFinite_stepBetween hs
  · unfold stepComplete
    split
    · exact hs
    · trivial
  · trivial

/-- A character keeps what is complete finite. -/
theorem State.IsFinite.step {s : State} (hs : s.IsFinite) (c : Char) : (step s c).IsFinite := by
  cases s with
  | between expect stack => exact isFinite_stepBetween hs
  | text isKey t stack =>
    unfold Reader.step
    dsimp only
    split
    · exact hs
    · split
      · exact isFinite_closeKey hs
      · refine isFinite_deliver ?_ hs
        split
        · exact .str _
        · exact .unreadable
    · trivial
  | number n stack =>
    unfold Reader.step
    dsimp only
    split
    · exact hs
    · split
      · next hdraft => exact isFinite_stepDelivered (isFinite_deliver (isFinite_of_draft? hdraft) hs)
      · trivial
  | word rest d stack =>
    obtain ⟨hd, hstack⟩ := hs
    cases rest with
    | nil => trivial
    | cons expected rest =>
      unfold Reader.step
      dsimp only
      split
      · split
        · exact isFinite_deliver hd hstack
        · exact ⟨hd, hstack⟩
      · trivial
  | complete d =>
    unfold Reader.step stepComplete
    dsimp only
    split
    · exact hs
    · trivial
  | refused => trivial

end Reader

/-- **The numbers of a text.**  The draft of a text has only finite ones. -/
theorem isFinite_of_readDraft? {text : String} {d : Draft} (h : readDraft? text = some d) :
    d.IsFinite := by
  have hfold : ∀ (cs : List Char) (s : Reader.State), s.IsFinite →
      (cs.foldl Reader.step s).IsFinite := by
    intro cs
    induction cs with
    | nil => exact fun s hs => hs
    | cons c rest ih => exact fun s hs => ih _ (hs.step c)
  have hend := hfold text.toList Reader.start (List.forall_mem_nil _)
  unfold readDraft? at h
  generalize text.toList.foldl Reader.step Reader.start = s at h hend
  unfold Reader.finish? at h
  split at h
  · cases h
    exact hend
  · exact Reader.isFinite_of_draft? h
  · cases h

end Json
end Automation
