import Automation.Proofs.Time.Line

/-!
# Whole milliseconds

The store keeps instants as milliseconds and a scenario gives its start and its moves in
milliseconds.  An instant that is a whole number of them is outside leap seconds and comes back from
its number, so a clock that begins at such an instant and moves by milliseconds loses nothing by
being written down and read again.

`add?_millis` is all that is needed of the arithmetic: moving by milliseconds is adding numbers.

Of any other instant something is lost.  Its part of a millisecond is, and if it lies inside a leap
second, the leap second is as well: the next second is what comes back (`ofMillis?_toMillis`).  From
the leap second at the end of the range nothing comes back (`kept?_eq_none_iff`).
-/

namespace Automation
namespace Instant

/-- An instant that is a whole number of milliseconds after the epoch. -/
def IsWhole (t : Instant) : Prop := ∃ millis, ofMillis? millis = some t

variable {millis : Int} {t : Instant}

/-- The parts of an instant that is given in milliseconds. -/
theorem parts_of_ofMillis? (h : ofMillis? millis = some t) :
    t.day = millis / 86400000 ∧ (t.second : Int) = millis % 86400000 / 1000 ∧
      (t.nano : Int) = millis % 1000 * 1000000 := by
  rw [ofMillis?, ofParts?] at h
  split at h
  · cases h
    refine ⟨rfl, ?_, ?_⟩
    · exact Int.toNat_of_nonneg (by omega)
    · exact Int.toNat_of_nonneg (by omega)
  · cases h

theorem isPlain_of_ofMillis? (h : ofMillis? millis = some t) : t.IsPlain := by
  obtain ⟨-, -, hnano⟩ := parts_of_ofMillis? h
  rw [isPlain_iff]
  omega

theorem toMillis_of_ofMillis? (h : ofMillis? millis = some t) : t.toMillis = millis := by
  obtain ⟨hday, hsecond, hnano⟩ := parts_of_ofMillis? h
  rw [toMillis, hday, hsecond, hnano]
  omega

theorem position_of_ofMillis? (h : ofMillis? millis = some t) : t.position = millis * 1000000 := by
  obtain ⟨hday, hsecond, hnano⟩ := parts_of_ofMillis? h
  rw [position, hday, hsecond, hnano]
  omega

theorem IsWhole.isPlain (h : t.IsWhole) : t.IsPlain := h.elim fun _ hm => isPlain_of_ofMillis? hm

/-- A whole number of milliseconds is kept by writing it down. -/
theorem IsWhole.ofMillis?_toMillis (h : t.IsWhole) : ofMillis? t.toMillis = some t := by
  obtain ⟨millis, hm⟩ := h
  rw [toMillis_of_ofMillis? hm, hm]

/-- Whole milliseconds are in the order of their numbers. -/
theorem IsWhole.le_iff_toMillis {t' : Instant} (h : t.IsWhole) (h' : t'.IsWhole) :
    t ≤ t' ↔ t.toMillis ≤ t'.toMillis := by
  rw [le_iff_position h.isPlain h'.isPlain]
  obtain ⟨millis, hm⟩ := h
  obtain ⟨millis', hm'⟩ := h'
  rw [position_of_ofMillis? hm, position_of_ofMillis? hm', toMillis_of_ofMillis? hm,
    toMillis_of_ofMillis? hm']
  omega

theorem isWhole_epoch : epoch.IsWhole := ⟨0, rfl⟩

/-- What a scenario gives as its start, in range or not, is a whole number of milliseconds. -/
theorem isWhole_ofMillis (millis : Int) : (ofMillis millis).IsWhole := by
  rw [ofMillis]
  cases h : ofMillis? millis with
  | none => exact isWhole_epoch
  | some t => exact ⟨millis, h⟩

/-- Moving by milliseconds is adding them. -/
theorem add?_millis (h : ofMillis? millis = some t) (move : Int) :
    t.add? (move * 1000000) = ofMillis? (millis + move) := by
  have hplain := isPlain_of_ofMillis? h
  obtain ⟨hday, hsecond, hnano⟩ := parts_of_ofMillis? h
  have hstays : t.staysInLeap (move * 1000000) = false := by
    rw [staysInLeap, show t.isLeap = false from hplain, Bool.false_and]
  have htotal : (t.second : Int) * 1000000000 + t.nano + move * 1000000 =
      (millis % 86400000 + move) * 1000000 := by
    rw [hsecond, hnano]
    omega
  rw [add?, hstays, if_neg Bool.false_ne_true, ofMillis?]
  simp only [show t.isLeap = false from hplain, Bool.false_eq_true, false_and, if_false, htotal,
    hday]
  congr 1
  · omega
  · congr 1
    omega
  · congr 1
    omega

/-! ## Instants between milliseconds -/

/-- An instant without its part of a millisecond.  One inside a leap second stays inside it. -/
def roundedDown (t : Instant) : Instant :=
  { t with
    nano := t.nano / 1000000 * 1000000
    nano_lt := (Nat.div_mul_le_self _ _).trans_lt t.nano_lt
    leap := fun h => t.leap (h.trans (Nat.div_mul_le_self _ _)) }

/-- What comes back from the milliseconds of an instant.  They know of no leap seconds, so an
instant inside one counts on into the second that follows, if there is one. -/
def kept? (t : Instant) : Option Instant :=
  if t.isLeap then
    ofParts? (t.day + ((t.second + 1) / 86400 : Nat)) ((t.second + 1) % 86400)
      (t.roundedDown.nano - 1000000000)
  else some t.roundedDown

/-- An instant inside the leap second that no second follows. -/
def EndsRange (t : Instant) : Prop := t.isLeap = true ∧ t.day = 95026236 ∧ t.second = 86399

instance (t : Instant) : Decidable t.EndsRange :=
  inferInstanceAs (Decidable (t.isLeap = true ∧ t.day = 95026236 ∧ t.second = 86399))

theorem kept?_of_isPlain (h : t.IsPlain) : t.kept? = some t.roundedDown := by
  rw [kept?, show t.isLeap = false from h, if_neg Bool.false_ne_true]

theorem ofParts?_parts (t : Instant) : ofParts? t.day t.second t.nano = some t := by
  rw [ofParts?, dif_pos ⟨t.day_ge, t.day_le, t.second_lt, t.nano_lt, t.leap⟩]

/-- A number of milliseconds comes apart into the parts it was put together from. -/
theorem ofMillis?_eq_ofParts? {day : Int} {second nano : Nat} (hsecond : second < 86400)
    (hnano : nano < 1000000000) (hwhole : nano % 1000000 = 0)
    (h : millis = (day * 86400 + second) * 1000 + nano / 1000000) :
    ofMillis? millis = ofParts? day second nano := by
  have hday : millis / 86400000 = day := by omega
  have hsecond' : (millis % 86400000 / 1000).toNat = second := by omega
  have hnano' : (millis % 1000 * 1000000).toNat = nano := by omega
  rw [ofMillis?, hday, hsecond', hnano']

theorem ofMillis?_toMillis (t : Instant) : ofMillis? t.toMillis = t.kept? := by
  have hsecond := t.second_lt
  have hnano := t.nano_lt
  have hrounded : t.roundedDown.nano = t.nano / 1000000 * 1000000 := rfl
  cases hleap : t.isLeap with
  | false =>
    have hshort := isPlain_iff.mp hleap
    rw [kept?_of_isPlain hleap, ← ofParts?_parts t.roundedDown]
    refine ofMillis?_eq_ofParts? hsecond (by omega) (by omega) ?_
    rw [toMillis, hrounded]
    show _ = (t.day * 86400 + t.second) * 1000 + _
    omega
  | true =>
    have hlong : 1000000000 ≤ t.nano := of_decide_eq_true hleap
    rw [kept?, if_pos hleap]
    refine ofMillis?_eq_ofParts? (by omega) (by omega) (by omega) ?_
    rw [toMillis, hrounded]
    omega

/-- Of one second nothing comes back, and of any other instant something does. -/
theorem kept?_eq_none_iff : t.kept? = none ↔ t.EndsRange := by
  have hday := t.day_le
  have hday' := t.day_ge
  have hsecond := t.second_lt
  have hnano := t.nano_lt
  have hrounded : t.roundedDown.nano = t.nano / 1000000 * 1000000 := rfl
  rw [EndsRange]
  cases hleap : t.isLeap with
  | false =>
    rw [kept?_of_isPlain hleap]
    exact iff_of_false (fun h => by cases h) fun h => by cases h.1
  | true =>
    have hlong : 1000000000 ≤ t.nano := of_decide_eq_true hleap
    rw [kept?, if_pos hleap, ofParts?, dite_eq_right_iff]
    constructor
    · intro h
      refine ⟨rfl, ?_⟩
      by_contra hearlier
      cases h ⟨by omega, by omega, by omega, by omega, by omega⟩
    · intro h hrange
      omega

end Instant

namespace Clock

variable {c c' : Clock} {move : Int}

/-- A clock that shows whole milliseconds still does after a move. -/
theorem isWhole_of_advanceMillis? (hc : c.now.IsWhole) (h : c.advanceMillis? move = some c') :
    c'.now.IsWhole := by
  obtain ⟨millis, hm⟩ := hc
  rw [advanceMillis?] at h
  split at h
  · cases h
  · obtain ⟨t, ht, rfl⟩ := Option.map_eq_some_iff.mp h
    rw [Instant.add?_millis hm] at ht
    exact ⟨_, ht⟩

/-- A move that is not negative goes forward. -/
theorem le_of_advanceMillis? (hc : c.now.IsWhole) (hmove : 0 ≤ move)
    (h : c.advanceMillis? move = some c') : c.now ≤ c'.now := by
  have hc' := isWhole_of_advanceMillis? hc h
  obtain ⟨millis, hm⟩ := hc
  rw [advanceMillis?] at h
  split at h
  · cases h
  · obtain ⟨t, ht, rfl⟩ := Option.map_eq_some_iff.mp h
    rw [Instant.add?_millis hm] at ht
    rw [Instant.le_iff_position (Instant.isPlain_of_ofMillis? hm) hc'.isPlain,
      Instant.position_of_ofMillis? hm, Instant.position_of_ofMillis? ht]
    omega

/-- A clock comes back from the milliseconds it shows. -/
theorem ofMillis_toMillis (hc : c.now.IsWhole) : ofMillis c.now.toMillis = c := by
  rw [ofMillis, Instant.ofMillis, hc.ofMillis?_toMillis]
  rfl

end Clock
end Automation
