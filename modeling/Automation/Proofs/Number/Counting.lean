import Automation.Number.Binary64
import Mathlib.Algebra.Order.Ring.Nat
import Mathlib.Data.Nat.Log

/-!
# Counting with doubles is exact

A count begins at zero and grows by one, and up to `2 ^ 53` every natural is a double.  So as long
as a count stays there adding one is exact, and comparing a count with a goal is comparing naturals.

A goal need not be integral.  A count reaches it when it reaches the next natural, which is what
`Binary64.ceil` gives: `le_ofNat_iff` says that nothing else about the goal matters to a count.
-/

namespace Automation
namespace Binary64

/-! ## Rounding what needs no rounding -/

/-- A count of steps that gives up no bit is its own nearest. -/
theorem nearest_of_dvd {steps : Nat} (h : 2 ^ excess steps ∣ steps) : nearest steps 1 = steps := by
  have hunit : 0 < 2 ^ excess steps := Nat.two_pow_pos _
  have hmod : steps % 2 ^ excess steps = 0 := Nat.mod_eq_zero_of_dvd h
  rw [nearest, Nat.div_one, Nat.one_shiftLeft, one_mul, divEven]
  simp only [hmod]
  rw [if_pos (Or.inl (by omega)), Nat.div_mul_cancel h]

/-- What fits 53 bits gives up at most the zeros behind it. -/
theorem excess_mul_two_pow_le {m e : Nat} (h : m < 2 ^ 53) : excess (m * 2 ^ e) ≤ e := by
  rw [excess]
  rcases Nat.eq_zero_or_pos m with rfl | hpos
  · simp
  · have hlt : m * 2 ^ e < 2 ^ (53 + e) := by
      rw [Nat.pow_add]
      exact Nat.mul_lt_mul_of_pos_right h (Nat.two_pow_pos e)
    have hlog := (Nat.log2_lt (Nat.mul_pos hpos (Nat.two_pow_pos e)).ne').mpr hlt
    omega

/-- A natural up to `2 ^ 53` times a power of two is a double. -/
theorem nearest_mul_two_pow {m e : Nat} (h : m ≤ 2 ^ 53) : nearest (m * 2 ^ e) 1 = m * 2 ^ e := by
  refine nearest_of_dvd ?_
  rcases Nat.lt_or_eq_of_le h with hlt | rfl
  · exact (Nat.pow_dvd_pow 2 (excess_mul_two_pow_le hlt)).mul_left m
  · rw [← Nat.pow_add]
    refine Nat.pow_dvd_pow 2 ?_
    rw [excess, Nat.log2_two_pow]
    omega

theorem exists_shiftLeft_eq {a b : Nat} (h : 54 + a ≤ b) :
    ∃ e, 1 <<< a = 2 ^ e ∧ 2 ^ (54 + e) ≤ 1 <<< b := by
  rw [Nat.one_shiftLeft, Nat.one_shiftLeft]
  exact ⟨a, rfl, Nat.pow_le_pow_right (by decide) h⟩

/-- What is needed of the size of a unit and of the limit. -/
theorem exists_one_eq : ∃ e, one = 2 ^ e ∧ 2 ^ (54 + e) ≤ limit := exists_shiftLeft_eq (by decide)

theorem one_pos : 0 < one := by
  obtain ⟨e, he, -⟩ := exists_one_eq
  rw [he]
  exact Nat.two_pow_pos e

theorem nearest_mul_one {n : Nat} (h : n ≤ 2 ^ 53) : nearest (n * one) 1 = n * one := by
  obtain ⟨e, he, -⟩ := exists_one_eq
  rw [he]
  exact nearest_mul_two_pow h

theorem mul_one_lt_limit {n : Nat} (h : n ≤ 2 ^ 53) : n * one < limit := by
  obtain ⟨e, he, hlimit⟩ := exists_one_eq
  calc n * one ≤ 2 ^ 53 * 2 ^ e := he ▸ Nat.mul_le_mul_right _ h
    _ < 2 ^ 54 * 2 ^ e := Nat.mul_lt_mul_of_pos_right (by decide) (Nat.two_pow_pos e)
    _ = 2 ^ (54 + e) := (Nat.pow_add ..).symm
    _ ≤ limit := hlimit

/-! ## Counts -/

/-- The double of a natural. -/
def ofNat (n : Nat) : Binary64 := .finite false (n * one)

theorem ofSteps_mul_one {n : Nat} (h : n ≤ 2 ^ 53) : ofSteps false (n * one) 1 = ofNat n := by
  rw [ofSteps, nearest_mul_one h, if_pos (mul_one_lt_limit h), ofNat]

theorem ofNat_zero : ofNat 0 = 0 := by
  rw [ofNat, zero_mul]
  rfl

theorem ofInt_natCast {n : Nat} (h : n ≤ 2 ^ 53) : ofInt n = ofNat n := by
  rw [ofInt, Int.natAbs_natCast, decide_eq_false (by omega), ofSteps_mul_one h]

theorem one_eq_ofNat : (1 : Binary64) = ofNat 1 := ofInt_natCast (by decide)

/-- Adding one is exact as long as the count stays within `2 ^ 53`. -/
theorem ofNat_add_one {n : Nat} (h : n + 1 ≤ 2 ^ 53) : ofNat n + 1 = ofNat (n + 1) := by
  have hsum : signed false (n * one) + signed false (1 * one) = (((n + 1) * one : Nat) : Int) := by
    simp [signed, add_mul]
  have hpos : ((n + 1) * one : Nat) ≠ 0 := (Nat.mul_pos n.succ_pos one_pos).ne'
  rw [one_eq_ofNat]
  show add (.finite false (n * one)) (.finite false (1 * one)) = _
  simp only [add, hsum]
  rw [if_neg (by omega), Int.natAbs_natCast, decide_eq_false (by omega), ofSteps_mul_one h]

@[simp] theorem dropZeroSign_ofNat (n : Nat) : (ofNat n).dropZeroSign = ofNat n := rfl

/-! ## Goals -/

/-- The least natural that is not below a finite number that is not negative. -/
def ceil : Binary64 → Nat
  | .finite false steps => (steps + one - 1) / one
  | _ => 0

theorem ceil_le_iff {steps n : Nat} : ceil (.finite false steps) ≤ n ↔ steps ≤ n * one := by
  have hpos := one_pos
  rw [ceil, Nat.div_le_iff_le_mul_add_pred hpos, mul_comm one n]
  omega

/-- A count has reached a goal when it has reached the next natural. -/
theorem le_ofNat_iff {steps n : Nat} :
    le (.finite false steps) (ofNat n) = true ↔ ceil (.finite false steps) ≤ n := by
  rw [ceil_le_iff, le, ofNat, lt, eq, Bool.or_eq_true, decide_eq_true_eq, decide_eq_true_eq]
  simp only [signed, Bool.false_eq_true, if_false]
  generalize n * one = m
  omega

/-- A count below the next natural is below the goal. -/
theorem ofNat_lt_iff {steps n : Nat} :
    (ofNat n).lt (.finite false steps) = true ↔ n < ceil (.finite false steps) := by
  rw [← not_iff_not, Nat.not_lt, ceil_le_iff, ofNat, lt, decide_eq_true_eq]
  simp only [signed, Bool.false_eq_true, if_false, Int.ofNat_lt, Nat.not_lt]

/-- A goal that a count can reach without loss: positive, and at most `2 ^ 53`. -/
def IsCountable (g : Binary64) : Prop := lt 0 g = true ∧ g.le (ofInt (2 ^ 53)) = true

/-- A goal that a count can reach is finite, and the natural it asks for is positive and exact. -/
theorem IsCountable.exists_steps {g : Binary64} (h : g.IsCountable) :
    ∃ steps, g = .finite false steps ∧ 0 < g.ceil ∧ g.ceil ≤ 2 ^ 53 := by
  obtain ⟨hpos, hmax⟩ := h
  have hlargest : ofInt (2 ^ 53) = ofNat (2 ^ 53) := ofInt_natCast le_rfl
  rw [hlargest] at hmax
  cases g with
  | nan => cases hmax
  | infinite negative =>
    cases negative with
    | true => cases hpos
    | false => cases hmax
  | finite negative steps =>
    rw [← ofNat_zero] at hpos
    cases negative with
    | true =>
      rw [ofNat, lt, decide_eq_true_eq] at hpos
      simp [signed] at hpos
      omega
    | false => exact ⟨steps, rfl, ofNat_lt_iff.mp hpos, le_ofNat_iff.mp hmax⟩

end Binary64
end Automation
