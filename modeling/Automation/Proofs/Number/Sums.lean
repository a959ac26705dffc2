import Automation.Proofs.Number.Counting

/-!
# What a sum of doubles is not

Progress is kept in a table column that has no place for what is not a number and forgets the sign
of a zero.  Neither ever comes up in a sum of a count and a finite number: a sum is not a number
only where infinities meet, and it is a negative zero only where both summands are.
-/

namespace Automation
namespace Binary64

variable {x y : Binary64}

/-- A finite number added to a number gives a number. -/
theorem add_ne_nan (hx : x ≠ .nan) (hy : y.isFinite = true) : x + y ≠ .nan := by
  show add x y ≠ .nan
  cases y with
  | nan => cases hy
  | infinite negative => cases hy
  | finite negative steps =>
    cases x with
    | nan => exact absurd rfl hx
    | infinite negative' => exact fun h => by cases h
    | finite negative' steps' =>
      simp only [add, ofSteps]
      split
      · exact fun h => by cases h
      · split <;> exact fun h => by cases h

/-- What is given up in rounding is no more than what there is. -/
theorem two_pow_excess_le {n : Nat} (h : n ≠ 0) : 2 ^ excess n ≤ n := by
  calc 2 ^ excess n ≤ 2 ^ n.log2 := Nat.pow_le_pow_right (by decide) (by rw [excess]; omega)
    _ ≤ n := Nat.log2_self_le h

/-- Only nothing is rounded to nothing. -/
theorem nearest_ne_zero {n : Nat} (h : n ≠ 0) : nearest n 1 ≠ 0 := by
  have hquotient : 0 < n / 2 ^ excess n := Nat.div_pos (two_pow_excess_le h) (Nat.two_pow_pos _)
  rw [nearest, Nat.div_one, Nat.one_shiftLeft, one_mul, divEven]
  refine (Nat.mul_pos ?_ (Nat.two_pow_pos _)).ne'
  split
  · exact hquotient
  · exact Nat.succ_pos _

/-- Rounding does not more than double. -/
theorem nearest_le_two_mul (n : Nat) : nearest n 1 ≤ 2 * n := by
  rcases Nat.eq_zero_or_pos n with rfl | hpos
  · decide
  · have hunit := two_pow_excess_le hpos.ne'
    rw [nearest, Nat.div_one, Nat.one_shiftLeft, one_mul]
    have hround : divEven n (2 ^ excess n) ≤ n / 2 ^ excess n + 1 := by
      unfold divEven
      dsimp only
      split
      · exact Nat.le_succ _
      · exact Nat.le_refl _
    calc divEven n (2 ^ excess n) * 2 ^ excess n
        ≤ (n / 2 ^ excess n + 1) * 2 ^ excess n := Nat.mul_le_mul_right _ hround
      _ = n / 2 ^ excess n * 2 ^ excess n + 2 ^ excess n := Nat.succ_mul _ _
      _ ≤ 2 * n := by have := Nat.div_mul_le_self n (2 ^ excess n); omega

/-- An integer of 64 bits and a sign is finite as a double. -/
theorem isFinite_ofInt {n : Int} (h : n.natAbs ≤ 2 ^ 64) : (ofInt n).isFinite = true := by
  have hsteps : nearest (n.natAbs * one) 1 < limit := by
    calc nearest (n.natAbs * one) 1 ≤ 2 * (n.natAbs * one) := nearest_le_two_mul _
      _ ≤ 2 * (2 ^ 64 * one) := Nat.mul_le_mul_left _ (Nat.mul_le_mul_right _ h)
      _ < limit := by decide +kernel
  unfold ofInt ofSteps
  dsimp only
  rw [if_pos hsteps]
  rfl

/-- A number with a sign of its own is no negative zero. -/
theorem dropZeroSign_ofSteps (negative : Bool) {n : Nat} (h : n ≠ 0) :
    (ofSteps negative n 1).dropZeroSign = ofSteps negative n 1 := by
  rw [ofSteps]
  split
  · obtain ⟨m, hm⟩ := Nat.exists_eq_succ_of_ne_zero (nearest_ne_zero h)
    rw [hm]
    cases negative <;> rfl
  · rfl

/-- What is added to anything but a negative zero does not make one. -/
theorem dropZeroSign_add (hx : x.dropZeroSign = x) : (x + y).dropZeroSign = x + y := by
  show (add x y).dropZeroSign = add x y
  cases x with
  | nan => rfl
  | infinite negative =>
    cases y with
    | nan => rfl
    | infinite negative' =>
      rw [add]
      split <;> rfl
    | finite negative' steps' => rfl
  | finite negative steps =>
    cases y with
    | nan => rfl
    | infinite negative' => rfl
    | finite negative' steps' =>
      simp only [add]
      split
      · next hsum =>
        cases negative with
        | false => rfl
        | true =>
          have hsteps : steps ≠ 0 := by
            rintro rfl
            cases hx
          cases negative' with
          | false => rfl
          | true =>
            simp only [signed, if_true] at hsum
            omega
      · next hsum => exact dropZeroSign_ofSteps _ (by simpa using hsum)

/-- Of two numbers, one that is not at least the other is below it. -/
theorem lt_of_not_le (hx : x ≠ .nan) (hy : y ≠ .nan) (h : y.le x = false) : x.lt y = true := by
  rw [le, Bool.or_eq_false_iff] at h
  obtain ⟨hlt, heq⟩ := h
  cases x with
  | nan => exact absurd rfl hx
  | infinite negative =>
    cases y with
    | nan => exact absurd rfl hy
    | infinite negative' => cases negative <;> cases negative' <;> simp_all [lt, eq]
    | finite negative' steps' => cases negative <;> simp_all [lt]
  | finite negative steps =>
    cases y with
    | nan => exact absurd rfl hy
    | infinite negative' => cases negative' <;> simp_all [lt]
    | finite negative' steps' =>
      rw [lt, decide_eq_false_iff_not] at hlt
      rw [eq, decide_eq_false_iff_not] at heq
      rw [lt, decide_eq_true_eq]
      omega

/-- What is above a number is above every number that this one is not below. -/
theorem lt_of_not_lt_of_lt (hy : y ≠ .nan) (hxy : x.lt y = false) (hxz : x.lt z = true) :
    y.lt z = true := by
  cases x with
  | nan => cases hxz
  | infinite negative =>
    cases y with
    | nan => exact absurd rfl hy
    | infinite negative' => cases z <;> cases negative <;> cases negative' <;> simp_all [lt]
    | finite negative' steps' => cases z <;> cases negative <;> simp_all [lt]
  | finite negative steps =>
    cases y with
    | nan => exact absurd rfl hy
    | infinite negative' => cases z <;> cases negative' <;> simp_all [lt]
    | finite negative' steps' =>
      cases z with
      | nan => cases hxz
      | infinite negative'' => exact hxz
      | finite negative'' steps'' =>
        rw [lt, decide_eq_false_iff_not] at hxy
        rw [lt, decide_eq_true_eq] at hxz ⊢
        omega

theorem isFinite_one : (1 : Binary64).isFinite = true := by
  rw [one_eq_ofNat]
  rfl

@[simp] theorem dropZeroSign_dropZeroSign (x : Binary64) :
    x.dropZeroSign.dropZeroSign = x.dropZeroSign := by
  cases x with
  | nan => rfl
  | infinite negative => rfl
  | finite negative steps =>
    cases negative <;> cases steps <;> rfl

@[simp] theorem isZero_dropZeroSign (x : Binary64) : x.dropZeroSign.isZero = x.isZero := by
  cases x with
  | nan => rfl
  | infinite negative => rfl
  | finite negative steps => cases negative <;> cases steps <;> rfl

@[simp] theorem lt_dropZeroSign (x y : Binary64) : x.dropZeroSign.lt y = x.lt y := by
  cases x with
  | nan => rfl
  | infinite negative => rfl
  | finite negative steps => cases negative <;> cases steps <;> cases y <;> rfl

end Binary64
end Automation
