import Automation.Proofs.Time.Calendar
import Automation.Time.Rfc3339

/-!
# An instant is read back from its text

Reading is laxer than writing, so what is to be shown is that none of the variants is in the way: no
part of a written instant begins with a blank, no number is followed by a digit, and the sign of a
year stands exactly where the number of digits asks for it.

Each part is read off the front and leaves the rest, and `ofChars?_chars` puts the parts together.
Nothing is assumed of the instant: it may lie inside a leap second or at an end of the range.
-/

namespace Automation
namespace Instant

variable {c : Char} {cs : List Char} {limit width n : Nat}

/-! ## Digits -/

theorem digit?_digitChar (n : Nat) : digit? (digitChar n) = some (n % 10) := by
  have hall : ∀ k < 10, digit? (Char.ofNat ('0'.toNat + k)) = some k := by decide
  exact hall (n % 10) (Nat.mod_lt n (by decide))

theorem isBlank_digitChar (n : Nat) : isBlank (digitChar n) = false := by
  have hall : ∀ k < 10, isBlank (Char.ofNat ('0'.toNat + k)) = false := by decide
  exact hall (n % 10) (Nat.mod_lt n (by decide))

/-- The first digit of a number that has one. -/
theorem exists_digits_succ (width n : Nat) :
    ∃ k more, digits (width + 1) n = digitChar k :: more := by
  induction width generalizing n with
  | zero => exact ⟨n, [], rfl⟩
  | succ width ih =>
    obtain ⟨k, more, h⟩ := ih (n / 10)
    exact ⟨k, more ++ [digitChar n], by rw [digits, h, List.cons_append]⟩

/-- What comes next is no digit. -/
def NoDigit (cs : List Char) : Prop := ∀ c ∈ cs.head?, digit? c = none

theorem takeDigits_noDigit (h : NoDigit cs) (limit value : Nat) :
    takeDigits limit value cs = (value, 0, cs) := by
  cases limit with
  | zero => rfl
  | succ limit =>
    cases cs with
    | nil => rfl
    | cons c cs => rw [takeDigits, h c rfl]

/-- Written digits are taken off the front, as many as there is room for. -/
theorem takeDigits_digits (h : width ≤ limit) (value : Nat) :
    takeDigits limit value (digits width n ++ cs) =
      match takeDigits (limit - width) (value * 10 ^ width + n % 10 ^ width) cs with
      | (v, count, rest) => (v, count + width, rest) := by
  induction width generalizing n cs with
  | zero =>
    rw [Nat.pow_zero, Nat.mod_one, Nat.mul_one]
    rfl
  | succ width ih =>
    have hroom : limit - width = (limit - (width + 1)) + 1 := by omega
    have hvalue : (value * 10 ^ width + n / 10 % 10 ^ width) * 10 + n % 10 =
        value * 10 ^ (width + 1) + n % 10 ^ (width + 1) := by
      rw [Nat.pow_succ', Nat.mod_mul, Nat.mul_left_comm value]
      omega
    rw [digits, List.append_assoc, List.singleton_append, ih (by omega), hroom, takeDigits,
      digit?_digitChar]
    dsimp only
    rw [hvalue, Nat.add_assoc, Nat.add_comm 1]

/-- A number that fits its digits is read back from them. -/
theorem number?_digits (hwidth : 0 < width) (hle : width ≤ limit) (hn : n < 10 ^ width)
    (hnext : width = limit ∨ NoDigit cs) :
    number? limit (digits width n ++ cs) = some (n, cs) := by
  have hrest : ∀ value, takeDigits (limit - width) value cs = (value, 0, cs) := by
    intro value
    rcases hnext with rfl | hnext
    · rw [Nat.sub_self]
      rfl
    · exact takeDigits_noDigit hnext _ value
  obtain ⟨w, rfl⟩ := Nat.exists_eq_add_of_lt hwidth
  rw [number?, takeDigits_digits hle, hrest, Nat.mod_eq_of_lt hn, Nat.zero_mul, Nat.zero_add n]
  rfl

/-! ## Blanks -/

theorem skipBlanks_cons (h : isBlank c = false) : skipBlanks (c :: cs) = c :: cs := by
  rw [skipBlanks, List.dropWhile_cons_of_neg (by rw [h]; exact Bool.false_ne_true)]

theorem skipBlanks_digits (hwidth : 0 < width) :
    skipBlanks (digits width n ++ cs) = digits width n ++ cs := by
  obtain ⟨w, rfl⟩ := Nat.exists_eq_add_of_lt hwidth
  obtain ⟨k, more, h⟩ := exists_digits_succ (0 + w) n
  rw [h, List.cons_append, skipBlanks_cons (isBlank_digitChar k)]

theorem expect?_self (h : isBlank c = false) : expect? c (c :: cs) = some cs := by
  rw [expect?, skipBlanks_cons h]
  exact if_pos rfl

/-- A part of two digits. -/
theorem part?_digits (hn : n < 100) : part? 2 (digits 2 n ++ cs) = some (n, cs) := by
  rw [part?, skipBlanks_digits (by decide)]
  exact number?_digits (by decide) (by decide) hn (.inl rfl)

/-! ## Years -/

theorem length_digits (width n : Nat) : (digits width n).length = width := by
  induction width generalizing n with
  | zero => rfl
  | succ width ih => rw [digits, List.length_append, ih, List.length_singleton]

/-- A year that begins with a digit has no sign. -/
theorem year?_digitChar (k : Nat) :
    year? (digitChar k :: cs) =
      (number? 4 (digitChar k :: cs)).map fun p => ((p.1 : Int), p.2) := by
  have hdigit := digit?_digitChar k
  rw [year?, skipBlanks_cons (isBlank_digitChar k)]
  split
  · next h =>
    rw [List.cons_eq_cons.mp h |>.1] at hdigit
    cases hdigit
  · next h =>
    rw [List.cons_eq_cons.mp h |>.1] at hdigit
    cases hdigit
  · rfl

/-- The digits of a year behind a sign, all of them. -/
theorem number?_wide (hn : n < 1000000) (hnext : NoDigit cs) (rest : List Char)
    (hrest : rest = (if n < 10000 then digits 4 n
      else if n < 100000 then digits 5 n else digits 6 n) ++ cs) :
    number? rest.length rest = some (n, cs) := by
  have hwidth : ∃ width, 0 < width ∧ n < 10 ^ width ∧ rest = digits width n ++ cs := by
    split at hrest
    · exact ⟨4, by decide, by assumption, hrest⟩
    split at hrest
    · exact ⟨5, by decide, by assumption, hrest⟩
    · exact ⟨6, by decide, hn, hrest⟩
  obtain ⟨width, hpos, hlt, rfl⟩ := hwidth
  refine number?_digits hpos ?_ hlt (.inr hnext)
  rw [List.length_append, length_digits]
  exact Nat.le_add_right width cs.length

/-- A written year is read back. -/
theorem year?_yearText {year : Int} (hmin : -1000000 < year) (hmax : year < 1000000)
    (hnext : NoDigit cs) : year? (yearText year ++ cs) = some (year, cs) := by
  rw [yearText]
  split
  · next hplain =>
    obtain ⟨k, more, h⟩ := exists_digits_succ 3 year.natAbs
    rw [h, List.cons_append, year?_digitChar, ← List.cons_append, ← h,
      number?_digits (by decide) (by decide) (by omega) (.inl rfl)]
    rw [Option.map_some, Int.natAbs_of_nonneg hplain.1]
  · next hsigned =>
    have hwide : year.natAbs < 1000000 := by omega
    have hnumber := number?_wide hwide hnext _ rfl
    rw [List.cons_append]
    split
    · next hneg =>
      rw [year?, skipBlanks_cons rfl]
      simp only
      rw [hnumber, Option.map_some]
      congr 2
      omega
    · next hpos =>
      rw [year?, skipBlanks_cons rfl]
      simp only
      rw [hnumber, Option.map_some]
      congr 2
      omega

/-! ## Fractions -/

theorem noDigit_zulu : NoDigit ['Z'] := fun c hc => by cases hc; rfl

theorem fraction?_digits (hpos : 0 < width) (hle : width ≤ 9) (hn : n < 10 ^ width) :
    fraction? ('.' :: digits width n ++ ['Z']) = some (n * 10 ^ (9 - width), ['Z']) := by
  rw [List.cons_append, fraction?, takeDigits_digits hle, takeDigits_noDigit noDigit_zulu,
    Nat.mod_eq_of_lt hn, Nat.zero_mul, Nat.zero_add n]
  dsimp only
  rw [Nat.zero_add]
  split
  · next hzero =>
    cases hzero
    cases hpos
  · next hvalue =>
    cases hvalue
    rfl

/-- A written fraction is read back: what its places leave out is zero. -/
theorem fraction?_fractionText (hn : n < 1000000000) :
    fraction? (fractionText n ++ ['Z']) = some (n, ['Z']) := by
  rw [fractionText]
  split
  · next hzero =>
    rw [hzero]
    rfl
  split
  · next hmillis =>
    rw [fraction?_digits (by decide) (by decide) (by omega)]
    congr 2
    omega
  split
  · next hmicros =>
    rw [fraction?_digits (by decide) (by decide) (by omega)]
    congr 2
    omega
  · rw [fraction?_digits (by decide) (by decide) hn]
    congr 2
    omega

/-! ## The whole text -/

/-- The characters of an instant, part by part. -/
theorem chars_eq (t : Instant) :
    t.chars =
      yearText (Calendar.dateOf t.day).year ++ '-' :: (digits 2 (Calendar.dateOf t.day).month ++
        '-' :: (digits 2 (Calendar.dateOf t.day).day ++ 'T' :: (digits 2 (t.second / 3600) ++
        ':' :: (digits 2 (t.second / 60 % 60) ++
        ':' :: (digits 2 (if t.isLeap then t.second % 60 + 1 else t.second % 60) ++
        (fractionText (if t.isLeap then t.nano - 1000000000 else t.nano) ++ ['Z'])))))) := by
  rw [chars]
  simp only [List.append_assoc, List.cons_append]

/-- The parts of an instant lead back to it. -/
theorem assemble?_parts (t : Instant) :
    assemble? (Calendar.dateOf t.day) (t.second / 3600) (t.second / 60 % 60)
      (if t.isLeap then t.second % 60 + 1 else t.second % 60)
      (if t.isLeap then t.nano - 1000000000 else t.nano) 0 = some t := by
  have hlt := t.second_lt
  have hwithin : (if (if t.isLeap then t.second % 60 + 1 else t.second % 60) = 60 then
      (59, (if t.isLeap then t.nano - 1000000000 else t.nano) + 1000000000)
      else ((if t.isLeap then t.second % 60 + 1 else t.second % 60),
        if t.isLeap then t.nano - 1000000000 else t.nano)) = (t.second % 60, t.nano) := by
    by_cases hleap : t.isLeap = true
    · have hnano : 1000000000 ≤ t.nano := of_decide_eq_true hleap
      rw [if_pos hleap, if_pos hleap, t.leap hnano, if_pos rfl, Nat.sub_add_cancel hnano]
    · rw [if_neg hleap, if_neg hleap, if_neg (by omega)]
  have hparts : ofParts? t.day t.second t.nano = some t :=
    dif_pos ⟨t.day_ge, t.day_le, t.second_lt, t.nano_lt, t.leap⟩
  have hofDay : t.second / 3600 * 3600 + t.second / 60 % 60 * 60 + t.second % 60 = t.second := by
    omega
  rw [assemble?, Calendar.dayOf?_dateOf]
  simp only [Option.bind_eq_bind, Option.bind_some, hwithin]
  rw [if_pos (by omega), hofDay, hparts, Option.bind_some]
  have hday : t.day + ((t.second : Int) - 0 * 60) / 86400 = t.day := by omega
  have hsecond : (((t.second : Int) - 0 * 60) % 86400).toNat = t.second := by omega
  rw [hday, hsecond, hparts]

/-- **An instant is read back from its characters.** -/
theorem ofChars?_chars (t : Instant) : ofChars? t.chars = some t := by
  obtain ⟨hmin, hmax⟩ := Calendar.year_of_range t.day_ge t.day_le
  obtain ⟨hmonth, hday⟩ := Calendar.dateOf_lt t.day
  have hsecond := t.second_lt
  have hnano := t.nano_lt
  have hstop : ∀ cs, NoDigit ('-' :: cs) := fun cs c hc => by cases hc; rfl
  have hdash : ∀ cs, expect? '-' ('-' :: cs) = some cs := fun cs => expect?_self rfl
  have hcolon : ∀ cs, expect? ':' (':' :: cs) = some cs := fun cs => expect?_self rfl
  have hzulu : offset? ['Z'] = some (0, []) := rfl
  have hminute : (if t.isLeap then t.second % 60 + 1 else t.second % 60) < 100 := by
    split <;> omega
  have hfraction : (if t.isLeap then t.nano - 1000000000 else t.nano) < 1000000000 := by
    split
    · omega
    · next h =>
      rw [isLeap, decide_eq_true_eq] at h
      omega
  -- the parts come off the front one after another
  have step {α β : Type} {o : Option α} {f : α → Option β} {x : α} {y : β} (ho : o = some x)
      (hf : f x = some y) : o.bind f = some y := Option.bind_eq_some_iff.mpr ⟨x, ho, hf⟩
  rw [chars_eq, ofChars?]
  refine step (year?_yearText (by omega) (by omega) (hstop _)) ?_
  refine step (hdash _) (step (part?_digits hmonth) ?_)
  refine step (hdash _) (step (part?_digits hday) ?_)
  refine step (part?_digits (by omega)) ?_
  refine step (hcolon _) (step (part?_digits (by omega)) ?_)
  refine step (hcolon _) (step (part?_digits hminute) ?_)
  refine step (fraction?_fractionText hfraction) (step hzulu ?_)
  exact assemble?_parts t

theorem ofText?_text (t : Instant) : ofText? t.text = some t := by
  rw [ofText?, text, String.toList_ofList, ofChars?_chars]

end Instant
end Automation
