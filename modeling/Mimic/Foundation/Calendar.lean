import Mathlib.Algebra.BigOperators.Intervals
import Mathlib.Tactic

/-!
# The Gregorian calendar

Years and months are as long as they are, before 1582 as well. The number of a day counts from
1970-01-01 (`dayNumber`), and sums the lengths of the years and months up to it.
-/

namespace Calendar

variable {y : ℤ} {m : ℕ}

def IsLeap (y : ℤ) : Prop := y % 4 = 0 ∧ (y % 100 ≠ 0 ∨ y % 400 = 0)

instance : DecidablePred IsLeap := fun y ↦
  inferInstanceAs (Decidable (y % 4 = 0 ∧ (y % 100 ≠ 0 ∨ y % 400 = 0)))

def yearLength (y : ℤ) : ℕ := if IsLeap y then 366 else 365

def monthLength (y : ℤ) : ℕ → ℕ
  | 2 => if IsLeap y then 29 else 28
  | 4 | 6 | 9 | 11 => 30
  | _ => 31

/-- The days from 1970-01-01 to the first of a year, which are negative for years before. -/
def daysBeforeYear (y : ℤ) : ℤ :=
  ∑ k ∈ Finset.range (y - 1970).toNat, (yearLength (1970 + k) : ℤ) -
    ∑ k ∈ Finset.range (1970 - y).toNat, (yearLength (1970 - 1 - k) : ℤ)

/-- The days from the first of a year to that of a month. -/
def daysBeforeMonth (y : ℤ) (m : ℕ) : ℕ := ∑ k ∈ Finset.Ico 1 m, monthLength y k

/-- There is such a day in the calendar. -/
structure IsDate (y : ℤ) (m d : ℕ) : Prop where
  month_pos : 1 ≤ m
  month_le : m ≤ 12
  day_pos : 1 ≤ d
  day_le : d ≤ monthLength y m

/-- The number of a day, from 1970-01-01. -/
def dayNumber (y : ℤ) (m d : ℕ) : ℤ := daysBeforeYear y + daysBeforeMonth y m + (d - 1)

/-- The day of the week of the day with a number, counted from Sunday: 1970-01-01 is a Thursday. -/
def weekday (n : ℤ) : ℕ := ((n + 4) % 7).toNat

theorem monthLength_le (y : ℤ) (m : ℕ) : monthLength y m ≤ 31 := by
  rw [monthLength.eq_def]
  split
  · split <;> decide
  all_goals decide

/-- **One more year.** -/
theorem daysBeforeYear_succ (y : ℤ) : daysBeforeYear (y + 1) = daysBeforeYear y + yearLength y := by
  rw [daysBeforeYear, daysBeforeYear]
  rcases le_or_gt 1970 y with h | h
  · obtain ⟨n, rfl⟩ := Int.le.dest h
    rw [show ((1970 : ℤ) + n + 1 - 1970).toNat = n + 1 by omega,
      show ((1970 : ℤ) + n - 1970).toNat = n by omega,
      show ((1970 : ℤ) - (1970 + n + 1)).toNat = 0 by omega,
      show ((1970 : ℤ) - (1970 + n)).toNat = 0 by omega, Finset.sum_range_succ]
    simp
  · obtain ⟨n, hn⟩ := Int.le.dest (show y + 1 ≤ 1970 from h)
    obtain rfl : y = 1970 - 1 - n := by omega
    rw [show ((1970 : ℤ) - 1 - n + 1 - 1970).toNat = 0 by omega,
      show ((1970 : ℤ) - 1 - n - 1970).toNat = 0 by omega,
      show ((1970 : ℤ) - (1970 - 1 - n + 1)).toNat = n by omega,
      show ((1970 : ℤ) - (1970 - 1 - n)).toNat = n + 1 by omega, Finset.sum_range_succ]
    simp

/-- How long a year is, from the multiples of 4, 100 and 400 up to it. -/
theorem yearLength_eq (y : ℤ) : (yearLength y : ℤ) =
    365 + (y / 4 - (y - 1) / 4) - (y / 100 - (y - 1) / 100) + (y / 400 - (y - 1) / 400) := by
  rw [yearLength]
  split <;> rename_i h <;> rw [IsLeap] at h <;> push_cast <;> omega

/-- **The days before a year in closed form.** -/
theorem daysBeforeYear_eq (y : ℤ) : daysBeforeYear y =
    365 * (y - 1970) + (y - 1) / 4 - (y - 1) / 100 + (y - 1) / 400 - 477 := by
  induction y using Int.inductionOn' (b := 1970) with
  | zero => decide
  | succ y _ ih =>
    rw [daysBeforeYear_succ, ih, yearLength_eq]
    rw [show y + 1 - 1 = y by omega]
    omega
  | pred y _ ih =>
    have hstep := daysBeforeYear_succ (y - 1)
    rw [show y - 1 + 1 = y by omega, ih, yearLength_eq] at hstep
    omega

theorem monthLength_two (y : ℤ) : monthLength y 2 + 337 = yearLength y := by
  rw [monthLength, yearLength]
  split <;> rfl

/-- The days of a year from the first of March on do not depend on the year. -/
theorem daysBeforeMonth_eq (y : ℤ) (hm : m ≤ 12) : (daysBeforeMonth y m : ℤ) =
    [0, 0, 31, 0, 31, 61, 92, 122, 153, 184, 214, 245, 275].getD m 0 +
      if 3 ≤ m then (yearLength y : ℤ) - 306 else 0 := by
  rw [daysBeforeMonth, yearLength]
  by_cases hleap : IsLeap y
  · interval_cases m <;> simp [Finset.sum_Ico_succ_top, monthLength, hleap]
  · interval_cases m <;> simp [Finset.sum_Ico_succ_top, monthLength, hleap]

end Calendar
