import Mimic.Commands.Listing
import Mimic.Foundation.Calendar
import Mimic.Foundation.Checked

/-!
# Dates

`fs::civil_from_days` turns the number of a day into a date, and `gmtime` (`clock.rs`) does the same
for a number of seconds, with the time of the day, the day of the week and that of the year. Both
count years from the first of March, so that the day that leap years have is the last one of the
year, and cut the days into eras of 400 years.

The arithmetic is that of `i64`. `Checked` has the two functions over operations that refuse what
does not fit, and no seconds that `i64` has make them refuse anything (`gmtime_exact`).
-/

namespace Mimic

namespace Dates

open Calendar Checked

/-! ### Years from March to February -/

/-- A day, as an era and, in it, centuries, leap cycles of four years, years, and the day of a year
that starts in March. -/
structure MarchDay (z e c q t doy : ℤ) : Prop where
  eq : z = 146097 * e + 36524 * c + 1461 * q + 365 * t + doy
  century : 0 ≤ c ∧ c ≤ 3
  cycle : 0 ≤ q ∧ q ≤ 24
  year : 0 ≤ t ∧ t ≤ 3
  day : 0 ≤ doy ∧ doy ≤ 365
  leap : doy = 365 → t = 3 ∧ (q ≠ 24 ∨ c = 3)

variable {z e c q t doy days : ℤ}

theorem exists_marchDay (z : ℤ) : ∃ c q t doy, MarchDay z (z / 146097) c q t doy := by
  obtain ⟨c, hc⟩ : ∃ c, c = min 3 (z % 146097 / 36524) := ⟨_, rfl⟩
  obtain ⟨r, hr⟩ : ∃ r, r = z % 146097 - 36524 * c := ⟨_, rfl⟩
  obtain ⟨q, hq⟩ : ∃ q, q = r / 1461 := ⟨_, rfl⟩
  obtain ⟨s, hs⟩ : ∃ s, s = r % 1461 := ⟨_, rfl⟩
  obtain ⟨t, ht⟩ : ∃ t, t = min 3 (s / 365) := ⟨_, rfl⟩
  have hr' : 0 ≤ r ∧ (r < 36524 ∨ r = 36524 ∧ c = 3) := by omega
  refine ⟨c, q, t, s - 365 * t, ⟨by omega, by omega, by omega, by omega, by omega, ?_⟩⟩
  intro hday
  have ht' : t = 3 := by omega
  have hs' : s = 1460 := by omega
  refine ⟨ht', ?_⟩
  by_contra hcontra
  omega

namespace MarchDay

variable (h : MarchDay z e c q t doy)

include h

theorem era_eq : (if z ≥ 0 then z else z - 146096).tdiv 146097 = e := by
  obtain ⟨heq, hc, hq, ht, hd, hleap⟩ := h
  have hdoe : 36524 * c + 1461 * q + 365 * t + doy < 146097 := by omega
  split
  · rw [Int.tdiv_eq_ediv_of_nonneg (by omega)]
    omega
  · rw [show z - 146096 = -(146096 - z) by ring, Int.neg_tdiv,
      Int.tdiv_eq_ediv_of_nonneg (by omega)]
    omega

/-- The year of the era, as the code finds it. -/
theorem yoe_eq : ((z - e * 146097) - (z - e * 146097).tdiv 1460 + (z - e * 146097).tdiv 36524 -
    (z - e * 146097).tdiv 146096).tdiv 365 = 100 * c + 4 * q + t := by
  obtain ⟨heq, hc, hq, ht, hd, hleap⟩ := h
  obtain ⟨doe, hdoe⟩ : ∃ doe, doe = z - e * 146097 := ⟨_, rfl⟩
  rw [← hdoe]
  have hpos : 0 ≤ doe := by omega
  rw [Int.tdiv_eq_ediv_of_nonneg hpos, Int.tdiv_eq_ediv_of_nonneg hpos,
    Int.tdiv_eq_ediv_of_nonneg hpos]
  have hval : doe = 36524 * c + 1461 * q + 365 * t + doy := by omega
  -- each of the divisions drops the days that leap years have
  have h1460 : doe / 1460 = 25 * c + q + (24 * c + q + 365 * t + doy) / 1460 := by omega
  have hone : (24 * c + q + 365 * t + doy) / 1460 = 0 ∨ (24 * c + q + 365 * t + doy) / 1460 = 1 ∧
      269 ≤ doy := by omega
  have hcentury : doe / 36524 - doe / 146096 = c := by omega
  rw [Int.tdiv_eq_ediv_of_nonneg (by omega)]
  omega

/-- The day of the year, as the code finds it. -/
theorem doy_eq : (z - e * 146097) - (365 * (100 * c + 4 * q + t) + (100 * c + 4 * q + t).tdiv 4 -
    (100 * c + 4 * q + t).tdiv 100) = doy := by
  obtain ⟨heq, hc, hq, ht, hd, hleap⟩ := h
  rw [Int.tdiv_eq_ediv_of_nonneg (by omega), Int.tdiv_eq_ediv_of_nonneg (by omega)]
  omega

/-- The day in front of the first of March is there in leap years only. -/
theorem isLeap (hday : doy = 365) : IsLeap (400 * e + (100 * c + 4 * q + t) + 1) := by
  obtain ⟨rfl, hq⟩ := h.leap hday
  have hc := h.century
  have hq' := h.cycle
  rw [IsLeap]
  omega

/-- The number of the day, from the year that ends with it or after it. -/
theorem sub_eq : z - 719468 = daysBeforeYear (400 * e + (100 * c + 4 * q + t) + 1) - 306 + doy := by
  obtain ⟨heq, hc, hq, ht, hd, hleap⟩ := h
  rw [daysBeforeYear_eq]
  omega

end MarchDay

/-- The date of a day of a year that starts in March, as the code finds it. -/
def marchDate (year doy : ℤ) : ℤ × ℕ × ℕ :=
  let mp := (5 * doy + 2).tdiv 153
  let d := (doy - (153 * mp + 2).tdiv 5 + 1).toNat
  let m := (if mp < 10 then mp + 3 else mp - 9).toNat
  (if m ≤ 2 then year + 1 else year, m, d)

/-- **A day of a year from March to February.** -/
theorem marchDate_spec {year doy : ℤ} (hday : 0 ≤ doy ∧ doy ≤ 365)
    (hleap : doy = 365 → IsLeap (year + 1)) :
    IsDate (marchDate year doy).1 (marchDate year doy).2.1 (marchDate year doy).2.2 ∧
      dayNumber (marchDate year doy).1 (marchDate year doy).2.1 (marchDate year doy).2.2 =
        daysBeforeYear (year + 1) - 306 + doy := by
  have hmp : (5 * doy + 2).tdiv 153 = (5 * doy + 2) / 153 := Int.tdiv_eq_ediv_of_nonneg (by omega)
  rw [marchDate, hmp]
  obtain ⟨mp, hmp'⟩ : ∃ mp, mp = (5 * doy + 2) / 153 := ⟨_, rfl⟩
  rw [← hmp']
  have hle : 0 ≤ mp ∧ mp ≤ 11 := by omega
  obtain ⟨hlo, hhi⟩ := hle
  have hyear := daysBeforeYear_succ year
  have hfebruary := monthLength_two (year + 1)
  have hlast : doy < yearLength (year + 1) := by
    rw [yearLength]
    split
    · push_cast
      omega
    · rename_i hcommon
      have : doy ≠ 365 := fun heq ↦ hcommon (hleap heq)
      push_cast
      omega
  -- what is left is to look at each of the months
  interval_cases mp
  all_goals
    simp only [Int.reduceMul, Int.reduceAdd, Int.reduceTDiv, Int.reduceLT, Int.reduceSub, if_true,
      if_false, Int.reduceToNat, Nat.reduceLeDiff]
    refine ⟨⟨by decide, by decide, by omega, ?_⟩, ?_⟩
    · first
      | omega
      | (show _ ≤ 31; omega)
      | (show _ ≤ 30; omega)
    · rw [dayNumber, daysBeforeMonth_eq _ (by decide)]
      simp
      omega

/-- **`civil_from_days` gives the date of the day.** -/
theorem listing_civilFromDays_eq (h : MarchDay (days + 719468) e c q t doy) :
    Listing.civilFromDays days = marchDate (400 * e + (100 * c + 4 * q + t)) doy := by
  rw [Listing.civilFromDays]
  rw [h.era_eq, h.yoe_eq, h.doy_eq, marchDate]
  rw [show 100 * c + 4 * q + t + e * 400 = 400 * e + (100 * c + 4 * q + t) by ring]

/-! ### The arithmetic of `i64` -/

/-- `civil_from_days`, in `i64`. -/
def civilFromDays (days : ℤ) : Option (ℤ × ℕ × ℕ) := do
  let z ← add days 719468
  let low ← (if z ≥ 0 then some z else sub z 146096 :)
  let era := low.tdiv 146097
  let doe ← sub z (← mul era 146097)
  let yoe := (← sub (← add (← sub doe (doe.tdiv 1460)) (doe.tdiv 36524))
    (doe.tdiv 146096)).tdiv 365
  let y ← add yoe (← mul era 400)
  let doy ← sub doe (← Checked.sub
    (← add (← mul 365 yoe) (yoe.tdiv 4)) (yoe.tdiv 100))
  let mp := (← add (← mul 5 doy) 2).tdiv 153
  let d := asU32 (← add (← sub doy
    ((← add (← mul 153 mp) 2).tdiv 5)) 1)
  let m := asU32 (← (if mp < 10 then add mp 3 else sub mp 9 :))
  return (← (if m ≤ 2 then add y 1 else some y :), m, d)

/-- A broken-down UTC timestamp. -/
structure Tm where
  year : ℤ
  month : ℕ
  day : ℕ
  hour : ℕ
  min : ℕ
  sec : ℕ
  wday : ℕ
  yday : ℕ
deriving DecidableEq

/-- The days before each month of a common year. -/
def cum : List ℕ := [0, 31, 59, 90, 120, 151, 181, 212, 243, 273, 304, 334]

def gmtime (secs : ℤ) : Option Tm := do
  let days := secs / 86400
  let rem := secs % 86400
  let hour := asU32 (rem.tdiv 3600)
  let min := asU32 ((rem.tmod 3600).tdiv 60)
  let sec := asU32 (rem.tmod 60)
  -- 1970-01-01 was a Thursday
  let wday := asU32 ((← add (days % 7) 4).tmod 7)
  let z ← add days 719468
  let low ← (if z ≥ 0 then some z else sub z 146096 :)
  let era := low.tdiv 146097
  let doe ← sub z (← mul era 146097)
  let yoe := (← sub (← add (← sub doe (doe.tdiv 1460)) (doe.tdiv 36524)) (doe.tdiv 146096)).tdiv 365
  let y ← add yoe (← mul era 400)
  let doy ← sub doe (← sub (← add (← mul 365 yoe) (yoe.tdiv 4)) (yoe.tdiv 100))
  let mp := (← add (← mul 5 doy) 2).tdiv 153
  let day := asU32 (← add (← sub doy ((← add (← mul 153 mp) 2).tdiv 5)) 1)
  let month := asU32 (← (if mp < 10 then add mp 3 else sub mp 9 :))
  let year ← (if month ≤ 2 then add y 1 else some y :)
  let leap := (year.tmod 4 == 0 && year.tmod 100 != 0) || year.tmod 400 == 0
  let yday ← addU32 (← cum[← subU32 month 1]?) (← subU32 day 1)
  let yday ← (if leap && month > 2 then addU32 yday 1 else some yday :)
  return { year, month, day, hour, min, sec, wday, yday }

/-- What `gmtime` adds to the date. -/
def gmtimeOf (secs : ℤ) : ℤ × ℕ × ℕ → Option Tm := fun (year, month, day) ↦ do
  let leap := (year.tmod 4 == 0 && year.tmod 100 != 0) || year.tmod 400 == 0
  let yday ← addU32 (← cum[← subU32 month 1]?) (← subU32 day 1)
  let yday ← (if leap && month > 2 then addU32 yday 1 else some yday :)
  return {
    year, month, day, yday
    hour := asU32 ((secs % 86400).tdiv 3600)
    min := asU32 (((secs % 86400).tmod 3600).tdiv 60)
    sec := asU32 ((secs % 86400).tmod 60)
    wday := asU32 ((secs / 86400 % 7 + 4).tmod 7) }

/-- **`gmtime` computes the date that `civil_from_days` does**, with a copy of its steps. -/
theorem gmtime_eq_bind (secs : ℤ) :
    gmtime secs = (civilFromDays (secs / 86400)).bind (gmtimeOf secs) := by
  have hwday : add (secs / 86400 % 7) 4 = some (secs / 86400 % 7 + 4) :=
    add_eq (by omega) (by omega)
  unfold gmtime civilFromDays
  conv_lhs => dsimp only [Option.bind_eq_bind]
  conv_rhs => dsimp only [Option.bind_eq_bind]
  rw [hwday, Option.bind_some]
  repeat (rw [Option.bind_assoc]; refine Option.bind_congr fun _ _ ↦ ?_)
  rfl

/-- The days that seconds in `i64` give. -/
def IsDay (days : ℤ) : Prop := -106751991167301 ≤ days ∧ days ≤ 106751991167300

/-- **Nothing overflows.** -/
theorem civilFromDays_eq (h : MarchDay (days + 719468) e c q t doy) (hdays : IsDay days) :
    civilFromDays days = some (marchDate (400 * e + (100 * c + 4 * q + t)) doy) := by
  obtain ⟨hlow, hhigh⟩ := hdays
  have hera := h.era_eq
  have hyoe := h.yoe_eq
  have hdoy := h.doy_eq
  obtain ⟨heq, hc, hq, ht, hday, -⟩ := h
  -- the values of the steps, and how large they are
  obtain ⟨z, hz⟩ : ∃ z, days + 719468 = z := ⟨_, rfl⟩
  rw [hz] at hera hyoe hdoy heq
  obtain ⟨yoe, hyear⟩ : ∃ yoe, 100 * c + 4 * q + t = yoe := ⟨_, rfl⟩
  rw [hyear] at hyoe hdoy
  obtain ⟨doe, hdoe⟩ : ∃ doe, z - e * 146097 = doe := ⟨_, rfl⟩
  rw [hdoe] at hyoe hdoy
  have hdoe' : 0 ≤ doe ∧ doe < 146097 := by omega
  have hyoe' : 0 ≤ yoe ∧ yoe < 400 := by omega
  have he : -730692600 ≤ e ∧ e ≤ 730692600 := by omega
  clear heq hc hq ht
  obtain ⟨mp, hmp⟩ : ∃ mp, (5 * doy + 2).tdiv 153 = mp := ⟨_, rfl⟩
  have hmp' : mp = (5 * doy + 2) / 153 := by
    rw [← hmp, Int.tdiv_eq_ediv_of_nonneg (by omega)]
  have h1460 := Int.tdiv_eq_ediv_of_nonneg hdoe'.1 (b := 1460)
  have h36524 := Int.tdiv_eq_ediv_of_nonneg hdoe'.1 (b := 36524)
  have h146096 := Int.tdiv_eq_ediv_of_nonneg hdoe'.1 (b := 146096)
  have h4 := Int.tdiv_eq_ediv_of_nonneg hyoe'.1 (b := 4)
  have h100 := Int.tdiv_eq_ediv_of_nonneg hyoe'.1 (b := 100)
  have h5 : (153 * mp + 2).tdiv 5 = (153 * mp + 2) / 5 := Int.tdiv_eq_ediv_of_nonneg (by omega)
  rw [civilFromDays]
  dsimp only [add, sub, mul, Option.bind_eq_bind]
  rw [fits_bind, hz, ite_eq rfl (fits_eq (n := z - 146096) (by omega) (by omega)), Option.bind_some,
    hera, fits_bind, fits_bind, hdoe, fits_bind, fits_bind, fits_bind, hyoe, fits_bind, fits_bind,
    fits_bind, fits_bind, fits_bind, fits_bind, hdoy, fits_bind, fits_bind, hmp, fits_bind,
    fits_bind, fits_bind, fits_bind,
    ite_eq (fits_eq (n := mp + 3) (by omega) (by omega))
      (fits_eq (n := mp - 9) (by omega) (by omega)),
    Option.bind_some, ite_eq (fits_eq (n := yoe + e * 400 + 1) (by omega) (by omega)) rfl,
    Option.bind_some, Option.pure_def, marchDate, hmp, asU32_eq, asU32_eq]
  · rw [hyear, mul_comm 400 e, add_comm (e * 400)]
  all_goals omega

/-- **`fs.rs` has the same function** where the model of the listing has it, over all integers. -/
theorem civilFromDays_eq_listing (hdays : IsDay days) :
    civilFromDays days = some (Listing.civilFromDays days) := by
  obtain ⟨c, q, t, doy, h⟩ := exists_marchDay (days + 719468)
  rw [civilFromDays_eq h hdays, listing_civilFromDays_eq h]

/-- **`civil_from_days` gives the date of the day.** -/
theorem exists_civilFromDays (hdays : IsDay days) :
    ∃ y m d, civilFromDays days = some (y, m, d) ∧ IsDate y m d ∧ dayNumber y m d = days := by
  obtain ⟨c, q, t, doy, h⟩ := exists_marchDay (days + 719468)
  obtain ⟨hdate, hnumber⟩ := marchDate_spec h.day h.isLeap
  refine ⟨_, _, _, civilFromDays_eq h hdays, hdate, hnumber.trans ?_⟩
  rw [← h.sub_eq]
  omega

/-- The table has the days in front of a month of a common year. -/
theorem cum_getElem? {y : ℤ} {m : ℕ} (hpos : 1 ≤ m) (hle : m ≤ 12) :
    ∃ n, cum[m - 1]? = some n ∧ n ≤ 334 ∧
      daysBeforeMonth y m = n + if IsLeap y ∧ 2 < m then 1 else 0 := by
  have heq := daysBeforeMonth_eq y hle
  rw [yearLength] at heq
  interval_cases m <;> refine ⟨_, rfl, by decide, ?_⟩ <;> by_cases hleap : IsLeap y <;>
    simp [hleap] at heq ⊢ <;> omega

theorem isLeap_iff_tmod (y : ℤ) :
    ((y.tmod 4 == 0 && y.tmod 100 != 0) || y.tmod 400 == 0) = true ↔ IsLeap y := by
  simp only [Bool.or_eq_true, Bool.and_eq_true, beq_iff_eq, bne_iff_ne, ne_eq,
    ← Int.dvd_iff_tmod_eq_zero, IsLeap]
  omega

/-- **The day of the year.** -/
theorem gmtimeOf_eq {y : ℤ} {m d : ℕ} (secs : ℤ) (hdate : IsDate y m d) :
    gmtimeOf secs (y, m, d) = some {
      year := y, month := m, day := d
      hour := (secs % 86400 / 3600).toNat
      min := (secs % 3600 / 60).toNat
      sec := (secs % 60).toNat
      wday := ((secs / 86400 + 4) % 7).toNat
      yday := daysBeforeMonth y m + (d - 1) } := by
  have hday : d ≤ 31 := hdate.day_le.trans (monthLength_le y m)
  obtain ⟨n, hn, hle, hbefore⟩ := cum_getElem? (y := y) hdate.month_pos hdate.month_le
  have hhour : (secs % 86400).tdiv 3600 = secs % 86400 / 3600 :=
    Int.tdiv_eq_ediv_of_nonneg (by omega)
  have hrem : (secs % 86400).tmod 3600 = secs % 3600 := by
    rw [Int.tmod_eq_emod_of_nonneg (by omega)]
    omega
  have hmin : (secs % 3600).tdiv 60 = secs % 3600 / 60 := Int.tdiv_eq_ediv_of_nonneg (by omega)
  have hsec : (secs % 86400).tmod 60 = secs % 60 := by
    rw [Int.tmod_eq_emod_of_nonneg (by omega)]
    omega
  have hwday : (secs / 86400 % 7 + 4).tmod 7 = (secs / 86400 + 4) % 7 := by
    rw [Int.tmod_eq_emod_of_nonneg (by omega)]
    omega
  rw [gmtimeOf, subU32_eq hdate.month_pos, subU32_eq hdate.day_pos, hhour, hrem, hmin, hsec, hwday,
    asU32_eq (by omega) (by omega), asU32_eq (by omega) (by omega), asU32_eq (by omega) (by omega),
    asU32_eq (by omega) (by omega)]
  dsimp only [Option.bind_eq_bind, Option.bind_some]
  rw [hn, Option.bind_some, addU32_eq (by omega), Option.bind_some]
  have htest : (((y.tmod 4 == 0 && y.tmod 100 != 0) || y.tmod 400 == 0) && decide (m > 2)) = true ↔
      IsLeap y ∧ 2 < m := by
    rw [Bool.and_eq_true, isLeap_iff_tmod, decide_eq_true_iff]
  by_cases hleap : IsLeap y ∧ 2 < m
  · rw [if_pos hleap] at hbefore
    rw [if_pos (htest.mpr hleap), addU32_eq (by omega), Option.bind_some, hbefore]
    congr 2
    omega
  · rw [if_neg hleap] at hbefore
    rw [if_neg (htest.not.mpr hleap), Option.bind_some, hbefore]
    rfl


/-- **The conversion is exact**: for all seconds that `i64` has, nothing overflows, the date and the
time of the day are those whose offset from 1970-01-01 is as many seconds, the day of the week and
that of the year are the date's, and `fs::civil_from_days` has the same date. -/
theorem gmtime_exact (secs : Int64) : ∃ tm, gmtime secs.toInt = some tm ∧
    IsDate tm.year tm.month tm.day ∧ tm.hour < 24 ∧ tm.min < 60 ∧ tm.sec < 60 ∧
    dayNumber tm.year tm.month tm.day * 86400 + (tm.hour * 3600 + tm.min * 60 + tm.sec) =
      secs.toInt ∧
    tm.wday = weekday (dayNumber tm.year tm.month tm.day) ∧
    tm.yday = daysBeforeMonth tm.year tm.month + (tm.day - 1) ∧
    civilFromDays (secs.toInt / 86400) = some (tm.year, tm.month, tm.day) := by
  have hlow := Int64.le_toInt secs
  have hhigh := Int64.toInt_lt secs
  have hdays : IsDay (secs.toInt / 86400) := by
    rw [IsDay]
    omega
  obtain ⟨y, m, d, hcivil, hdate, hnumber⟩ := exists_civilFromDays hdays
  have hgmtime := gmtime_eq_bind secs.toInt
  rw [hcivil, Option.bind_some, gmtimeOf_eq _ hdate] at hgmtime
  refine ⟨_, hgmtime, hdate, ?_, ?_, ?_, ?_, ?_, rfl, hcivil⟩
  · dsimp only
    omega
  · dsimp only
    omega
  · dsimp only
    omega
  · rw [hnumber]
    dsimp only
    omega
  · rw [hnumber, weekday]

end Dates

end Mimic
