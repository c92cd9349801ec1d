/-
The proleptic Gregorian calendar.

A date is valid by the lengths of the months, and each date has a next one.  So the date that
is `n` days after the first of January 1970 is found by going `n` times to the next date.
Programs compute it instead from eras of 400 years, each of 146097 days, and from years that
begin in March, so that the leap day is the last of its year.

* `dayNumber_next`, `dayNumber_inj` — a valid date is known by the number of its day;
* `yearOfEra_spec` — the year of an era that a day falls into;
* `ofDays_eq` — **the date that is computed from the number of a day is the one that is
  counted**.
-/
import Mathlib.Logic.Function.Iterate
import Mathlib.Tactic.Common
import Mathlib.Tactic.IntervalCases

namespace Gregorian

/-! ### Dates -/

/-- A year in four is a leap year, but of the centuries only one in four. -/
def IsLeap (y : ℤ) : Prop := y % 4 = 0 ∧ (y % 100 ≠ 0 ∨ y % 400 = 0)

instance (y : ℤ) : Decidable (IsLeap y) := inferInstanceAs (Decidable (_ ∧ _))

def daysInMonth (y m : ℤ) : ℤ :=
  if m = 2 then if IsLeap y then 29 else 28
  else if m = 4 ∨ m = 6 ∨ m = 9 ∨ m = 11 then 30
  else 31

structure Date where
  year : ℤ
  month : ℤ
  day : ℤ
  deriving DecidableEq

namespace Date

structure Valid (d : Date) : Prop where
  month_pos : 1 ≤ d.month
  month_le : d.month ≤ 12
  day_pos : 1 ≤ d.day
  day_le : d.day ≤ daysInMonth d.year d.month

/-- The next day. -/
def next (d : Date) : Date :=
  if d.day < daysInMonth d.year d.month then ⟨d.year, d.month, d.day + 1⟩
  else if d.month < 12 then ⟨d.year, d.month + 1, 1⟩
  else ⟨d.year + 1, 1, 1⟩

end Date

def epoch : Date := ⟨1970, 1, 1⟩

/-- The date so many days after the epoch. -/
def dateAfter (n : ℕ) : Date := Date.next^[n] epoch

/-! ### Numbers of days -/

/-- The days that a leap year has more. -/
def leapDay (y : ℤ) : ℤ := if IsLeap y then 1 else 0

/-- The days of the years before a year, from the year one. -/
def daysBeforeYear (y : ℤ) : ℤ := 365 * (y - 1) + (y - 1) / 4 - (y - 1) / 100 + (y - 1) / 400

/-- The days of the months before a month. -/
def daysBeforeMonth (y m : ℤ) : ℤ :=
  if m ≤ 2 then 31 * (m - 1) else 59 + leapDay y + (153 * (m - 3) + 2) / 5

/-- The number of a day, where the first day of the year one is the first. -/
def dayNumber (d : Date) : ℤ :=
  daysBeforeYear d.year + daysBeforeMonth d.year d.month + d.day

theorem leapDay_bounds (y : ℤ) : 0 ≤ leapDay y ∧ leapDay y ≤ 1 := by
  unfold leapDay
  split <;> omega

theorem daysBeforeYear_succ (y : ℤ) :
    daysBeforeYear (y + 1) = daysBeforeYear y + 365 + leapDay y := by
  have hleap : y / 4 - y / 100 + y / 400 - ((y - 1) / 4 - (y - 1) / 100 + (y - 1) / 400) =
      leapDay y := by
    unfold leapDay
    by_cases h : IsLeap y
    · rw [if_pos h]
      unfold IsLeap at h
      omega
    · rw [if_neg h]
      unfold IsLeap at h
      omega
  rw [daysBeforeYear, daysBeforeYear, add_sub_cancel_right]
  omega

theorem daysInMonth_pos (y m : ℤ) : 1 ≤ daysInMonth y m := by
  unfold daysInMonth
  split_ifs <;> omega

theorem daysInMonth_february (y : ℤ) : daysInMonth y 2 = 28 + leapDay y := by
  rw [daysInMonth, if_pos rfl, leapDay]
  split <;> rfl

/-- A month begins where the one before ends. -/
theorem daysBeforeMonth_succ (y : ℤ) {m : ℤ} (hm : 1 ≤ m) (hm' : m ≤ 11) :
    daysBeforeMonth y (m + 1) = daysBeforeMonth y m + daysInMonth y m := by
  by_cases h : m = 2
  · subst h
    rw [daysInMonth_february]
    show 59 + leapDay y + (153 * (3 - 3) + 2) / 5 = 31 * (2 - 1) + _
    omega
  · rw [daysInMonth, if_neg h, daysBeforeMonth, daysBeforeMonth]
    -- one case for each month
    interval_cases m <;> simp at h ⊢ <;> omega

theorem daysBeforeMonth_december (y : ℤ) :
    daysBeforeMonth y 12 + daysInMonth y 12 = 365 + leapDay y := by
  show 59 + leapDay y + (153 * (12 - 3) + 2) / 5 + 31 = _
  omega

/-- **The next date is valid and has the next number.** -/
theorem dayNumber_next {d : Date} (h : d.Valid) :
    d.next.Valid ∧ dayNumber d.next = dayNumber d + 1 := by
  obtain ⟨hm, hm', hd, hd'⟩ := h
  unfold Date.next
  by_cases hday : d.day < daysInMonth d.year d.month
  · rw [if_pos hday]
    refine ⟨⟨hm, hm', ?_, ?_⟩, ?_⟩
    · show 1 ≤ d.day + 1
      omega
    · exact hday
    · show daysBeforeYear d.year + daysBeforeMonth d.year d.month + (d.day + 1) = _
      rw [dayNumber]
      omega
  · rw [if_neg hday]
    have hlast : d.day = daysInMonth d.year d.month := by omega
    by_cases hmonth : d.month < 12
    · rw [if_pos hmonth]
      refine ⟨⟨?_, ?_, le_refl _, daysInMonth_pos _ _⟩, ?_⟩
      · show 1 ≤ d.month + 1
        omega
      · show d.month + 1 ≤ 12
        omega
      · show daysBeforeYear d.year + daysBeforeMonth d.year (d.month + 1) + 1 = _
        rw [daysBeforeMonth_succ d.year hm (by omega), dayNumber, hlast]
        omega
    · rw [if_neg hmonth]
      have hdecember : d.month = 12 := by omega
      refine ⟨⟨le_refl _, (by decide : (1 : ℤ) ≤ 12), le_refl _, daysInMonth_pos _ _⟩, ?_⟩
      show daysBeforeYear (d.year + 1) + daysBeforeMonth (d.year + 1) 1 + 1 = _
      have hyear := daysBeforeMonth_december d.year
      have hjanuary : daysBeforeMonth (d.year + 1) 1 = 0 := rfl
      rw [daysBeforeYear_succ, hjanuary, dayNumber, hlast, hdecember]
      omega

/-! ### Dates by their numbers -/

/-- A month ends before each later one begins. -/
theorem daysBeforeMonth_le (y : ℤ) {m m' : ℤ} (hm : 1 ≤ m) (h : m < m') (hm' : m' ≤ 12) :
    daysBeforeMonth y m + daysInMonth y m ≤ daysBeforeMonth y m' := by
  rw [← daysBeforeMonth_succ y hm (by omega)]
  have hleap := leapDay_bounds y
  unfold daysBeforeMonth
  split_ifs <;> omega

/-- A valid date is a day of its year. -/
theorem dayNumber_bounds {d : Date} (h : d.Valid) :
    daysBeforeYear d.year < dayNumber d ∧ dayNumber d ≤ daysBeforeYear (d.year + 1) := by
  obtain ⟨hm, hm', hd, hd'⟩ := h
  have hleap := leapDay_bounds d.year
  have hfirst : 0 ≤ daysBeforeMonth d.year d.month := by
    unfold daysBeforeMonth
    split_ifs <;> omega
  have hlast : daysBeforeMonth d.year d.month + daysInMonth d.year d.month ≤
      365 + leapDay d.year := by
    rw [← daysBeforeMonth_december]
    by_cases h12 : d.month = 12
    · rw [h12]
    · have := daysBeforeMonth_le d.year hm (by omega : d.month < 12) (le_refl _)
      have := daysInMonth_pos d.year 12
      omega
  rw [daysBeforeYear_succ, dayNumber]
  omega

theorem daysBeforeYear_mono {y y' : ℤ} (h : y ≤ y') : daysBeforeYear y ≤ daysBeforeYear y' := by
  unfold daysBeforeYear
  omega

/-- **Valid dates with the same number are the same.** -/
theorem dayNumber_inj {d d' : Date} (h : d.Valid) (h' : d'.Valid)
    (hnumber : dayNumber d = dayNumber d') : d = d' := by
  have hb := dayNumber_bounds h
  have hb' := dayNumber_bounds h'
  have hyear : d.year = d'.year := by
    rcases lt_trichotomy d.year d'.year with hlt | heq | hlt
    · have := daysBeforeYear_mono (by omega : d.year + 1 ≤ d'.year)
      omega
    · exact heq
    · have := daysBeforeYear_mono (by omega : d'.year + 1 ≤ d.year)
      omega
  obtain ⟨hm₁, hm₂, hd₁, hd₂⟩ := h
  obtain ⟨hm₁', hm₂', hd₁', hd₂'⟩ := h'
  rw [dayNumber, dayNumber, ← hyear] at hnumber
  rw [← hyear] at hd₂'
  have hmonth : d.month = d'.month := by
    rcases lt_trichotomy d.month d'.month with hlt | heq | hlt
    · have := daysBeforeMonth_le d.year hm₁ hlt hm₂'
      omega
    · exact heq
    · have := daysBeforeMonth_le d.year hm₁' hlt hm₂
      omega
  rw [← hmonth] at hnumber
  have hday : d.day = d'.day := by omega
  cases d
  cases d'
  cases hyear
  cases hmonth
  cases hday
  rfl

theorem epoch_valid : epoch.Valid := by
  constructor <;> decide

theorem dateAfter_spec (n : ℕ) :
    (dateAfter n).Valid ∧ dayNumber (dateAfter n) = dayNumber epoch + n := by
  induction n with
  | zero => exact ⟨epoch_valid, (add_zero _).symm⟩
  | succ n ih =>
    obtain ⟨hvalid, hnumber⟩ := ih
    have hnext : dateAfter (n + 1) = (dateAfter n).next := Function.iterate_succ_apply' _ _ _
    obtain ⟨hvalid', hnumber'⟩ := dayNumber_next hvalid
    rw [hnext]
    refine ⟨hvalid', ?_⟩
    rw [hnumber', hnumber]
    push_cast
    omega

/-! ### Dates from the numbers of days -/

/-- The days of an era before one of its years, which begins in March. -/
def daysBeforeYearOfEra (yoe : ℤ) : ℤ := 365 * yoe + yoe / 4 - yoe / 100

/-- The year of an era that one of its days falls into. -/
def yearOfEra (doe : ℤ) : ℤ := (doe - doe / 1460 + doe / 36524 - doe / 146096) / 365

/-- The day of that year. -/
def dayOfYear (doe : ℤ) : ℤ := doe - daysBeforeYearOfEra (yearOfEra doe)

/-- The month of a day, from March on. -/
def marchMonth (doy : ℤ) : ℤ := (5 * doy + 2) / 153

/-- The days of a year that begins in March before one of its months. -/
def daysBeforeMarchMonth (mp : ℤ) : ℤ := (153 * mp + 2) / 5

/-- The date of a day of a year that begins in March. -/
def ofDayOfYear (y doy : ℤ) : Date :=
  let mp := marchMonth doy
  let day := doy - daysBeforeMarchMonth mp + 1
  if mp < 10 then ⟨y, mp + 3, day⟩ else ⟨y + 1, mp - 9, day⟩

/-- The date so many days after the epoch, from the era of the day. -/
def ofDays (days : ℤ) : Date :=
  let z := days + 719468
  ofDayOfYear (yearOfEra (z % 146097) + z / 146097 * 400) (dayOfYear (z % 146097))

/-- A day of an era: its century, its four years of the century and its day of these. -/
structure EraDay (doe c q r : ℤ) : Prop where
  century_pos : 0 ≤ c
  century_le : c ≤ 3
  quad_pos : 0 ≤ q
  quad_le : q ≤ 24
  day_pos : 0 ≤ r
  day_le : r ≤ 1460
  eq : doe = 36524 * c + 1461 * q + r
  /-- Only the last century has its last leap day. -/
  century : c < 3 → 1461 * q + r ≤ 36523

theorem exists_eraDay {doe : ℤ} (h : 0 ≤ doe) (h' : doe < 146097) : ∃ c q r, EraDay doe c q r := by
  refine ⟨min (doe / 36524) 3, (doe - 36524 * min (doe / 36524) 3) / 1461,
    (doe - 36524 * min (doe / 36524) 3) % 1461, ?_⟩
  constructor <;> omega

/-- The century of a day, by division. -/
theorem EraDay.centuries {doe c q r : ℤ} (h : EraDay doe c q r) :
    doe / 36524 - doe / 146096 = c := by
  obtain ⟨hc, hc', hq, hq', hr, hr', rfl, hcentury⟩ := h
  rcases (by omega : c = 0 ∨ c = 1 ∨ c = 2 ∨ c = 3) with rfl | rfl | rfl | rfl
  · have := hcentury (by omega)
    omega
  · have := hcentury (by omega)
    omega
  · have := hcentury (by omega)
    omega
  · omega

/-- The year of a day: the last of four years has one day more than the others. -/
theorem EraDay.yearOfEra {doe c q r : ℤ} (h : EraDay doe c q r) :
    yearOfEra doe = 100 * c + 4 * q + min (r / 365) 3 := by
  have hcenturies := h.centuries
  obtain ⟨hc, hc', hq, hq', hr, hr', hdoe, -⟩ := h
  have hquads : doe / 1460 = 25 * c + q + (24 * c + q + r) / 1460 := by omega
  have hsum : doe - doe / 1460 + doe / 36524 - doe / 146096 =
      365 * (100 * c + 4 * q) + (r - (24 * c + q + r) / 1460) := by omega
  rw [Gregorian.yearOfEra, hsum]
  clear hsum hquads hcenturies hdoe
  rcases (by omega : (24 * c + q + r) / 1460 = 0 ∨ (24 * c + q + r) / 1460 = 1) with hr | hr
  · rw [hr]
    omega
  · rw [hr]
    omega

/-- **The year of an era is the one that has begun and has not ended.** -/
theorem yearOfEra_spec {doe : ℤ} (h : 0 ≤ doe) (h' : doe < 146097) :
    0 ≤ yearOfEra doe ∧ yearOfEra doe ≤ 399 ∧ daysBeforeYearOfEra (yearOfEra doe) ≤ doe ∧
      doe < daysBeforeYearOfEra (yearOfEra doe + 1) + (yearOfEra doe + 1) / 400 := by
  obtain ⟨c, q, r, hday⟩ := exists_eraDay h h'
  have hyear := hday.yearOfEra
  generalize yearOfEra doe = k at hyear ⊢
  obtain ⟨hc, hc', hq, hq', hr, hr', rfl, hcentury⟩ := hday
  have hlast : c < 3 → q = 24 → r ≤ 1459 := by
    intro hc hq
    have := hcentury hc
    omega
  clear h h' hcentury
  unfold daysBeforeYearOfEra
  rcases (by omega : r / 365 = 0 ∨ r / 365 = 1 ∨ r / 365 = 2 ∨ 3 ≤ r / 365) with h | h | h | h
  · omega
  · omega
  · omega
  · omega

/-- Leap years come back after 400 years. -/
theorem leapDay_add_era (y era : ℤ) : leapDay (y + era * 400) = leapDay y := by
  have hleap : IsLeap (y + era * 400) ↔ IsLeap y := by
    unfold IsLeap
    omega
  rw [leapDay, leapDay, if_congr hleap rfl rfl]

theorem dayOfYear_bounds {doe : ℤ} (h : 0 ≤ doe) (h' : doe < 146097) (era : ℤ) :
    0 ≤ dayOfYear doe ∧
      dayOfYear doe ≤ 364 + leapDay (yearOfEra doe + era * 400 + 1) := by
  obtain ⟨hpos, hle, hbegun, hended⟩ := yearOfEra_spec h h'
  have hyear := daysBeforeYear_succ (yearOfEra doe + 1)
  have hleap : leapDay (yearOfEra doe + era * 400 + 1) = leapDay (yearOfEra doe + 1) := by
    rw [add_right_comm, leapDay_add_era]
  rw [hleap, dayOfYear]
  unfold daysBeforeYear at hyear
  unfold daysBeforeYearOfEra at hbegun hended ⊢
  rw [add_sub_cancel_right, add_sub_cancel_right] at hyear
  omega

/-- A day of a year that begins in March falls into the month that has begun. -/
theorem marchMonth_spec {doy : ℤ} (h : 0 ≤ doy) (h' : doy ≤ 365) :
    0 ≤ marchMonth doy ∧ marchMonth doy ≤ 11 ∧ daysBeforeMarchMonth (marchMonth doy) ≤ doy ∧
      doy < daysBeforeMarchMonth (marchMonth doy + 1) := by
  unfold daysBeforeMarchMonth marchMonth
  omega

/-- The months from March to December have the lengths that the division gives them. -/
theorem daysInMonth_march (y : ℤ) {mp : ℤ} (h : 0 ≤ mp) (h' : mp ≤ 9) :
    daysInMonth y (mp + 3) = daysBeforeMarchMonth (mp + 1) - daysBeforeMarchMonth mp := by
  -- one case for each month
  interval_cases mp <;> rfl

/-- **A day of a year that begins in March has a valid date.** -/
theorem ofDayOfYear_spec {y doy : ℤ} (h : 0 ≤ doy) (h' : doy ≤ 364 + leapDay (y + 1)) :
    (ofDayOfYear y doy).Valid ∧
      dayNumber (ofDayOfYear y doy) = daysBeforeYear (y + 1) + doy - 305 := by
  have hleap := leapDay_bounds (y + 1)
  obtain ⟨hpos, hle, hbegun, hended⟩ := marchMonth_spec h (by omega)
  unfold ofDayOfYear
  generalize marchMonth doy = mp at hpos hle hbegun hended ⊢
  -- from March to December the year is the one before the next January
  by_cases hmp : mp < 10
  · rw [if_pos hmp]
    refine ⟨⟨?_, ?_, ?_, ?_⟩, ?_⟩
    · show 1 ≤ mp + 3
      omega
    · show mp + 3 ≤ 12
      omega
    · show 1 ≤ doy - daysBeforeMarchMonth mp + 1
      omega
    · show doy - daysBeforeMarchMonth mp + 1 ≤ daysInMonth y (mp + 3)
      rw [daysInMonth_march y hpos (by omega)]
      omega
    · show daysBeforeYear y + daysBeforeMonth y (mp + 3) + (doy - daysBeforeMarchMonth mp + 1) = _
      rw [daysBeforeYear_succ, daysBeforeMonth, if_neg (by omega), add_sub_cancel_right,
        daysBeforeMarchMonth]
      omega
  · rw [if_neg hmp]
    rcases (by omega : mp = 10 ∨ mp = 11) with rfl | rfl
    · -- January
      have hbegin : daysBeforeMarchMonth 10 = 306 := rfl
      have hend : daysBeforeMarchMonth (10 + 1) = 337 := rfl
      have hlength : daysInMonth (y + 1) (10 - 9) = 31 := rfl
      have hmonth : daysBeforeMonth (y + 1) (10 - 9) = 0 := rfl
      refine ⟨⟨(by decide : (1 : ℤ) ≤ 10 - 9), (by decide : (10 : ℤ) - 9 ≤ 12), ?_, ?_⟩, ?_⟩
      · show 1 ≤ doy - daysBeforeMarchMonth 10 + 1
        omega
      · show doy - daysBeforeMarchMonth 10 + 1 ≤ daysInMonth (y + 1) (10 - 9)
        omega
      · show daysBeforeYear (y + 1) + daysBeforeMonth (y + 1) (10 - 9) +
          (doy - daysBeforeMarchMonth 10 + 1) = _
        omega
    · -- February, which ends the year
      have hbegin : daysBeforeMarchMonth 11 = 337 := rfl
      have hlength : daysInMonth (y + 1) (11 - 9) = 28 + leapDay (y + 1) :=
        daysInMonth_february (y + 1)
      have hmonth : daysBeforeMonth (y + 1) (11 - 9) = 31 := rfl
      refine ⟨⟨(by decide : (1 : ℤ) ≤ 11 - 9), (by decide : (11 : ℤ) - 9 ≤ 12), ?_, ?_⟩, ?_⟩
      · show 1 ≤ doy - daysBeforeMarchMonth 11 + 1
        omega
      · show doy - daysBeforeMarchMonth 11 + 1 ≤ daysInMonth (y + 1) (11 - 9)
        omega
      · show daysBeforeYear (y + 1) + daysBeforeMonth (y + 1) (11 - 9) +
          (doy - daysBeforeMarchMonth 11 + 1) = _
        omega

theorem ofDays_spec (days : ℤ) :
    (ofDays days).Valid ∧ dayNumber (ofDays days) = dayNumber epoch + days := by
  have hepoch : dayNumber epoch = 719163 := rfl
  have hpos : 0 ≤ (days + 719468) % 146097 := Int.emod_nonneg _ (by decide)
  have hlt : (days + 719468) % 146097 < 146097 := Int.emod_lt_of_pos _ (by decide)
  have hdoy := dayOfYear_bounds hpos hlt ((days + 719468) / 146097)
  obtain ⟨hvalid, hnumber⟩ := ofDayOfYear_spec hdoy.1 hdoy.2
  refine ⟨hvalid, hnumber.trans ?_⟩
  obtain ⟨hyear, hyear', -, -⟩ := yearOfEra_spec hpos hlt
  have hera := Int.emod_add_mul_ediv (days + 719468) 146097
  rw [hepoch, dayOfYear, daysBeforeYear, daysBeforeYearOfEra, add_sub_cancel_right]
  generalize yearOfEra ((days + 719468) % 146097) = yoe at hyear hyear' ⊢
  generalize (days + 719468) / 146097 = era at hera ⊢
  generalize (days + 719468) % 146097 = doe at hera ⊢
  omega

/-- **The date that is computed is the one that is counted.** -/
theorem ofDays_eq (n : ℕ) : ofDays n = dateAfter n := by
  obtain ⟨hvalid, hnumber⟩ := ofDays_spec n
  obtain ⟨hvalid', hnumber'⟩ := dateAfter_spec n
  exact dayNumber_inj hvalid hvalid' (hnumber.trans hnumber'.symm)

example : ofDays 11016 = ⟨2000, 2, 29⟩ := by decide

end Gregorian
