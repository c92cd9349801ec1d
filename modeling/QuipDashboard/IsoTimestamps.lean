/-
ISO-8601 timestamps of milliseconds.

The model of `format_iso8601_ms` and `civil_from_days` in `quip-dashboard/src/miner/parse.rs`,
with the arithmetic of their machine integers and with what is done where a conversion has no
value: the source takes a default there.

* `civilFromDays_eq` — `civil_from_days` computes the date of the calendar, without a fault;
* `readTimestamp_timestampText` — the fields of a timestamp are read back from its text;
* `formatIso8601Ms_exact` — **the text of every number of milliseconds denotes its instant, and
  no operation overflows and no default is taken on the way**.
-/
import QuipDashboard.GregorianCalendar
import QuipDashboard.MachineInts
import QuipDashboard.PaddedTexts

namespace Dashboard

open DigitOrder Gregorian MachineInts IntType

/-! ### The functions -/

/-- `unwrap_or`, with what is done with the default. -/
def unwrapOr (fallback : ℤ → Except Fault ℤ) (o : Option ℤ) (default : ℤ) : Except Fault ℤ :=
  match o with
  | some n => .ok n
  | none => fallback default

section

variable (fallback : ℤ → Except Fault ℤ)

/-- `civil_from_days`. -/
def civilFromDays (days : ℤ) : Except Fault Date := do
  let z ← i64.add days 719468
  let era := z / 146097
  let doe ← unwrapOr fallback (u32.tryFrom (z % 146097)) 0
  let quads ← u32.sub doe (doe / 1460)
  let centuries ← u32.add quads (doe / 36524)
  let eras ← u32.sub centuries (doe / 146096)
  let yoe := eras / 365
  let years ← i64.mul era 400
  let sum ← i64.add yoe years
  let y ← unwrapOr fallback (i32.tryFrom sum) 1970
  let yearDays ← u32.mul 365 yoe
  let leapDays ← u32.add yearDays (yoe / 4)
  let before ← u32.sub leapDays (yoe / 100)
  let doy ← u32.sub doe before
  let fifths ← u32.mul 5 doy
  let shifted ← u32.add fifths 2
  let mp := shifted / 153
  let monthFifths ← u32.mul 153 mp
  let shiftedMonth ← u32.add monthFifths 2
  let inMonth ← u32.sub doy (shiftedMonth / 5)
  let d ← u32.add inMonth 1
  let m ← (if mp < 10 then u32.add mp 3 else u32.sub mp 9)
  let year ← (if m ≤ 2 then i32.add y 1 else .ok y)
  return ⟨year, m, d⟩

/-- A number with at least so many characters, by zeros after its sign. -/
def zeroPadded (k : ℕ) (n : ℤ) : List Char :=
  if n < 0 then '-' :: padded (k - 1) (text n.natAbs) else padded k (text n.natAbs)

/-- The format of `format_iso8601_ms`. -/
def timestampText (date : Date) (hour min sec millis : ℤ) : List Char :=
  zeroPadded 4 date.year ++ '-' :: (zeroPadded 2 date.month ++ '-' :: (zeroPadded 2 date.day ++
    'T' :: (zeroPadded 2 hour ++ ':' :: (zeroPadded 2 min ++ ':' :: (zeroPadded 2 sec ++
      '.' :: (zeroPadded 3 millis ++ ['Z']))))))

/-- `format_iso8601_ms`, where a conversion without a value goes to `fallback`: the source
goes on with the default, which is `Except.ok`. -/
def formatIso8601MsWith (unixMs : UInt64) : Except Fault (List Char) := do
  let secs ← unwrapOr fallback (i64.tryFrom ((unixMs.toNat : ℤ) / 1000)) 0
  let millis := (unixMs.toNat : ℤ) % 1000
  let days := secs / 86400
  let tod ← unwrapOr fallback (u64.tryFrom (secs % 86400)) 0
  let hour := tod / 3600
  let min := tod % 3600 / 60
  let sec := tod % 60
  let date ← civilFromDays fallback days
  return timestampText date hour min sec millis

end

/-- `format_iso8601_ms`. -/
def formatIso8601Ms (unixMs : UInt64) : Except Fault (List Char) := formatIso8601MsWith .ok unixMs

/-! ### The calendar -/

theorem bind_ok {α β : Type} {x : Except Fault α} {a : α} (h : x = .ok a)
    (f : α → Except Fault β) : (x >>= f) = f a := by
  rw [h]
  rfl

theorem unwrapOr_eq {fallback : ℤ → Except Fault ℤ} {t : IntType} {n default : ℤ}
    (h : t.Fits n) : unwrapOr fallback (t.tryFrom n) default = .ok n := by
  rw [tryFrom_eq h]
  rfl

/-- Days whose years are well within an `i32`. -/
def InRange (days : ℤ) : Prop := -2 ^ 39 ≤ days ∧ days < 2 ^ 39

/-- **`civil_from_days` computes the date, within its types and without a default.** -/
theorem civilFromDays_eq (fallback : ℤ → Except Fault ℤ) {days : ℤ} (h : InRange days) :
    civilFromDays fallback days = .ok (ofDays days) := by
  obtain ⟨hlow, hhigh⟩ := h
  have hpos : 0 ≤ (days + 719468) % 146097 := Int.emod_nonneg _ (by decide)
  have hlt : (days + 719468) % 146097 < 146097 := Int.emod_lt_of_pos _ (by decide)
  have hera : -4000000 ≤ (days + 719468) / 146097 ∧ (days + 719468) / 146097 ≤ 4000000 := by
    omega
  have hdoy := dayOfYear_bounds hpos hlt 0
  obtain ⟨hyoe, hyoe', hbegun, -⟩ := yearOfEra_spec hpos hlt
  have hleap := leapDay_bounds (yearOfEra ((days + 719468) % 146097) + 0 * 400 + 1)
  have hz : i64.Fits (days + 719468) := by
    show -2 ^ 63 ≤ _ ∧ _ ≤ 2 ^ 63 - 1
    omega
  rw [civilFromDays, bind_ok (add_eq hz), ofDays]
  simp only []
  generalize (days + 719468) % 146097 = doe at hpos hlt hdoy hyoe hyoe' hbegun hleap ⊢
  generalize (days + 719468) / 146097 = era at hera ⊢
  have hu32 : ∀ n, 0 ≤ n → n ≤ 200000 → u32.Fits n := by
    intro n h h'
    show 0 ≤ n ∧ n ≤ 2 ^ 32 - 1
    omega
  have hi64 : ∀ n, -2000000000 ≤ n → n ≤ 2000000000 → i64.Fits n := by
    intro n h h'
    show -2 ^ 63 ≤ n ∧ n ≤ 2 ^ 63 - 1
    omega
  -- the year of the era
  rw [bind_ok (unwrapOr_eq (hu32 doe hpos (by omega))),
    bind_ok (sub_eq (hu32 _ (by omega) (by omega))),
    bind_ok (add_eq (hu32 _ (by omega) (by omega))),
    bind_ok (sub_eq (hu32 _ (by omega) (by omega)))]
  have hyear : (doe - doe / 1460 + doe / 36524 - doe / 146096) / 365 = yearOfEra doe := rfl
  have hday : doe - (365 * yearOfEra doe + yearOfEra doe / 4 - yearOfEra doe / 100) =
      dayOfYear doe := rfl
  rw [hyear]
  generalize yearOfEra doe = yoe at hyoe hyoe' hbegun hleap hday hdoy ⊢
  unfold daysBeforeYearOfEra at hbegun
  have hi32 : ∀ n, -2000000000 ≤ n → n ≤ 2000000000 → i32.Fits n := by
    intro n h h'
    show -2 ^ 31 ≤ n ∧ n ≤ 2 ^ 31 - 1
    omega
  -- the year, and the day of it that begins in March
  rw [bind_ok (mul_eq (hi64 _ (by omega) (by omega))),
    bind_ok (add_eq (hi64 _ (by omega) (by omega))),
    bind_ok (unwrapOr_eq (hi32 _ (by omega) (by omega))),
    bind_ok (mul_eq (hu32 _ (by omega) (by omega))),
    bind_ok (add_eq (hu32 _ (by omega) (by omega))),
    bind_ok (sub_eq (hu32 _ (by omega) (by omega))),
    bind_ok (sub_eq (hu32 _ (by omega) (by omega))), hday]
  have hdoy' : 0 ≤ dayOfYear doe ∧ dayOfYear doe ≤ 365 := by omega
  generalize dayOfYear doe = doy at hdoy' ⊢
  obtain ⟨hmp, hmp', hmonth, -⟩ := marchMonth_spec hdoy'.1 hdoy'.2
  have hfold : (5 * doy + 2) / 153 = marchMonth doy := rfl
  -- the month that begins in March, and the day of it
  rw [bind_ok (mul_eq (hu32 _ (by omega) (by omega))),
    bind_ok (add_eq (hu32 _ (by omega) (by omega))), hfold]
  unfold ofDayOfYear
  generalize marchMonth doy = mp at hmp hmp' hmonth ⊢
  unfold daysBeforeMarchMonth at hmonth ⊢
  rw [bind_ok (mul_eq (hu32 _ (by omega) (by omega))),
    bind_ok (add_eq (hu32 _ (by omega) (by omega))),
    bind_ok (sub_eq (hu32 _ (by omega) (by omega))),
    bind_ok (add_eq (hu32 _ (by omega) (by omega)))]
  -- January and February belong to the next year
  by_cases h : mp < 10
  · rw [if_pos h, bind_ok (add_eq (hu32 _ (by omega) (by omega))), if_neg (by omega)]
    simp only [if_pos h]
    rfl
  · rw [if_neg h, bind_ok (sub_eq (hu32 _ (by omega) (by omega))), if_pos (by omega),
      bind_ok (add_eq (hi32 _ (by omega) (by omega)))]
    simp only [if_neg h]
    rfl

/-! ### Reading a timestamp -/

/-- A date with a time of the day. -/
structure CalendarTime where
  date : Date
  hour : ℕ
  minute : ℕ
  second : ℕ
  milli : ℕ

namespace CalendarTime

structure Valid (t : CalendarTime) : Prop where
  date : t.date.Valid
  hour : t.hour < 24
  minute : t.minute < 60
  second : t.second < 60
  milli : t.milli < 1000

/-- So many milliseconds after the epoch: the date is that of the day, counted day by day, and
the time is that of the day. -/
def Denotes (t : CalendarTime) (unixMs : ℕ) : Prop :=
  t.date = dateAfter (unixMs / 86400000) ∧
    ((t.hour * 60 + t.minute) * 60 + t.second) * 1000 + t.milli = unixMs % 86400000

end CalendarTime

/-- A reader of ISO-8601 timestamps: digits between the separators, of which the year has at
least four. -/
def readTimestamp (chars : List Char) : Option CalendarTime :=
  match chars.splitOnP fun c => !c.isDigit with
  | [year, month, day, hour, minute, second, milli, []] =>
    if chars.filter (fun c => !c.isDigit) = ['-', '-', 'T', ':', ':', '.', 'Z'] ∧
        4 ≤ year.length ∧ month.length = 2 ∧ day.length = 2 ∧ hour.length = 2 ∧
        minute.length = 2 ∧ second.length = 2 ∧ milli.length = 3 then
      some ⟨⟨value year, value month, value day⟩, value hour, value minute, value second,
        value milli⟩
    else none
  | _ => none

theorem zeroPadded_natCast (k n : ℕ) : zeroPadded k n = padded k (text n) := by
  rw [zeroPadded, if_neg (by omega), Int.natAbs_natCast]

theorem not_isDigit_of_mem_padded {k n : ℕ} :
    ∀ c ∈ padded k (text n), (fun c : Char => !c.isDigit) c = false := by
  intro c hc
  show (!c.isDigit) = false
  rw [isDigit_of_mem_padded hc]
  rfl

theorem filter_padded (k n : ℕ) : (padded k (text n)).filter (fun c => !c.isDigit) = [] :=
  List.filter_eq_nil_iff.mpr fun c hc h => by
    rw [isDigit_of_mem_padded hc] at h
    cases h

theorem le_length_padded (k : ℕ) (t : List Char) : k ≤ (padded k t).length := by
  rw [padded, List.length_append, List.length_replicate]
  omega

/-- **The fields of a time are read back from its text.** -/
theorem readTimestamp_timestampText {t : CalendarTime} (h : t.Valid) (hyear : 0 ≤ t.date.year) :
    readTimestamp (timestampText t.date t.hour t.minute t.second t.milli) = some t := by
  obtain ⟨⟨year, month, day⟩, hour, minute, second, milli⟩ := t
  obtain ⟨⟨hm, hm', hd, hd'⟩, hhour, hminute, hsecond, hmilli⟩ := h
  have hday' : day ≤ 31 := by
    have hlength : daysInMonth year month ≤ 31 := by
      unfold daysInMonth
      split_ifs <;> omega
    exact hd'.trans hlength
  simp only at hyear hm hm' hd hhour hminute hsecond hmilli
  lift year to ℕ using hyear
  lift month to ℕ using by omega
  lift day to ℕ using by omega
  have hsplit : (timestampText ⟨year, month, day⟩ hour minute second milli).splitOnP
      (fun c => !c.isDigit) = [padded 4 (text year), padded 2 (text month), padded 2 (text day),
        padded 2 (text hour), padded 2 (text minute), padded 2 (text second),
        padded 3 (text milli), []] := by
    rw [timestampText]
    simp only [zeroPadded_natCast]
    rw [List.splitOnP_append_cons_of_forall_mem not_isDigit_of_mem_padded '-' rfl,
      List.splitOnP_append_cons_of_forall_mem not_isDigit_of_mem_padded '-' rfl,
      List.splitOnP_append_cons_of_forall_mem not_isDigit_of_mem_padded 'T' rfl,
      List.splitOnP_append_cons_of_forall_mem not_isDigit_of_mem_padded ':' rfl,
      List.splitOnP_append_cons_of_forall_mem not_isDigit_of_mem_padded ':' rfl,
      List.splitOnP_append_cons_of_forall_mem not_isDigit_of_mem_padded '.' rfl,
      List.splitOnP_append_cons_of_forall_mem not_isDigit_of_mem_padded 'Z' rfl]
    rfl
  have hfilter : (timestampText ⟨year, month, day⟩ hour minute second milli).filter
      (fun c => !c.isDigit) = ['-', '-', 'T', ':', ':', '.', 'Z'] := by
    simp [timestampText, zeroPadded_natCast, filter_padded]
  rw [readTimestamp, hsplit]
  show (if _ then _ else _) = _
  rw [if_pos ⟨hfilter, le_length_padded 4 _, length_padded (by omega) (by omega),
    length_padded (by omega) (by omega), length_padded (by omega) (by omega),
    length_padded (by omega) (by omega), length_padded (by omega) (by omega),
    length_padded (by omega) (by omega)⟩]
  simp only [value_padded]

/-! ### The text of an instant -/

/-- The time so many milliseconds after the epoch, as the function computes it. -/
def calendarTime (unixMs : ℕ) : CalendarTime where
  date := ofDays (unixMs / 86400000 : ℕ)
  hour := unixMs / 1000 % 86400 / 3600
  minute := unixMs / 1000 % 86400 % 3600 / 60
  second := unixMs / 1000 % 86400 % 60
  milli := unixMs % 1000

theorem calendarTime_valid (unixMs : ℕ) : (calendarTime unixMs).Valid := by
  refine ⟨(ofDays_spec _).1, ?_, ?_, ?_, ?_⟩
  · show unixMs / 1000 % 86400 / 3600 < 24
    omega
  · show unixMs / 1000 % 86400 % 3600 / 60 < 60
    omega
  · show unixMs / 1000 % 86400 % 60 < 60
    omega
  · show unixMs % 1000 < 1000
    omega

theorem calendarTime_denotes (unixMs : ℕ) : (calendarTime unixMs).Denotes unixMs := by
  refine ⟨ofDays_eq _, ?_⟩
  show ((unixMs / 1000 % 86400 / 3600 * 60 + unixMs / 1000 % 86400 % 3600 / 60) * 60 +
    unixMs / 1000 % 86400 % 60) * 1000 + unixMs % 1000 = unixMs % 86400000
  omega

/-- A time denotes one instant. -/
theorem CalendarTime.Denotes.unique {t : CalendarTime} {m n : ℕ} (hm : t.Denotes m)
    (hn : t.Denotes n) : m = n := by
  obtain ⟨hdate, htime⟩ := hm
  obtain ⟨hdate', htime'⟩ := hn
  have hnumber := (dateAfter_spec (m / 86400000)).2
  rw [← hdate, hdate', (dateAfter_spec (n / 86400000)).2] at hnumber
  omega

/-- No date after the epoch has a negative year. -/
theorem year_nonneg (n : ℕ) : 0 ≤ (ofDays n).year := by
  obtain ⟨hvalid, hnumber⟩ := ofDays_spec n
  by_contra hneg
  have hepoch : dayNumber epoch = 719163 := rfl
  have hzero : daysBeforeYear 0 = -366 := rfl
  have hyear := daysBeforeYear_mono (by omega : (ofDays n).year + 1 ≤ 0)
  have := (dayNumber_bounds hvalid).2
  omega

/-- `format_iso8601_ms` prints that time. -/
theorem formatIso8601MsWith_eq (fallback : ℤ → Except Fault ℤ) (unixMs : UInt64) :
    formatIso8601MsWith fallback unixMs =
      .ok (timestampText (calendarTime unixMs.toNat).date (calendarTime unixMs.toNat).hour
        (calendarTime unixMs.toNat).minute (calendarTime unixMs.toNat).second
        (calendarTime unixMs.toNat).milli) := by
  have hlt := unixMs.toNat_lt
  generalize hn : unixMs.toNat = n at hlt
  have hsecs : i64.Fits ((n : ℤ) / 1000) := by
    show -2 ^ 63 ≤ _ ∧ _ ≤ 2 ^ 63 - 1
    omega
  have htod : u64.Fits ((n : ℤ) / 1000 % 86400) := by
    show 0 ≤ _ ∧ _ ≤ 2 ^ 64 - 1
    omega
  have hdays : (n : ℤ) / 1000 / 86400 = (n / 86400000 : ℕ) := by omega
  have hrange : InRange (n / 86400000 : ℕ) := by
    unfold InRange
    omega
  rw [formatIso8601MsWith, hn, bind_ok (unwrapOr_eq hsecs)]
  simp only []
  rw [bind_ok (unwrapOr_eq htod), hdays, bind_ok (civilFromDays_eq fallback hrange)]
  rfl

/-- **The text of every number of milliseconds is read as a valid time of its instant.  No
operation overflows and no default is taken, neither here nor in `civil_from_days`: whatever is
done instead of a default, the text is the same.** -/
theorem formatIso8601Ms_exact (fallback : ℤ → Except Fault ℤ) (unixMs : UInt64) :
    ∃ chars t, formatIso8601MsWith fallback unixMs = .ok chars ∧
      formatIso8601Ms unixMs = .ok chars ∧ readTimestamp chars = some t ∧ t.Valid ∧
      (∀ n, t.Denotes n ↔ n = unixMs.toNat) ∧
      civilFromDays fallback (unixMs.toNat / 86400000 : ℕ) = .ok t.date := by
  have hlt := unixMs.toNat_lt
  have hdenotes := calendarTime_denotes unixMs.toNat
  refine ⟨_, calendarTime unixMs.toNat, formatIso8601MsWith_eq fallback unixMs,
    formatIso8601MsWith_eq .ok unixMs, ?_, calendarTime_valid _, ?_, ?_⟩
  · exact readTimestamp_timestampText (calendarTime_valid _) (year_nonneg _)
  · intro n
    constructor
    · intro h
      exact h.unique hdenotes
    · rintro rfl
      exact hdenotes
  · refine civilFromDays_eq fallback ?_
    unfold InRange
    omega

end Dashboard
