import BitThunder.Mm.Defs

/-!
# The calendar

`bt_mktime` and `bt_time_to_tm` of `os/src/time/time.c`. The first is a closed form, with the year
taken to begin in March so that the leap day is its last one. The second estimates the year with
the leap days left out, goes back one year if that was too many, and then takes off one month
after the other. Neither says what a date is; the reference below does, as the number of days in
the years and months before it.

* `daysBeforeYear_eq`: the days of the years before, with the leap days counted;
* `btMktime_eq`, `btTimeToTm_eq`: the two directions, each against the reference;
* `calendar_round_trips`: one undoes the other.

The reference counts days and nothing else, by recursion over years and months. The test for leap
years and the table of months are shown to agree with it first; then each direction is a
calculation. For `bt_mktime` the point is that, counted from March, the days before a month are a
linear function of it up to rounding. For `bt_time_to_tm` it is that the first estimate of the year
is right or one too many in the range of 32-bit times, in which there are at most 34 leap days
before a year.

That the conversions undo each other follows from uniqueness: a second belongs to one date and time
of day. In blocks that follow one another, a position lies in one block only, and this is used for
days, months and years.
-/

namespace BitThunder

/-! ## The code

Both directions, and the tables and tests that they use. -/

/-- `bt_is_leap_year` -/
def btIsLeapYear (year : ℕ) : Bool := (year % 4 = 0 ∧ year % 100 ≠ 0) ∨ year % 400 = 0

/-- `days_in_month` -/
def daysInMonth : List ℕ := [31, 28, 31, 30, 31, 30, 31, 31, 30, 31, 30, 31]

/-- `bt_month_days` -/
def btMonthDays (month year : ℕ) : ℕ :=
  daysInMonth.getD month 0 + if btIsLeapYear year ∧ month = 1 then 1 else 0

/-- `LEAPS_THRU_END_OF(y)` -/
def leapsThruEndOf (y : ℕ) : ℕ := y / 4 - y / 100 + y / 400

/-- A product of words. -/
def wordMul (a b : ℕ) : ℕ := a * b % 2 ^ 32

/-- `bt_mktime` -/
def btMktime (year0 mon0 day hour min sec : ℕ) : ℕ :=
  let mon := wordSub mon0 2
  -- `0 >= (BT_s32) mon`
  let r := if mon = 0 ∨ 2 ^ 31 ≤ mon then (wordAdd mon 12, wordSub year0 1) else (mon, year0)
  let mon := r.1
  let year := r.2
  let days :=
    wordAdd (wordAdd (wordAdd (wordSub (year / 4) (year / 100)) (year / 400))
      (wordMul 367 mon / 12)) day
  let days := wordSub (wordAdd days (wordMul year 365)) 719499
  wordAdd (wordMul (wordAdd (wordMul (wordAdd (wordMul days 24) hour) 60) min) 60) sec

/-- `struct bt_tm` -/
structure Tm : Type where
  tmSec : ℕ
  tmMin : ℕ
  tmHour : ℕ
  tmMday : ℕ
  tmMon : ℕ
  tmYear : ℕ
  tmWday : ℕ
  tmYday : ℕ
  tmIsdst : ℕ
  deriving DecidableEq

/-- The loop of `bt_time_to_tm` over the months, from `month` on, with `n` of them left before the
last. -/
def monthLoop (year : ℕ) : ℕ → ℕ → ℤ → ℕ × ℤ
  | 0, month, days => (month, days)
  | n + 1, month, days =>
    let newdays := days - btMonthDays month year
    if newdays < 0 then (month, days) else monthLoop year n (month + 1) newdays

/-- The year of `bt_time_to_tm` and the day in it, from the number of days since 1970. -/
def yearOfDays (days : ℕ) : ℕ × ℤ :=
  let year := 1970 + days / 365
  let rest : ℤ :=
    days - ((year - 1970) * 365 + leapsThruEndOf (year - 1) - leapsThruEndOf (1970 - 1))
  if rest < 0 then
    let year := year - 1
    (year, rest + (365 + if btIsLeapYear year then 1 else 0))
  else (year, rest)

/-- `bt_time_to_tm` -/
def btTimeToTm (time : ℕ) : Tm :=
  let days := time / 86400
  let time := time - days * 86400
  let y := yearOfDays days
  let m := monthLoop y.1 11 0 y.2
  let hour := time / 3600
  let time := time - hour * 3600
  let min := time / 60
  { tmWday := (days + 4) % 7
    tmYear := y.1 - 1900
    tmYday := (y.2 + 1).toNat
    tmMon := m.1
    tmMday := (m.2 + 1).toNat
    tmHour := hour
    tmMin := min
    tmSec := time - min * 60
    tmIsdst := 0 }

/-! ## The Gregorian calendar

The reference: leap years by their rule, months by their lengths, and a date as the days before
it. -/

/-- Every fourth year is a leap year, but of the centuries only every fourth. -/
def LeapYear (year : ℕ) : Prop := 4 ∣ year ∧ (100 ∣ year → 400 ∣ year)

instance : DecidablePred LeapYear := fun _ => inferInstanceAs (Decidable (_ ∧ _))

def yearLength (year : ℕ) : ℕ := if LeapYear year then 366 else 365

/-- The length of a month, counted from zero. -/
def monthLength (year : ℕ) : ℕ → ℕ
  | 0 => 31
  | 1 => if LeapYear year then 29 else 28
  | 2 => 31
  | 3 => 30
  | 4 => 31
  | 5 => 30
  | 6 => 31
  | 7 => 31
  | 8 => 30
  | 9 => 31
  | 10 => 30
  | _ => 31

/-- The days from 1970 to the beginning of the year. -/
def daysBeforeYear (year : ℕ) : ℕ := ∑ y ∈ Finset.Ico 1970 year, yearLength y

/-- The days from the beginning of the year to that of the month. -/
def daysBeforeMonth (year month : ℕ) : ℕ := ∑ m ∈ Finset.range month, monthLength year m

/-- The days from 1970-01-01 to the date. Months count from zero, days from one. -/
def dayNumber (year month mday : ℕ) : ℕ :=
  daysBeforeYear year + daysBeforeMonth year month + (mday - 1)

/-- A date and a time of day, as `struct bt_tm` counts them. -/
structure Tm.Valid (tm : Tm) : Prop where
  /-- the date is in 1970 or later -/
  year : 70 ≤ tm.tmYear
  month : tm.tmMon < 12
  /-- the month has the day -/
  mday : 1 ≤ tm.tmMday ∧ tm.tmMday ≤ monthLength (tm.tmYear + 1900) tm.tmMon
  hour : tm.tmHour < 24
  min : tm.tmMin < 60
  sec : tm.tmSec < 60

/-- The days from 1970-01-01 to the date. -/
def Tm.days (tm : Tm) : ℕ := dayNumber (tm.tmYear + 1900) tm.tmMon tm.tmMday

/-- The seconds since the beginning of 1970. -/
def Tm.seconds (tm : Tm) : ℕ := 86400 * tm.days + 3600 * tm.tmHour + 60 * tm.tmMin + tm.tmSec

/-- What is computed from the date: 1970-01-01 was a Thursday, and days of the year count from
one. -/
structure Tm.Dated (tm : Tm) : Prop where
  /-- the first day of all was a Thursday -/
  wday : tm.tmWday = (4 + tm.days) % 7
  /-- days are counted from one, as the code does it -/
  yday : tm.tmYday = daysBeforeMonth (tm.tmYear + 1900) tm.tmMon + tm.tmMday
  /-- and there is no summer time -/
  isdst : tm.tmIsdst = 0

/-! ## Years and months

The table and the closed forms of the code agree with sums over years and months. -/

/-- The test of the source is the Gregorian rule. -/
theorem btIsLeapYear_iff (year : ℕ) : btIsLeapYear year = true ↔ LeapYear year := by
  simp only [btIsLeapYear, LeapYear, decide_eq_true_eq]
  omega

theorem leapsThruEndOf_succ (y : ℕ) :
    leapsThruEndOf (y + 1) = leapsThruEndOf y + if LeapYear (y + 1) then 1 else 0 := by
  have hcentury : 100 ∣ y + 1 → 4 ∣ y + 1 := (by decide : 4 ∣ 100).trans
  have hfourth : 400 ∣ y + 1 → 100 ∣ y + 1 := (by decide : 100 ∣ 400).trans
  have hle : y / 100 ≤ y / 4 := Nat.div_le_div_left (by decide) (by decide)
  unfold leapsThruEndOf LeapYear
  rw [Nat.succ_div, Nat.succ_div, Nat.succ_div]
  generalize y / 4 = a at hle ⊢
  generalize y / 100 = b at hle ⊢
  -- the step matters only through what divides the next year
  by_cases h₄ : 4 ∣ y + 1
  · by_cases h₁₀₀ : 100 ∣ y + 1
    · by_cases h₄₀₀ : 400 ∣ y + 1
      · simp only [h₄, h₁₀₀, h₄₀₀, if_true, true_and, imp_self]
        omega
      · simp only [h₄, h₁₀₀, h₄₀₀, if_true, if_false, true_and, imp_false, not_true]
        omega
    · simp only [h₄, h₁₀₀, mt hfourth h₁₀₀, if_true, if_false, true_and, false_imp_iff]
      omega
  · simp only [h₄, mt hcentury h₄, mt hfourth (mt hcentury h₄), if_false, false_and, Nat.add_zero]

theorem yearLength_eq (y : ℕ) : yearLength y = 365 + if LeapYear y then 1 else 0 := by
  unfold yearLength
  split_ifs <;> rfl

/-- The days before a year are those of all years before it. -/
theorem daysBeforeYear_succ {y : ℕ} (hy : 1970 ≤ y) :
    daysBeforeYear (y + 1) = daysBeforeYear y + yearLength y := Finset.sum_Ico_succ_top hy _

/-- The days of the years before: 365 for each, and the leap days. -/
theorem daysBeforeYear_eq {y : ℕ} (hy : 1970 ≤ y) :
    daysBeforeYear y + leapsThruEndOf 1969 = 365 * (y - 1970) + leapsThruEndOf (y - 1) := by
  induction y, hy using Nat.le_induction with
  | base => decide
  | succ y hy ih =>
    have hleaps := leapsThruEndOf_succ (y - 1)
    rw [Nat.sub_add_cancel (by omega : 1 ≤ y)] at hleaps
    rw [daysBeforeYear_succ hy, yearLength_eq, Nat.add_sub_cancel, hleaps]
    omega

/-- The leap day is all that is not in the table. -/
theorem monthLength_eq {month : ℕ} (hm : month < 12) (year : ℕ) :
    monthLength year month = daysInMonth.getD month 0 + if LeapYear year ∧ month = 1 then 1
      else 0 := by
  by_cases hfeb : month = 1
  · subst hfeb
    unfold monthLength
    by_cases hleap : LeapYear year
    · rw [if_pos hleap, if_pos ⟨hleap, rfl⟩]
      rfl
    · rw [if_neg hleap, if_neg fun h => hleap h.1]
      rfl
  · rw [if_neg fun h => hfeb h.2]
    interval_cases month <;> first | rfl | exact absurd rfl hfeb

theorem btMonthDays_eq {month : ℕ} (hm : month < 12) (year : ℕ) :
    btMonthDays month year = monthLength year month := by
  have hleap : (btIsLeapYear year : Prop) = LeapYear year := propext (btIsLeapYear_iff year)
  rw [monthLength_eq hm]
  unfold btMonthDays
  simp only [hleap]

/-- The days before a month are those of all months before it. -/
theorem daysBeforeMonth_succ (year month : ℕ) :
    daysBeforeMonth year (month + 1) = daysBeforeMonth year month + monthLength year month :=
  Finset.sum_range_succ _ _

/-- The days before each month, without a leap day. -/
theorem monthTable_succ : ∀ month < 11,
    [0, 31, 59, 90, 120, 151, 181, 212, 243, 273, 304, 334].getD (month + 1) 0 =
      [0, 31, 59, 90, 120, 151, 181, 212, 243, 273, 304, 334].getD month 0 +
        daysInMonth.getD month 0 := by
  decide

/-- The days before a month, in a year with and without a leap day. -/
theorem daysBeforeMonth_eq {month : ℕ} (hm : month < 12) (year : ℕ) :
    daysBeforeMonth year month =
      [0, 31, 59, 90, 120, 151, 181, 212, 243, 273, 304, 334].getD month 0 +
        if LeapYear year ∧ 2 ≤ month then 1 else 0 := by
  induction month with
  | zero => simp [daysBeforeMonth]
  | succ month ih =>
    have hm' : month < 12 := Nat.lt_of_succ_lt hm
    rw [daysBeforeMonth_succ, ih hm', monthLength_eq hm',
      monthTable_succ month (Nat.lt_of_succ_lt_succ hm)]
    by_cases hleap : LeapYear year
    · simp only [hleap, true_and]
      split_ifs <;> omega
    · simp only [hleap, false_and, if_false]
      omega

/-- The days before a month in a year of `bt_mktime`, which begins in March. -/
theorem months_march : ∀ month < 12,
    [0, 31, 59, 90, 120, 151, 181, 212, 243, 273, 304, 334].getD month 0 =
      if month < 2 then 367 * (month + 11) / 12 - 336 else 367 * (month - 1) / 12 + 29 := by
  decide

/-- Counted from March the months before one take a number of days that is linear in it, but for
rounding; `bt_mktime` counts February, the last month, as the twelfth. -/
theorem dayNumber_march {year month mday : ℕ} (hy : 1970 ≤ year) (hm : month < 12) (hd : 1 ≤ mday) :
    dayNumber year month mday + 719499 =
      if month < 2 then leapsThruEndOf (year - 1) + 367 * (month + 11) / 12 + mday + (year - 1) *
        365
      else leapsThruEndOf year + 367 * (month - 1) / 12 + mday + year * 365 := by
  have hyear := daysBeforeYear_eq hy
  have hleaps := leapsThruEndOf_succ (year - 1)
  rw [Nat.sub_add_cancel (by omega : 1 ≤ year)] at hleaps
  have h1969 : leapsThruEndOf 1969 = 477 := rfl
  unfold dayNumber
  rw [daysBeforeMonth_eq hm, months_march month hm]
  by_cases hfeb : month < 2
  · rw [if_pos hfeb, if_pos hfeb, if_neg fun h => absurd h.2 (by omega)]
    omega
  · rw [if_neg hfeb, if_neg hfeb]
    by_cases hleap : LeapYear year
    · rw [if_pos hleap] at hleaps
      rw [if_pos ⟨hleap, by omega⟩]
      omega
    · rw [if_neg hleap] at hleaps
      rw [if_neg fun h => hleap h.1]
      omega

theorem daysBeforeMonth_twelve (year : ℕ) : daysBeforeMonth year 12 = yearLength year := by
  rw [daysBeforeMonth_succ, daysBeforeMonth_eq (by decide), yearLength_eq]
  split_ifs <;> simp_all [monthLength]

/-- What is left of a year after the month loop is a day of the month it stops at. -/
theorem monthLoop_spec (year : ℕ) : ∀ {n month : ℕ} {days : ℤ}, month + n = 11 → 0 ≤ days →
    daysBeforeMonth year month + days < yearLength year →
    let r := monthLoop year n month days
    r.1 < 12 ∧ 0 ≤ r.2 ∧ r.2 < monthLength year r.1 ∧
      (daysBeforeMonth year r.1 : ℤ) + r.2 = daysBeforeMonth year month + days := by
  intro n
  induction n with
  | zero =>
    intro month days hmonth hnonneg hlt
    -- the loop is over and the month is the last one
    obtain rfl : month = 11 := hmonth
    have hyear := daysBeforeMonth_twelve year
    rw [daysBeforeMonth_succ] at hyear
    have hlast : days < monthLength year 11 := by omega
    exact ⟨(by decide : 11 < 12), hnonneg, hlast, rfl⟩
  | succ n ih =>
    intro month days hmonth hnonneg hlt
    have hdays := btMonthDays_eq (by omega : month < 12) year
    unfold monthLoop
    rw [hdays]
    dsimp only
    split_ifs with hneg
    · have hstop : days < monthLength year month := by omega
      exact ⟨(by omega : month < 12), hnonneg, hstop, rfl⟩
    · have hsucc := daysBeforeMonth_succ year month
      obtain ⟨hm, hr, hrl, hsum⟩ := ih (by omega : month + 1 + n = 11) (not_lt.1 hneg) (by omega)
      exact ⟨hm, hr, hrl, by omega⟩

/-- There are at most 34 leap days in the years a 32-bit time reaches. -/
theorem leapsThruEndOf_bounds {q : ℕ} (hq : q ≤ 136) :
    477 ≤ leapsThruEndOf (1969 + q) ∧ leapsThruEndOf (1969 + q) ≤ 511 := by
  unfold leapsThruEndOf
  omega

/-- As `bt_time_to_tm` adds it. -/
theorem yearLength_code (y : ℕ) : (365 + if btIsLeapYear y then 1 else 0 : ℤ) = yearLength y := by
  rw [yearLength_eq, if_congr (btIsLeapYear_iff y) rfl rfl]
  push_cast
  rfl

theorem yearLength_bounds (y : ℕ) : 365 ≤ yearLength y ∧ yearLength y ≤ 366 := by
  unfold yearLength
  split_ifs <;> decide

/-- The year of a day, for days of 32-bit times. -/
theorem yearOfDays_spec {n : ℕ} (hn : n ≤ 49710) :
    let y := yearOfDays n
    1970 ≤ y.1 ∧ 0 ≤ y.2 ∧ y.2 < yearLength y.1 ∧ (daysBeforeYear y.1 : ℤ) + y.2 = n := by
  obtain ⟨q, hq⟩ : ∃ q, n / 365 = q := ⟨_, rfl⟩
  have hleaps := leapsThruEndOf_bounds (by omega : q ≤ 136)
  have hbefore := daysBeforeYear_eq (by omega : 1970 ≤ 1970 + q)
  have hlength := yearLength_bounds (1970 + q)
  have h1969 : leapsThruEndOf 1969 = 477 := rfl
  rw [h1969, (by omega : 1970 + q - 1 = 1969 + q)] at hbefore
  unfold yearOfDays
  dsimp only
  rw [hq, h1969, (by omega : 1970 + q - 1 = 1969 + q)]
  by_cases hneg : (n : ℤ) - (((1970 + q : ℕ) - 1970) * 365 + leapsThruEndOf (1969 + q) - (477 : ℕ))
    < 0
  · -- one year too many, which is not the first
    obtain ⟨p, rfl⟩ : ∃ p, q = p + 1 :=
      Nat.exists_eq_succ_of_ne_zero (by rintro rfl; rw [h1969] at hneg; omega)
    have hsucc := daysBeforeYear_succ (by omega : 1970 ≤ 1970 + p)
    have hlast := yearLength_bounds (1970 + p)
    rw [if_pos hneg, yearLength_code]
    rw [← Nat.add_assoc] at hbefore
    rw [(by omega : 1969 + (p + 1) = 1970 + p)] at *
    refine ⟨?_, ?_, ?_, ?_⟩ <;> dsimp only <;> omega
  · rw [if_neg hneg]
    refine ⟨?_, ?_, ?_, ?_⟩ <;> dsimp only <;> omega

/-! ## One date for each second

Blocks that follow one another do not overlap, so that days determine dates. -/

/-- Of blocks that follow one another, a position lies in only one. -/
theorem block_unique {start len : ℕ → ℕ} (hsucc : ∀ k, start (k + 1) = start k + len k)
    {a b r s : ℕ} (hr : r < len a) (hs : s < len b) (heq : start a + r = start b + s) :
    a = b ∧ r = s := by
  have hmono : Monotone start := monotone_nat_of_le_succ fun k => by rw [hsucc]; omega
  have ha := hsucc a
  have hb := hsucc b
  rcases lt_trichotomy a b with hlt | rfl | hlt
  · have hle : start (a + 1) ≤ start b := hmono hlt
    omega
  · exact ⟨rfl, by omega⟩
  · have hle : start (b + 1) ≤ start a := hmono hlt
    omega

/-- A valid date is a day of its year. -/
theorem Tm.Valid.yearDay_lt {tm : Tm} (hv : tm.Valid) :
    daysBeforeMonth (tm.tmYear + 1900) tm.tmMon + (tm.tmMday - 1) < yearLength
    (tm.tmYear + 1900) := by
  have hmono : Monotone (daysBeforeMonth (tm.tmYear + 1900)) :=
    monotone_nat_of_le_succ fun k => by rw [daysBeforeMonth_succ]; omega
  have hle := hmono hv.month
  rw [daysBeforeMonth_succ, daysBeforeMonth_twelve] at hle
  have hmday := hv.mday
  omega

/-- A day number belongs to one date. -/
theorem Tm.Valid.date_unique {tm tm' : Tm} (hv : tm.Valid) (hv' : tm'.Valid)
    (heq : tm.days = tm'.days) :
    tm.tmYear = tm'.tmYear ∧ tm.tmMon = tm'.tmMon ∧ tm.tmMday = tm'.tmMday := by
  obtain ⟨a, ha⟩ := Nat.exists_eq_add_of_le hv.year
  obtain ⟨b, hb⟩ := Nat.exists_eq_add_of_le hv'.year
  have hlt := hv.yearDay_lt
  have hlt' := hv'.yearDay_lt
  have hmday := hv.mday
  have hmday' := hv'.mday
  simp only [Tm.days, dayNumber, Nat.add_assoc] at heq
  rw [ha, (by omega : 70 + a + 1900 = 1970 + a)] at hlt heq hmday
  rw [hb, (by omega : 70 + b + 1900 = 1970 + b)] at hlt' heq hmday'
  have hyears (k : ℕ) : daysBeforeYear (1970 + (k + 1)) =
      daysBeforeYear (1970 + k) + yearLength (1970 + k) :=
    daysBeforeYear_succ (Nat.le_add_right 1970 k)
  obtain ⟨rfl, hday⟩ := @block_unique (fun k => daysBeforeYear (1970 + k))
    (fun k => yearLength (1970 + k)) hyears
    a b _ _ hlt hlt' heq
  obtain ⟨hmon, hmday⟩ := block_unique (daysBeforeMonth_succ (1970 + a)) (by omega) (by omega) hday
  exact ⟨by omega, hmon, by omega⟩

/-- A second belongs to one date and time of day. -/
theorem Tm.Valid.unique {tm tm' : Tm} (hv : tm.Valid) (hv' : tm'.Valid) (hd : tm.Dated)
    (hd' : tm'.Dated) (heq : tm.seconds = tm'.seconds) : tm = tm' := by
  have hday : tm.days = tm'.days ∧ tm.tmHour = tm'.tmHour ∧ tm.tmMin = tm'.tmMin ∧
      tm.tmSec = tm'.tmSec := by
    unfold Tm.seconds at heq
    have := hv.hour
    have := hv.min
    have := hv.sec
    have := hv'.hour
    have := hv'.min
    have := hv'.sec
    omega
  obtain ⟨hyear, hmon, hmday⟩ := hv.date_unique hv' hday.1
  have hwday := hd.wday
  have hyday := hd.yday
  rw [hday.1, ← hd'.wday] at hwday
  rw [hyear, hmon, hmday, ← hd'.yday] at hyday
  have hisdst := hd.isdst.trans hd'.isdst.symm
  cases tm
  cases tm'
  simp_all

/-! ## The two directions

Each direction against the reference. That one undoes the other follows. -/

/-- `bt_time_to_tm` gives the date and time of the second. -/
theorem btTimeToTm_eq {t : ℕ} (ht : t < 2 ^ 32) :
    (btTimeToTm t).Valid ∧ (btTimeToTm t).Dated ∧ (btTimeToTm t).seconds = t := by
  obtain ⟨hyear, hnonneg, hlt, hdays⟩ := yearOfDays_spec (by omega : t / 86400 ≤ 49710)
  obtain ⟨hmon, hmnonneg, hmlt, hmdays⟩ := monthLoop_spec _ (by decide : 0 + 11 = 11) hnonneg
    (by simpa [daysBeforeMonth] using hlt)
  have hfirst : daysBeforeMonth (yearOfDays (t / 86400)).1 0 = 0 := rfl
  have hback : (yearOfDays (t / 86400)).1 - 1900 + 1900 = (yearOfDays (t / 86400)).1 := by omega
  have hday : (btTimeToTm t).days = t / 86400 := by
    unfold Tm.days btTimeToTm dayNumber
    dsimp only
    rw [hback]
    omega
  refine ⟨⟨?_, hmon, ?_, ?_, ?_, ?_⟩, ⟨?_, ?_, rfl⟩, ?_⟩
  · unfold btTimeToTm
    dsimp only
    omega
  · unfold btTimeToTm
    dsimp only
    rw [hback]
    omega
  · unfold btTimeToTm
    dsimp only
    omega
  · unfold btTimeToTm
    dsimp only
    omega
  · unfold btTimeToTm
    dsimp only
    omega
  · rw [hday, Nat.add_comm 4]
    rfl
  · unfold btTimeToTm
    dsimp only
    rw [hback]
    omega
  · unfold Tm.seconds
    rw [hday]
    unfold btTimeToTm
    dsimp only
    omega

/-- The days of `bt_mktime`, with the year and month it has rotated, do not wrap. -/
theorem mktimeDays_eq {year mon day : ℕ} (hy : 1969 ≤ year ∧ year ≤ 2107) (hm : mon ≤ 12)
    (hd : day ≤ 31) :
    wordSub
    (wordAdd
    (wordAdd (wordAdd (wordAdd (wordSub (year / 4) (year / 100)) (year / 400))
        (wordMul 367 mon / 12)) day) (wordMul year 365)) 719499 =
      wordSub (leapsThruEndOf year + 367 * mon / 12 + day + year * 365) 719499 := by
  have hmul : wordMul year 365 = year * 365 := Nat.mod_eq_of_lt (by omega)
  have hmon : wordMul 367 mon = 367 * mon := Nat.mod_eq_of_lt (by omega)
  have hleaps : wordSub (year / 4) (year / 100) = year / 4 - year / 100 :=
    wordSub_of_le (by omega) (by omega)
  have hcount : wordAdd (year / 4 - year / 100) (year / 400) = leapsThruEndOf year :=
    wordAdd_of_lt (by omega)
  have hbound : leapsThruEndOf year ≤ 2107 := by
    unfold leapsThruEndOf
    omega
  rw [hmul, hmon, hleaps, hcount,
    wordAdd_of_lt (by omega : leapsThruEndOf year + 367 * mon / 12 < 2 ^ 32),
    wordAdd_of_lt
    (by omega : leapsThruEndOf year + 367 * mon / 12 + day < 2 ^ 32), wordAdd_of_lt (by omega)]

/-- Nor does the number of seconds, if it is a word. -/
theorem mktimeSeconds_eq {days hour min sec : ℕ}
    (hlt : 86400 * days + 3600 * hour + 60 * min + sec < 2 ^ 32) :
    wordAdd (wordMul (wordAdd (wordMul (wordAdd (wordMul days 24) hour) 60) min) 60) sec =
      86400 * days + 3600 * hour + 60 * min + sec := by
  unfold wordAdd wordMul
  omega

theorem monthLength_le (year month : ℕ) : monthLength year month ≤ 31 := by
  unfold monthLength
  split <;> first | decide | (split_ifs <;> decide)

/-- `bt_mktime` gives the seconds of a date and time, as far as they are a word. -/
theorem btMktime_eq {tm : Tm} (hv : tm.Valid) (hlt : tm.seconds < 2 ^ 32) :
    btMktime (tm.tmYear + 1900) (tm.tmMon + 1) tm.tmMday tm.tmHour tm.tmMin tm.tmSec =
      tm.seconds := by
  have hyear : 1970 ≤ tm.tmYear + 1900 := by have := hv.year; omega
  have hmonth := hv.month
  have hmday := hv.mday.2.trans (monthLength_le _ _)
  have hmarch := dayNumber_march hyear hv.month hv.mday.1
  have hdays : tm.days ≤ 49710 := by unfold Tm.seconds at hlt; omega
  have hbefore := daysBeforeYear_eq hyear
  have hlast : tm.tmYear + 1900 ≤ 2107 := by
    have h1969 : leapsThruEndOf 1969 = 477 := rfl
    unfold Tm.days dayNumber at hdays
    omega
  have hsub : wordSub (tm.days + 719499) 719499 = tm.days := by
    unfold wordSub
    omega
  unfold btMktime
  dsimp only
  by_cases hfeb : tm.tmMon < 2
  · -- January and February are the last months of the year before
    have hrot : (if wordSub (tm.tmMon + 1) 2 = 0 ∨ 2 ^ 31 ≤ wordSub (tm.tmMon + 1) 2 then
          (wordAdd (wordSub (tm.tmMon + 1) 2) 12, wordSub (tm.tmYear + 1900) 1)
        else (wordSub (tm.tmMon + 1) 2, tm.tmYear + 1900)) =
          (tm.tmMon + 11, tm.tmYear + 1900 - 1) := by
      unfold wordAdd wordSub
      rw [if_pos (by omega), Prod.mk.injEq]
      omega
    rw [if_pos hfeb] at hmarch
    rw [hrot, mktimeDays_eq (by omega) (by omega) hmday, ← hmarch, ← Tm.days, hsub]
    exact mktimeSeconds_eq hlt
  · have hrot : (if wordSub (tm.tmMon + 1) 2 = 0 ∨ 2 ^ 31 ≤ wordSub (tm.tmMon + 1) 2 then
          (wordAdd (wordSub (tm.tmMon + 1) 2) 12, wordSub (tm.tmYear + 1900) 1)
        else (wordSub (tm.tmMon + 1) 2, tm.tmYear + 1900)) = (tm.tmMon - 1, tm.tmYear + 1900) := by
      rw [wordSub_of_le (by omega) (by omega), if_neg (by omega), Prod.mk.injEq]
      omega
    rw [if_neg hfeb] at hmarch
    rw [hrot, mktimeDays_eq (by omega) (by omega) hmday, ← hmarch, ← Tm.days, hsub]
    exact mktimeSeconds_eq hlt

/-- Converting a time to a date and back gives the time again, and the date is the right one. A
date and time of a 32-bit second comes back from it. -/
theorem calendar_round_trips :
    (∀ t < 2 ^ 32, let tm := btTimeToTm t
      btMktime (tm.tmYear + 1900) (tm.tmMon + 1) tm.tmMday tm.tmHour tm.tmMin tm.tmSec = t ∧
        tm.Valid ∧ tm.Dated ∧ tm.seconds = t) ∧
    ∀ tm : Tm, tm.Valid → tm.Dated → tm.seconds < 2 ^ 32 →
      btTimeToTm (btMktime (tm.tmYear + 1900) (tm.tmMon + 1) tm.tmMday tm.tmHour tm.tmMin tm.tmSec)
      = tm := by
  constructor
  · intro t ht
    obtain ⟨hv, hd, hsec⟩ := btTimeToTm_eq ht
    exact ⟨(btMktime_eq hv (hsec.trans_lt ht)).trans hsec, hv, hd, hsec⟩
  · intro tm hv hd hlt
    obtain ⟨hv', hd', hsec⟩ := btTimeToTm_eq hlt
    rw [btMktime_eq hv hlt]
    exact hv'.unique hv hd' hd hsec

/-- Noon on the leap day of 2000, a Tuesday. -/
theorem leap_day_round_trips :
    btTimeToTm (btMktime 2000 2 29 12 0 0) = ⟨0, 0, 12, 29, 1, 100, 2, 60, 0⟩ :=
  calendar_round_trips.2 ⟨0, 0, 12, 29, 1, 100, 2, 60, 0⟩
    ⟨by decide, by decide, by decide, by decide, by decide, by decide⟩
    ⟨by decide, by decide, rfl⟩ (by decide)

end BitThunder
