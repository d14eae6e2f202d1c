import Mathlib

/-!
The proleptic Gregorian calendar on day numbers, day `0` being 1970-01-01, as a civil-time
library computes it: a day number from a year, a month and a day, with months and days out
of range carried over (`dayNumber`), and back (`toCivil`); weekdays; and months counted as
`12 * year + month - 1`.

`firstDayOfYear` counts the leap years before a year by the rule of 4, 100 and 400; the
recurrence `firstDayOfYear_succ` (each year adds its own length) is what makes it the
calendar. `toCivil` finds the year from the mean year of `146097 / 400` days and the month by
a search from December down; `toCivil_dayNumber` and `dayNumber_toCivil` make the two maps
inverse on the valid dates.

A program reaches the calendar through a library (`CivilTime`), whose fields say what it may rely
on: valid dates count their days as in the proleptic Gregorian calendar, fields out of range carry
over, a day's fields form the date of that day, and weekdays step by one from a Thursday on
1970-01-01. These fix every operation to the calendar's (`CivilTime.dayNumber_eq`,
`CivilTime.toCivil_eq`, `CivilTime.weekday_eq`); the calendar is one such library
(`Civil.gregorian`).
-/

set_option autoImplicit false

namespace Impala.Civil

/-- Every fourth year is a leap year, except the centuries not divisible by 400. -/
def isLeapYear (y : Int) : Bool := y % 4 == 0 && (y % 100 != 0 || y % 400 == 0)

def monthLength (leap : Bool) : Nat → Int
  | 2 => if leap then 29 else 28
  | 4 | 6 | 9 | 11 => 30
  | _ => 31

def yearLength (leap : Bool) : Int := if leap then 366 else 365

def daysBeforeMonth (leap : Bool) : Nat → Int
  | 0 | 1 => 0
  | m + 2 => daysBeforeMonth leap (m + 1) + monthLength leap (m + 1)

/-- The leap years among `1, ..., y - 1` by the rule; the same formula for every `y`, so that
differences count the leap years between any two years. -/
def leapYearsBefore (y : Int) : Int := (y - 1) / 4 - (y - 1) / 100 + (y - 1) / 400

def firstDayOfYear (y : Int) : Int :=
  365 * (y - 1970) + leapYearsBefore y - leapYearsBefore 1970

/-- The day number of `y-m-d`: months outside 1 to 12 carry into the year, and days outside
the month into the months around it. -/
def dayNumber (y m d : Int) : Int :=
  let y' := y + (m - 1) / 12
  firstDayOfYear y' + daysBeforeMonth (isLeapYear y') ((m - 1) % 12 + 1).toNat + d - 1

def IsValidDate (y m d : Int) : Prop :=
  1 ≤ m ∧ m ≤ 12 ∧ 1 ≤ d ∧ d ≤ monthLength (isLeapYear y) m.toNat

instance (y m d : Int) : Decidable (IsValidDate y m d) :=
  inferInstanceAs (Decidable (_ ∧ _ ∧ _ ∧ _))

/-- The year of day `n`: the mean years of `146097 / 400` days since 1970, corrected by
one either way. -/
def yearOfDay (n : Int) : Int :=
  let e := 1970 + 400 * n / 146097
  if firstDayOfYear (e + 1) ≤ n then e + 1 else if n < firstDayOfYear e then e - 1 else e

/-- The month of day `k` (from 0) of a year: the last of the months `1` to `m` that starts
on or before it. -/
def monthOfDay (leap : Bool) (k : Int) : Nat → Nat
  | 0 => 1
  | m + 1 => if daysBeforeMonth leap (m + 1) ≤ k then m + 1 else monthOfDay leap k m

def toCivil (n : Int) : Int × Int × Int :=
  let y := yearOfDay n
  let k := n - firstDayOfYear y
  let m := monthOfDay (isLeapYear y) k 12
  (y, m, k - daysBeforeMonth (isLeapYear y) m + 1)

/-! ### Years -/

theorem isLeapYear_iff (y : Int) :
    isLeapYear y = true ↔ y % 4 = 0 ∧ (y % 100 ≠ 0 ∨ y % 400 = 0) := by
  simp [isLeapYear]

theorem yearLength_isLeapYear (y : Int) :
    yearLength (isLeapYear y) = if y % 4 = 0 ∧ (y % 100 ≠ 0 ∨ y % 400 = 0) then 366 else 365 := by
  simp only [yearLength, ← isLeapYear_iff]

@[simp]
theorem firstDayOfYear_epoch : firstDayOfYear 1970 = 0 := by decide

theorem firstDayOfYear_succ (y : Int) :
    firstDayOfYear (y + 1) = firstDayOfYear y + yearLength (isLeapYear y) := by
  rw [yearLength_isLeapYear]
  simp only [firstDayOfYear, leapYearsBefore]
  split_ifs <;> omega

theorem firstDayOfYear_bounds (y : Int) :
    146097 * (y - 1970) - 506 ≤ 400 * firstDayOfYear y ∧
      400 * firstDayOfYear y ≤ 146097 * (y - 1970) + 589 := by
  simp only [firstDayOfYear, leapYearsBefore]
  omega

theorem strictMono_firstDayOfYear : StrictMono firstDayOfYear := by
  intro y y' h
  have := firstDayOfYear_bounds y
  have := firstDayOfYear_bounds y'
  omega

theorem firstDayOfYear_le_iff {y y' : Int} : firstDayOfYear y ≤ firstDayOfYear y' ↔ y ≤ y' :=
  strictMono_firstDayOfYear.le_iff_le

theorem yearOfDay_spec (n : Int) :
    firstDayOfYear (yearOfDay n) ≤ n ∧ n < firstDayOfYear (yearOfDay n + 1) := by
  set e := 1970 + 400 * n / 146097 with he
  have h0 := firstDayOfYear_bounds (e - 1)
  have h1 := firstDayOfYear_bounds e
  have h2 := firstDayOfYear_bounds (e + 1)
  have h3 := firstDayOfYear_bounds (e + 1 + 1)
  simp only [yearOfDay, ← he]
  split_ifs with hA hB
  · omega
  · rw [sub_add_cancel]; omega
  · omega

theorem yearOfDay_eq_of_mem {n y : Int} (h1 : firstDayOfYear y ≤ n)
    (h2 : n < firstDayOfYear (y + 1)) : yearOfDay n = y := by
  obtain ⟨hs1, hs2⟩ := yearOfDay_spec n
  rcases lt_trichotomy (yearOfDay n) y with h | h | h
  · have := firstDayOfYear_le_iff.2 (Int.add_one_le_iff.2 h)
    omega
  · exact h
  · have := firstDayOfYear_le_iff.2 (Int.add_one_le_iff.2 h)
    omega

/-! ### Days of the year -/

theorem monthLength_bounds (leap : Bool) (m : Nat) :
    28 ≤ monthLength leap m ∧ monthLength leap m ≤ 31 := by
  unfold monthLength
  split <;> (try split) <;> omega

theorem daysBeforeMonth_succ (leap : Bool) {m : Nat} (hm : 1 ≤ m) :
    daysBeforeMonth leap (m + 1) = daysBeforeMonth leap m + monthLength leap m := by
  obtain ⟨k, rfl⟩ : ∃ k, m = k + 1 := ⟨m - 1, by omega⟩
  rfl

theorem daysBeforeMonth_thirteen (leap : Bool) : daysBeforeMonth leap 13 = yearLength leap := by
  cases leap <;> rfl

theorem daysBeforeMonth_mono (leap : Bool) {m m' : Nat} (h : m ≤ m') :
    daysBeforeMonth leap m ≤ daysBeforeMonth leap m' := by
  induction m', h using Nat.le_induction with
  | base => exact le_rfl
  | succ m' hm ih =>
    rcases m' with _ | m'
    · exact ih.trans (le_of_eq rfl)
    · rw [daysBeforeMonth_succ leap (by omega)]
      have := monthLength_bounds leap (m' + 1)
      omega

theorem monthOfDay_spec (leap : Bool) {k : Int} (hk : 0 ≤ k) {m : Nat} (hm : 1 ≤ m)
    (hkm : k < daysBeforeMonth leap (m + 1)) :
    1 ≤ monthOfDay leap k m ∧ monthOfDay leap k m ≤ m ∧
      daysBeforeMonth leap (monthOfDay leap k m) ≤ k ∧
      k < daysBeforeMonth leap (monthOfDay leap k m + 1) := by
  induction m with
  | zero => omega
  | succ m ih =>
    rw [monthOfDay]
    split_ifs with h
    · exact ⟨by omega, le_rfl, h, hkm⟩
    · have hm1 : 1 ≤ m := by
        rcases m with _ | m
        · exact absurd hk (by simpa [daysBeforeMonth] using h)
        · omega
      obtain ⟨h1, h2, h3, h4⟩ := ih hm1 (by omega)
      exact ⟨h1, by omega, h3, h4⟩

theorem monthOfDay_eq_of_mem (leap : Bool) {k : Int} {m : Nat} (hm1 : 1 ≤ m) (hm : m ≤ 12)
    (h1 : daysBeforeMonth leap m ≤ k) (h2 : k < daysBeforeMonth leap (m + 1)) :
    monthOfDay leap k 12 = m := by
  have h13 := daysBeforeMonth_mono leap (show m + 1 ≤ 12 + 1 by omega)
  have h0 := daysBeforeMonth_mono leap (show 0 ≤ m by omega)
  obtain ⟨hr1, hr12, hr, hr'⟩ :=
    monthOfDay_spec leap (k := k) (m := 12) (by simp [daysBeforeMonth] at h0; omega) (by omega)
      (by omega)
  rcases lt_trichotomy (monthOfDay leap k 12) m with h | h | h
  · have := daysBeforeMonth_mono leap (show monthOfDay leap k 12 + 1 ≤ m by omega)
    omega
  · exact h
  · have := daysBeforeMonth_mono leap (show m + 1 ≤ monthOfDay leap k 12 by omega)
    omega

/-! ### Dates and day numbers -/

theorem dayNumber_of_mem {y m d : Int} (h1 : 1 ≤ m) (h2 : m ≤ 12) :
    dayNumber y m d = firstDayOfYear y + daysBeforeMonth (isLeapYear y) m.toNat + d - 1 := by
  have hq : (m - 1) / 12 = 0 := by omega
  have hr : (m - 1) % 12 + 1 = m := by omega
  simp only [dayNumber, hq, hr, add_zero]

theorem firstDayOfYear_succ_eq (y : Int) :
    firstDayOfYear (y + 1) = firstDayOfYear y + daysBeforeMonth (isLeapYear y) 13 := by
  rw [daysBeforeMonth_thirteen, firstDayOfYear_succ]

theorem toCivil_dayNumber {y m d : Int} (h : IsValidDate y m d) :
    toCivil (dayNumber y m d) = (y, m, d) := by
  obtain ⟨hm1, hm2, hd1, hd2⟩ := h
  have hn := dayNumber_of_mem (y := y) (d := d) hm1 hm2
  have hbm := daysBeforeMonth_succ (isLeapYear y) (m := m.toNat) (by omega)
  have h13 := daysBeforeMonth_mono (isLeapYear y) (show m.toNat + 1 ≤ 13 by omega)
  have hy : yearOfDay (dayNumber y m d) = y := by
    have h0 := daysBeforeMonth_mono (isLeapYear y) (show 0 ≤ m.toNat by omega)
    have := firstDayOfYear_succ_eq y
    simp only [daysBeforeMonth] at h0
    exact yearOfDay_eq_of_mem (by omega) (by omega)
  have hmo : monthOfDay (isLeapYear y) (dayNumber y m d - firstDayOfYear y) 12 = m.toNat :=
    monthOfDay_eq_of_mem _ (by omega) (by omega) (by omega) (by omega)
  simp only [toCivil, hy, hmo, Prod.mk.injEq, true_and]
  omega

theorem monthOfDay_toCivil (n : Int) :
    let k := n - firstDayOfYear (yearOfDay n)
    let m := monthOfDay (isLeapYear (yearOfDay n)) k 12
    1 ≤ m ∧ m ≤ 12 ∧ daysBeforeMonth (isLeapYear (yearOfDay n)) m ≤ k ∧
      k < daysBeforeMonth (isLeapYear (yearOfDay n)) m + monthLength (isLeapYear (yearOfDay n)) m := by
  intro k m
  obtain ⟨hy1, hy2⟩ := yearOfDay_spec n
  have := firstDayOfYear_succ_eq (yearOfDay n)
  obtain ⟨h1, h2, h3, h4⟩ := monthOfDay_spec (isLeapYear (yearOfDay n)) (k := k) (m := 12)
    (by omega) (by omega) (by simp only [Nat.reduceAdd]; omega)
  rw [daysBeforeMonth_succ _ h1] at h4
  exact ⟨h1, h2, h3, h4⟩

theorem isValidDate_toCivil (n : Int) :
    IsValidDate (toCivil n).1 (toCivil n).2.1 (toCivil n).2.2 := by
  obtain ⟨h1, h2, h3, h4⟩ := monthOfDay_toCivil n
  simp only [toCivil, IsValidDate, Int.toNat_natCast]
  omega

theorem dayNumber_toCivil (n : Int) :
    dayNumber (toCivil n).1 (toCivil n).2.1 (toCivil n).2.2 = n := by
  obtain ⟨h1, h2, -, -⟩ := monthOfDay_toCivil n
  simp only [toCivil]
  rw [dayNumber_of_mem (by omega) (by omega), Int.toNat_natCast]
  omega

theorem toCivil_dayNumber_eq_iff (y m d : Int) :
    toCivil (dayNumber y m d) = (y, m, d) ↔ IsValidDate y m d := by
  constructor
  · intro h
    have := isValidDate_toCivil (dayNumber y m d)
    rwa [h] at this
  · exact toCivil_dayNumber

theorem dayNumber_jan1 (y : Int) : dayNumber y 1 1 = firstDayOfYear y := by
  rw [dayNumber_of_mem (by omega) (by omega)]
  simp [daysBeforeMonth]

theorem dayNumber_dec31 (y : Int) : dayNumber y 12 31 + 1 = dayNumber (y + 1) 1 1 := by
  have h : ∀ leap, daysBeforeMonth leap (12 : Int).toNat + 31 = daysBeforeMonth leap 13 := by
    decide
  rw [dayNumber_jan1, firstDayOfYear_succ_eq, dayNumber_of_mem (by omega) (by omega),
    ← h (isLeapYear y)]
  omega

theorem dayNumber_mem_years {a b y m d : Int} (hy : a ≤ y ∧ y ≤ b) (h : IsValidDate y m d) :
    firstDayOfYear a ≤ dayNumber y m d ∧ dayNumber y m d < firstDayOfYear (b + 1) := by
  obtain ⟨h1, h2⟩ := yearOfDay_spec (dayNumber y m d)
  have hy' : yearOfDay (dayNumber y m d) = y := congrArg Prod.fst (toCivil_dayNumber h)
  rw [hy'] at h1 h2
  have hlo := firstDayOfYear_le_iff.2 hy.1
  have hhi := firstDayOfYear_le_iff.2 (show y + 1 ≤ b + 1 by omega)
  omega

theorem yearOfDay_mem_years {a b n : Int} (h : firstDayOfYear a ≤ n ∧ n < firstDayOfYear (b + 1)) :
    a ≤ yearOfDay n ∧ yearOfDay n ≤ b := by
  obtain ⟨h1, h2⟩ := yearOfDay_spec n
  constructor
  · by_contra hlt
    have := firstDayOfYear_le_iff.2 (show yearOfDay n + 1 ≤ a by omega)
    omega
  · by_contra hlt
    have := firstDayOfYear_le_iff.2 (show b + 1 ≤ yearOfDay n by omega)
    omega

/-! ### Months -/

def firstDayOfMonth (k : Int) : Int := dayNumber (k / 12) (k % 12 + 1) 1

theorem dayNumber_eq_firstDayOfMonth (y m d : Int) :
    dayNumber y m d = firstDayOfMonth (12 * y + m - 1) + d - 1 := by
  have hq : (12 * y + m - 1) / 12 = y + (m - 1) / 12 := by omega
  have hr : (12 * y + m - 1) % 12 = (m - 1) % 12 := by omega
  simp only [firstDayOfMonth, dayNumber, hq, hr]
  have hq' : ((m - 1) % 12 + 1 - 1) / 12 = 0 := by omega
  have hr' : ((m - 1) % 12 + 1 - 1) % 12 = (m - 1) % 12 := by omega
  rw [hq', hr', add_zero]
  omega

theorem dayNumber_normalize (y m d : Int) :
    dayNumber y m d = dayNumber (y + (m - 1) / 12) ((m - 1) % 12 + 1) 1 + (d - 1) := by
  rw [dayNumber_eq_firstDayOfMonth, dayNumber_eq_firstDayOfMonth,
    show 12 * (y + (m - 1) / 12) + ((m - 1) % 12 + 1) - 1 = 12 * y + m - 1 by omega]
  ring

def daysInMonth (k : Int) : Int := monthLength (isLeapYear (k / 12)) (k % 12 + 1).toNat

theorem daysInMonth_bounds (k : Int) : 28 ≤ daysInMonth k ∧ daysInMonth k ≤ 31 :=
  monthLength_bounds _ _

theorem firstDayOfMonth_succ (k : Int) :
    firstDayOfMonth (k + 1) = firstDayOfMonth k + daysInMonth k := by
  have hm := daysBeforeMonth_succ (isLeapYear (k / 12)) (m := (k % 12 + 1).toNat) (by omega)
  simp only [firstDayOfMonth, daysInMonth]
  rw [dayNumber_of_mem (by omega) (by omega), dayNumber_of_mem (by omega) (by omega)]
  rcases (show k % 12 = 11 ∨ k % 12 < 11 by omega) with h | h
  · have h1 : (k + 1) / 12 = k / 12 + 1 := by omega
    have h2 : ((k + 1) % 12 + 1).toNat = 1 := by omega
    have h3 : (k % 12 + 1).toNat + 1 = 13 := by omega
    rw [h1, h2, firstDayOfYear_succ_eq, ← h3, hm]
    simp only [daysBeforeMonth]
    omega
  · have h1 : (k + 1) / 12 = k / 12 := by omega
    have h2 : ((k + 1) % 12 + 1).toNat = (k % 12 + 1).toNat + 1 := by omega
    rw [h1, h2, hm]
    omega

theorem dayNumber_monthIndex (k d : Int) :
    dayNumber (k / 12) (k % 12 + 1) d = firstDayOfMonth k + d - 1 := by
  rw [dayNumber_eq_firstDayOfMonth, show 12 * (k / 12) + (k % 12 + 1) - 1 = k by omega]

theorem isValidDate_monthIndex {k d : Int} (h1 : 1 ≤ d) (h2 : d ≤ daysInMonth k) :
    IsValidDate (k / 12) (k % 12 + 1) d :=
  ⟨by omega, by omega, h1, h2⟩

theorem toCivil_monthIndex (n : Int) :
    n = firstDayOfMonth (12 * (toCivil n).1 + (toCivil n).2.1 - 1) + (toCivil n).2.2 - 1 ∧
      daysInMonth (12 * (toCivil n).1 + (toCivil n).2.1 - 1) =
        monthLength (isLeapYear (toCivil n).1) (toCivil n).2.1.toNat := by
  obtain ⟨h1, h2, -, -⟩ := isValidDate_toCivil n
  have hq : (12 * (toCivil n).1 + (toCivil n).2.1 - 1) / 12 = (toCivil n).1 := by omega
  have hr : (12 * (toCivil n).1 + (toCivil n).2.1 - 1) % 12 + 1 = (toCivil n).2.1 := by omega
  refine ⟨?_, by rw [daysInMonth, hq, hr]⟩
  rw [← dayNumber_eq_firstDayOfMonth, dayNumber_toCivil]

theorem lastDayOfMonth_eq (k : Int) :
    firstDayOfMonth (k + 1) - 1 = dayNumber (k / 12) (k % 12 + 1) (daysInMonth k) := by
  rw [firstDayOfMonth_succ, dayNumber_monthIndex]

theorem dayNumber_min (y m d d' : Int) :
    min (dayNumber y m d) (dayNumber y m d') = dayNumber y m (min d d') := by
  simp only [dayNumber]
  omega

/-! ### Weekdays -/

/-- The weekday of day `n`, from Monday as `0` to Sunday as `6`: 1970-01-01 was a
Thursday. -/
def weekday (n : Int) : Int := (n + 3) % 7

def nextWeekday (n w : Int) : Int := n + 1 + (w - weekday (n + 1)) % 7

def prevWeekday (n w : Int) : Int := n - 1 - (weekday (n - 1) - w) % 7

theorem weekday_bounds (n : Int) : 0 ≤ weekday n ∧ weekday n < 7 := by
  simp only [weekday]
  omega

theorem nextWeekday_spec (n : Int) {w : Int} (hw0 : 0 ≤ w) (hw : w < 7) :
    n < nextWeekday n w ∧ nextWeekday n w ≤ n + 7 ∧ weekday (nextWeekday n w) = w := by
  simp only [nextWeekday, weekday]
  omega

theorem prevWeekday_spec (n : Int) {w : Int} (hw0 : 0 ≤ w) (hw : w < 7) :
    prevWeekday n w < n ∧ n - 7 ≤ prevWeekday n w ∧ weekday (prevWeekday n w) = w := by
  simp only [prevWeekday, weekday]
  omega

end Impala.Civil

/-! ### Civil-time libraries -/

namespace Impala

open Civil


/-- A civil-time library, as a program calls it: the day of a year, a month and a day, with the
fields out of range carried over; the fields of a day; and weekdays, Monday being `0`. Days are
numbered from 1970-01-01. The fields name what a program may rely on. -/
class CivilTime where
  dayNumber : Int → Int → Int → Int
  toCivil : Int → Int × Int × Int
  weekday : Int → Int
  nextWeekday : Int → Int → Int
  prevWeekday : Int → Int → Int
  /-- A date counts its days in the proleptic Gregorian calendar. -/
  dayNumber_gregorian : ∀ {y m d : Int}, IsValidDate y m d → dayNumber y m d = Civil.dayNumber y m d
  /-- Months out of range carry into the year, and days into the months around them. -/
  dayNumber_normalize : ∀ y m d : Int,
    dayNumber y m d = dayNumber (y + (m - 1) / 12) ((m - 1) % 12 + 1) 1 + (d - 1)
  /-- The fields of a day form a date, and that date is the day. -/
  isValidDate_toCivil : ∀ n : Int, IsValidDate (toCivil n).1 (toCivil n).2.1 (toCivil n).2.2
  dayNumber_toCivil : ∀ n : Int, dayNumber (toCivil n).1 (toCivil n).2.1 (toCivil n).2.2 = n
  /-- 1970-01-01 was a Thursday, and each day is the weekday after the one before. -/
  weekday_zero : weekday 0 = 3
  weekday_succ : ∀ n : Int, weekday (n + 1) = (weekday n + 1) % 7
  weekday_bounds : ∀ n : Int, 0 ≤ weekday n ∧ weekday n < 7
  /-- The first day after `n`, and the last day before it, that fall on weekday `w`. -/
  nextWeekday_spec : ∀ n w : Int, 0 ≤ w → w < 7 →
    n < nextWeekday n w ∧ nextWeekday n w ≤ n + 7 ∧ weekday (nextWeekday n w) = w
  prevWeekday_spec : ∀ n w : Int, 0 ≤ w → w < 7 →
    prevWeekday n w < n ∧ n - 7 ≤ prevWeekday n w ∧ weekday (prevWeekday n w) = w

namespace CivilTime

variable [CivilTime]

theorem dayNumber_eq (y m d : Int) : CivilTime.dayNumber y m d = Civil.dayNumber y m d := by
  have hvalid : IsValidDate (y + (m - 1) / 12) ((m - 1) % 12 + 1) 1 := by
    have := monthLength_bounds (isLeapYear (y + (m - 1) / 12)) ((m - 1) % 12 + 1).toNat
    exact ⟨by omega, by omega, le_rfl, by omega⟩
  rw [dayNumber_normalize, dayNumber_gregorian hvalid, Civil.dayNumber_normalize y m d]

def firstDayOfMonth (k : Int) : Int := CivilTime.dayNumber (k / 12) (k % 12 + 1) 1

theorem firstDayOfMonth_eq (k : Int) : firstDayOfMonth k = Civil.firstDayOfMonth k :=
  dayNumber_eq _ _ _

theorem toCivil_eq (n : Int) : CivilTime.toCivil n = Civil.toCivil n := by
  have h := Civil.toCivil_dayNumber (isValidDate_toCivil n)
  rw [← dayNumber_eq, dayNumber_toCivil] at h
  exact h.symm

theorem toCivil_dayNumber_eq_iff (y m d : Int) :
    CivilTime.toCivil (CivilTime.dayNumber y m d) = (y, m, d) ↔ IsValidDate y m d := by
  rw [toCivil_eq, dayNumber_eq]
  exact Civil.toCivil_dayNumber_eq_iff y m d

theorem weekday_eq (n : Int) : CivilTime.weekday n = Civil.weekday n := by
  induction n with
  | zero => rw [weekday_zero]; rfl
  | succ i ih =>
    rw [weekday_succ, ih]
    simp only [Civil.weekday]
    omega
  | pred i ih =>
    have hs := weekday_succ (-(i : Int) - 1)
    have hb := weekday_bounds (-(i : Int) - 1)
    rw [show -(i : Int) - 1 + 1 = -(i : Int) by ring, ih] at hs
    simp only [Civil.weekday] at hs ⊢
    omega

theorem nextWeekday_eq (n : Int) {w : Int} (hw0 : 0 ≤ w) (hw : w < 7) :
    CivilTime.nextWeekday n w = Civil.nextWeekday n w := by
  obtain ⟨h1, h2, h3⟩ := nextWeekday_spec n w hw0 hw
  obtain ⟨g1, g2, g3⟩ := Civil.nextWeekday_spec n hw0 hw
  rw [weekday_eq] at h3
  simp only [Civil.weekday] at h3 g3
  omega

theorem prevWeekday_eq (n : Int) {w : Int} (hw0 : 0 ≤ w) (hw : w < 7) :
    CivilTime.prevWeekday n w = Civil.prevWeekday n w := by
  obtain ⟨h1, h2, h3⟩ := prevWeekday_spec n w hw0 hw
  obtain ⟨g1, g2, g3⟩ := Civil.prevWeekday_spec n hw0 hw
  rw [weekday_eq] at h3
  simp only [Civil.weekday] at h3 g3
  omega

end CivilTime

/-- The proleptic Gregorian calendar computes itself. -/
instance Civil.gregorian : CivilTime where
  dayNumber := Civil.dayNumber
  toCivil := Civil.toCivil
  weekday := Civil.weekday
  nextWeekday := Civil.nextWeekday
  prevWeekday := Civil.prevWeekday
  dayNumber_gregorian _ := rfl
  dayNumber_normalize := Civil.dayNumber_normalize
  isValidDate_toCivil := Civil.isValidDate_toCivil
  dayNumber_toCivil := Civil.dayNumber_toCivil
  weekday_zero := by decide
  weekday_succ n := by simp only [Civil.weekday]; omega
  weekday_bounds := Civil.weekday_bounds
  nextWeekday_spec n _ hw0 hw := Civil.nextWeekday_spec n hw0 hw
  prevWeekday_spec n _ hw0 hw := Civil.prevWeekday_spec n hw0 hw

end Impala
