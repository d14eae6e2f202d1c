import Impala.Lib.Civil
import Impala.Lib.MachineInt

/-!
Dates as days since 1970-01-01 (runtime/date-value.h, date-value.cc), with the month table
and `GetMonthAndDayFromDaysSinceJan1` of runtime/datetime-parser-common.

A `DateValue` holds `days_since_epoch_`, either a day of 0001-01-01 .. 9999-12-31 or
`INVALID_DAYS_SINCE_EPOCH`. The constructors check the range, the one from a year, a month
and a day through the civil-time library cctz, a parameter `[CivilTime]` of everything below
that holds for every library with its fields' properties. `ToYear` and
`ToYearMonthDay` do not call the library: they bracket the year by
`[(400 d + 287811200 - 591) / 146097, (400 d + 287811200 + 288) / 146097]`, pick one of the two
ends by `CalcFirstDayOfYearSinceEpoch`, and look the month up in `MONTH_RANGES` from the
average month of 30.5 days. `toYearMonthDay_eq` shows they agree with the calendar on every
valid date.
-/

set_option autoImplicit false

namespace Impala

namespace DatetimeParseUtil

def isLeapYear (year : Int) : Bool :=
  year.tmod 4 == 0 && (year.tmod 100 != 0 || year.tmod 400 == 0)

def monthRanges : List Int := [0, 31, 59, 90, 120, 151, 181, 212, 243, 273, 304, 334, 365]

def leapYearMonthRanges : List Int :=
  [0, 31, 60, 91, 121, 152, 182, 213, 244, 274, 305, 335, 366]

/-- `GetMonthAndDayFromDaysSinceJan1`: `none` where it returns false. The month is first
estimated as `days_since_jan1 / 30.5`, a double truncated to `int`; for the days of a year
the quotient is never within rounding of an integer it does not equal, so the estimate is
`2 * days_since_jan1 / 61`. -/
def getMonthAndDayFromDaysSinceJan1 (year daysSinceJan1 : Int) : Option (Int × Int) :=
  let monthRanges := if isLeapYear year then leapYearMonthRanges else monthRanges
  let m := (2 * daysSinceJan1).tdiv 61
  let month := if monthRanges.getD (m + 1).toNat 0 ≤ daysSinceJan1 then m + 2 else m + 1
  if month < 1 ∨ month > 12 then none
  else
    let day := daysSinceJan1 - monthRanges.getD (month - 1).toNat 0 + 1
    if day ≥ 1 ∧ day ≤ 31 then some (month, day) else none

theorem isLeapYear_eq (year : Int) : isLeapYear year = Civil.isLeapYear year := by
  have hdvd : ∀ b : Int, (year.tmod b == 0) = (year % b == 0) := by
    intro b
    rw [Bool.eq_iff_iff, beq_iff_eq, beq_iff_eq, ← Int.dvd_iff_tmod_eq_zero,
      Int.dvd_iff_emod_eq_zero]
  simp only [isLeapYear, Civil.isLeapYear, bne, hdvd]

theorem monthRanges_getD (leap : Bool) :
    ∀ j < 13, (if leap then leapYearMonthRanges else monthRanges).getD j 0 =
      Civil.daysBeforeMonth leap (j + 1) := by
  cases leap <;> decide

theorem daysBeforeMonth_near_average (leap : Bool) :
    ∀ m : Nat, m < 13 → 1 ≤ m → 61 * ((m : Int) - 2) ≤ 2 * Civil.daysBeforeMonth leap m ∧
      2 * Civil.daysBeforeMonth leap (m + 1) ≤ 61 * m + 1 := by
  cases leap <;> decide

theorem getMonthAndDayFromDaysSinceJan1_eq {year k : Int} {m : Nat} (hm1 : 1 ≤ m)
    (hm : m ≤ 12) (h1 : Civil.daysBeforeMonth (Civil.isLeapYear year) m ≤ k)
    (h2 : k < Civil.daysBeforeMonth (Civil.isLeapYear year) (m + 1)) :
    getMonthAndDayFromDaysSinceJan1 year k =
      some ((m : Int), k - Civil.daysBeforeMonth (Civil.isLeapYear year) m + 1) := by
  have hq : (2 * k).tdiv 61 = 2 * k / 61 := by
    have := Civil.daysBeforeMonth_mono (Civil.isLeapYear year) (show 0 ≤ m by omega)
    simp only [Civil.daysBeforeMonth] at this
    exact Int.tdiv_eq_ediv_of_nonneg (by omega)
  simp only [getMonthAndDayFromDaysSinceJan1, isLeapYear_eq, hq]
  generalize Civil.isLeapYear year = leap at h1 h2 ⊢
  have hlen := Civil.daysBeforeMonth_succ leap hm1
  have hml := Civil.monthLength_bounds leap m
  obtain ⟨hlo, hhi⟩ := daysBeforeMonth_near_average leap m (by omega) hm1
  have htab := monthRanges_getD leap
  have hest : 2 * k / 61 = (m : Int) - 2 ∨ 2 * k / 61 = (m : Int) - 1 := by omega
  have hmonth : (if (if leap then leapYearMonthRanges else monthRanges).getD
      ((2 * k / 61) + 1).toNat 0 ≤ k then 2 * k / 61 + 2 else 2 * k / 61 + 1) = m := by
    rcases hest with he | he
    · rw [he, show ((m : Int) - 2 + 1).toNat = m - 1 by omega, htab _ (by omega),
        show m - 1 + 1 = m by omega, if_pos h1]
      omega
    · rw [he, show ((m : Int) - 1 + 1).toNat = m by omega, htab _ (by omega),
        if_neg (by omega)]
      omega
  rw [hmonth, if_neg (by omega), show ((m : Int) - 1).toNat = m - 1 by omega, htab _ (by omega),
    show m - 1 + 1 = m by omega, if_pos (by omega)]

end DatetimeParseUtil

open Civil DatetimeParseUtil

def epochYear : Int := 1970

def minYear : Int := 1

def maxYear : Int := 9999

def invalidDaysSinceEpoch : Int := -2 ^ 31

/-- `CalcFirstDayOfYearSinceEpoch`: the leap years since 1970 counted by rounding
`year - 1968`, `year - 1900` and `year - 1600` up to multiples of 4, 100 and 400. -/
def calcFirstDayOfYearSinceEpoch (year : Int) : Int :=
  let m400 := year.tmod 400
  let m100 := m400.tmod 100
  let m4 := m100.tmod 4
  (year - epochYear) * 365
    + ((year - epochYear / 4 * 4 + (if m4 ≠ 0 then 4 - m4 else 0)).tdiv 4 - 1)
    - ((year - epochYear / 100 * 100 + (if m100 ≠ 0 then 100 - m100 else 0)).tdiv 100 - 1)
    + ((year - epochYear / 400 * 400 + (if m400 ≠ 0 then 400 - m400 else 0)).tdiv 400 - 1)

/-- `first_year` and `last_year` of `ToYear` and `ToYearMonthDay`, from
`tmp = days_since_epoch_ * 400 + 287811200`. -/
def yearBracket (daysSinceEpoch : Int) : Int × Int :=
  let tmp := daysSinceEpoch * 400 + 287811200
  ((tmp - 591).tdiv 146097, (tmp + 288).tdiv 146097)

theorem calcFirstDayOfYearSinceEpoch_eq {year : Int} (hy : 0 ≤ year) :
    calcFirstDayOfYearSinceEpoch year = firstDayOfYear year := by
  have h400 : year.tmod 400 = year % 400 := Int.tmod_eq_emod_of_nonneg hy
  have h100 : (year % 400).tmod 100 = year % 100 := by
    rw [Int.tmod_eq_emod_of_nonneg (by omega)]; omega
  have h4 : (year % 100).tmod 4 = year % 4 := by
    rw [Int.tmod_eq_emod_of_nonneg (by omega)]; omega
  have hq4 : (year - 1968 + (if year % 4 ≠ 0 then 4 - year % 4 else 0)).tdiv 4 =
      (year + 3) / 4 - 492 := by
    rw [Int.tdiv_eq_ediv_of_dvd (by split_ifs <;> omega)]
    split_ifs <;> omega
  have hq100 : (year - 1900 + (if year % 100 ≠ 0 then 100 - year % 100 else 0)).tdiv 100 =
      (year + 99) / 100 - 19 := by
    rw [Int.tdiv_eq_ediv_of_dvd (by split_ifs <;> omega)]
    split_ifs <;> omega
  have hq400 : (year - 1600 + (if year % 400 ≠ 0 then 400 - year % 400 else 0)).tdiv 400 =
      (year + 399) / 400 - 4 := by
    rw [Int.tdiv_eq_ediv_of_dvd (by split_ifs <;> omega)]
    split_ifs <;> omega
  simp only [calcFirstDayOfYearSinceEpoch, h400, h100, h4, epochYear, Int.reduceDiv,
    Int.reduceMul, hq4, hq100, hq400, firstDayOfYear, leapYearsBefore]
  omega

theorem firstDayOfYear_bracket (y : Int) :
    400 * firstDayOfYear y + 287811200 - 591 ≤ 146097 * y ∧
      146097 * y ≤ 400 * firstDayOfYear y + 287811200 + 288 := by
  simp only [firstDayOfYear, leapYearsBefore]
  omega

/-! ### Dates through the civil-time library -/

section CivilTime

variable [CivilTime]

def epochDate : Int := CivilTime.dayNumber epochYear 1 1

def minDaysSinceEpoch : Int := CivilTime.dayNumber minYear 1 1 - epochDate

def maxDaysSinceEpoch : Int := CivilTime.dayNumber maxYear 12 31 - epochDate


theorem epochDate_eq : epochDate = 0 := by
  rw [epochDate, CivilTime.dayNumber_eq]
  decide

theorem minDaysSinceEpoch_eq : minDaysSinceEpoch = firstDayOfYear minYear := by
  rw [minDaysSinceEpoch, epochDate_eq, CivilTime.dayNumber_eq]
  decide

theorem maxDaysSinceEpoch_eq : maxDaysSinceEpoch = firstDayOfYear (maxYear + 1) - 1 := by
  rw [maxDaysSinceEpoch, epochDate_eq, CivilTime.dayNumber_eq]
  decide

theorem minDaysSinceEpoch_val : minDaysSinceEpoch = -719162 := by
  rw [minDaysSinceEpoch_eq]
  decide

theorem maxDaysSinceEpoch_val : maxDaysSinceEpoch = 2932896 := by
  rw [maxDaysSinceEpoch_eq]
  decide

theorem invalidDaysSinceEpoch_lt_min : invalidDaysSinceEpoch < minDaysSinceEpoch := by
  rw [minDaysSinceEpoch_val]
  decide

theorem dayNumber_mem_range {y m d : Int} (hy : minYear ≤ y ∧ y ≤ maxYear)
    (h : IsValidDate y m d) :
    minDaysSinceEpoch ≤ CivilTime.dayNumber y m d - epochDate ∧
      CivilTime.dayNumber y m d - epochDate ≤ maxDaysSinceEpoch := by
  have := dayNumber_mem_years hy h
  rw [CivilTime.dayNumber_eq, minDaysSinceEpoch_eq, maxDaysSinceEpoch_eq, epochDate_eq]
  omega

/-- `DateValue`: `days_since_epoch_`, a day of the range or `INVALID_DAYS_SINCE_EPOCH`. -/
structure DateValue where
  daysSinceEpoch : Int
  inRange : daysSinceEpoch = invalidDaysSinceEpoch ∨
    minDaysSinceEpoch ≤ daysSinceEpoch ∧ daysSinceEpoch ≤ maxDaysSinceEpoch

namespace DateValue

def invalid : DateValue := ⟨invalidDaysSinceEpoch, Or.inl rfl⟩

def ofDays (days : Int) : DateValue :=
  if h : minDaysSinceEpoch ≤ days ∧ days ≤ maxDaysSinceEpoch then ⟨days, Or.inr h⟩ else invalid

/-- `DateValue(int64_t year, int64_t month, int64_t day)`: the fields of the civil day they
name must be the ones given. -/
def ofYearMonthDay (year month day : Int) : DateValue :=
  if hy : year ≥ minYear ∧ year ≤ maxYear then
    if hd : CivilTime.toCivil (CivilTime.dayNumber year month day) = (year, month, day) then
      ⟨CivilTime.dayNumber year month day - epochDate,
        Or.inr (dayNumber_mem_range hy ((CivilTime.toCivil_dayNumber_eq_iff _ _ _).1 hd))⟩
    else invalid
  else invalid

def IsValid (v : DateValue) : Prop := v.daysSinceEpoch ≠ invalidDaysSinceEpoch

instance (v : DateValue) : Decidable v.IsValid := inferInstanceAs (Decidable (_ ≠ _))

theorem IsValid.mem {v : DateValue} (h : v.IsValid) :
    minDaysSinceEpoch ≤ v.daysSinceEpoch ∧ v.daysSinceEpoch ≤ maxDaysSinceEpoch :=
  v.inRange.resolve_left h

theorem ofDays_of_mem {d : Int} (h : minDaysSinceEpoch ≤ d ∧ d ≤ maxDaysSinceEpoch) :
    (ofDays d).daysSinceEpoch = d ∧ (ofDays d).IsValid := by
  have := invalidDaysSinceEpoch_lt_min
  rw [ofDays, dif_pos h]
  exact ⟨rfl, by simp only [IsValid]; omega⟩

theorem ofYearMonthDay_eq (year month day : Int) :
    (ofYearMonthDay year month day).IsValid ↔
      minYear ≤ year ∧ year ≤ maxYear ∧ IsValidDate year month day := by
  have hlt := invalidDaysSinceEpoch_lt_min
  unfold ofYearMonthDay
  split_ifs with hy hd
  · have := dayNumber_mem_range hy ((CivilTime.toCivil_dayNumber_eq_iff _ _ _).1 hd)
    simp only [IsValid]
    exact ⟨fun _ => ⟨hy.1, hy.2, (CivilTime.toCivil_dayNumber_eq_iff _ _ _).1 hd⟩, fun _ => by omega⟩
  · simp only [invalid, IsValid, ne_eq, not_true_eq_false, false_iff]
    exact fun h => hd ((CivilTime.toCivil_dayNumber_eq_iff _ _ _).2 h.2.2)
  · simp only [invalid, IsValid, ne_eq, not_true_eq_false, false_iff]
    exact fun h => hy ⟨h.1, h.2.1⟩

theorem ofYearMonthDay_daysSinceEpoch {year month day : Int}
    (hy : minYear ≤ year ∧ year ≤ maxYear) (h : IsValidDate year month day) :
    (ofYearMonthDay year month day).daysSinceEpoch = dayNumber year month day - epochDate := by
  rw [ofYearMonthDay, dif_pos (show year ≥ minYear ∧ year ≤ maxYear from hy),
    dif_pos ((CivilTime.toCivil_dayNumber_eq_iff _ _ _).2 h)]
  exact congrArg (· - epochDate) (CivilTime.dayNumber_eq _ _ _)

end DateValue

/-! ### `ToYear` and `ToYearMonthDay` -/

namespace DateValue

def toYear (v : DateValue) : Option Int :=
  if v.IsValid then
    let (firstYear, lastYear) := yearBracket v.daysSinceEpoch
    some (if firstYear = lastYear then firstYear
      else if calcFirstDayOfYearSinceEpoch lastYear ≤ v.daysSinceEpoch then lastYear
      else firstYear)
  else none

def toYearMonthDay (v : DateValue) : Option (Int × Int × Int) :=
  if v.IsValid then
    let (firstYear, lastYear) := yearBracket v.daysSinceEpoch
    let jan1Dse := calcFirstDayOfYearSinceEpoch lastYear
    let (year, jan1Dse) :=
      if jan1Dse ≤ v.daysSinceEpoch then (lastYear, jan1Dse)
      else (firstYear, jan1Dse - if DatetimeParseUtil.isLeapYear firstYear then 366 else 365)
    (getMonthAndDayFromDaysSinceJan1 year (v.daysSinceEpoch - jan1Dse)).map
      fun (month, day) => (year, month, day)
  else none

end DateValue

section Bracket

variable {d : Int} (hd : minDaysSinceEpoch ≤ d ∧ d ≤ maxDaysSinceEpoch)
include hd

theorem yearBracket_spec :
    0 ≤ d * 400 + 287811200 - 591 ∧ d * 400 + 287811200 + 288 < 2 ^ 31 ∧
      (yearBracket d).1 ≤ yearOfDay d ∧ yearOfDay d ≤ (yearBracket d).2 ∧
      (yearBracket d).2 ≤ (yearBracket d).1 + 1 ∧ 0 ≤ (yearBracket d).1 := by
  obtain ⟨h1, h2⟩ := yearOfDay_spec d
  have hY := firstDayOfYear_bracket (yearOfDay d)
  have hY1 := firstDayOfYear_bracket (yearOfDay d + 1)
  rw [minDaysSinceEpoch_val, maxDaysSinceEpoch_val] at hd
  simp only [yearBracket]
  rw [Int.tdiv_eq_ediv_of_nonneg (by omega), Int.tdiv_eq_ediv_of_nonneg (by omega)]
  omega

theorem yearBracket_pick :
    (calcFirstDayOfYearSinceEpoch (yearBracket d).2 ≤ d → yearOfDay d = (yearBracket d).2) ∧
      (¬ calcFirstDayOfYearSinceEpoch (yearBracket d).2 ≤ d →
        yearOfDay d = (yearBracket d).1 ∧ (yearBracket d).2 = (yearBracket d).1 + 1) := by
  obtain ⟨-, -, hf, hl, hw, h0⟩ := yearBracket_spec hd
  obtain ⟨h1, h2⟩ := yearOfDay_spec d
  rw [calcFirstDayOfYearSinceEpoch_eq (by omega)]
  constructor
  · intro h
    have : ¬ yearOfDay d + 1 ≤ (yearBracket d).2 := fun hlt =>
      absurd (lt_of_lt_of_le h2 (firstDayOfYear_le_iff.2 hlt)) (not_lt.2 h)
    omega
  · intro h
    have : yearOfDay d ≠ (yearBracket d).2 := fun he => h (he ▸ h1)
    omega

end Bracket

namespace DateValue

variable {v : DateValue} (hv : v.IsValid)
include hv

theorem toYear_eq : v.toYear = some (yearOfDay v.daysSinceEpoch) := by
  have hp := yearBracket_pick hv.mem
  obtain ⟨-, -, hf, hl, -, -⟩ := yearBracket_spec hv.mem
  simp only [toYear, if_pos hv, Option.some.injEq]
  split_ifs with h1 h2
  · omega
  · exact (hp.1 h2).symm
  · exact (hp.2 h2).1.symm

theorem toYearMonthDay_eq : v.toYearMonthDay = some (toCivil v.daysSinceEpoch) := by
  have hp := yearBracket_pick hv.mem
  obtain ⟨-, -, hf, hl, -, h0⟩ := yearBracket_spec hv.mem
  have hy : ∀ year jan1 : Int, yearOfDay v.daysSinceEpoch = year → firstDayOfYear year = jan1 →
      (getMonthAndDayFromDaysSinceJan1 year (v.daysSinceEpoch - jan1)).map
        (fun (month, day) => (year, month, day)) = some (toCivil v.daysSinceEpoch) := by
    rintro year jan1 rfl rfl
    obtain ⟨h1, h2, h3, h4⟩ := monthOfDay_toCivil v.daysSinceEpoch
    rw [getMonthAndDayFromDaysSinceJan1_eq h1 h2 h3 (by rw [daysBeforeMonth_succ _ h1]; exact h4)]
    rfl
  simp only [toYearMonthDay, if_pos hv]
  by_cases h : calcFirstDayOfYearSinceEpoch (yearBracket v.daysSinceEpoch).2 ≤ v.daysSinceEpoch
  · simp only [if_pos h]
    exact hy _ _ (hp.1 h) (calcFirstDayOfYearSinceEpoch_eq (by omega)).symm
  · obtain ⟨hY, hl⟩ := hp.2 h
    simp only [if_neg h]
    refine hy _ _ hY ?_
    rw [calcFirstDayOfYearSinceEpoch_eq (by omega), hl, firstDayOfYear_succ, isLeapYear_eq,
      yearLength]
    split_ifs <;> omega

end DateValue

theorem yearOfDay_mem_range {d : Int} (hd : minDaysSinceEpoch ≤ d ∧ d ≤ maxDaysSinceEpoch) :
    minYear ≤ yearOfDay d ∧ yearOfDay d ≤ maxYear := by
  rw [minDaysSinceEpoch_eq, maxDaysSinceEpoch_eq] at hd
  exact yearOfDay_mem_years ⟨hd.1, by omega⟩

theorem date_conversions_inverse :
    (∀ d : Int, minDaysSinceEpoch ≤ d → d ≤ maxDaysSinceEpoch →
      ∃ y m dd : Int, (DateValue.ofDays d).toYearMonthDay = some (y, m, dd) ∧
        IsValidDate y m dd ∧ dayNumber y m dd - epochDate = d ∧
        (DateValue.ofYearMonthDay y m dd).daysSinceEpoch = d ∧
        (DateValue.ofDays d).toYear = some y) ∧
    ∀ y m dd : Int, ¬ (minYear ≤ y ∧ y ≤ maxYear ∧ IsValidDate y m dd) →
      ¬ (DateValue.ofYearMonthDay y m dd).IsValid := by
  refine ⟨fun d h1 h2 => ?_, fun y m dd h => mt (DateValue.ofYearMonthDay_eq y m dd).1 h⟩
  obtain ⟨hd, hv⟩ := DateValue.ofDays_of_mem ⟨h1, h2⟩
  have hday : dayNumber (toCivil d).1 (toCivil d).2.1 (toCivil d).2.2 - epochDate = d := by
    rw [dayNumber_toCivil, epochDate_eq, sub_zero]
  refine ⟨(toCivil d).1, (toCivil d).2.1, (toCivil d).2.2, ?_, isValidDate_toCivil d, hday,
    ?_, ?_⟩
  · rw [DateValue.toYearMonthDay_eq hv, hd]
  · have hy : minYear ≤ (toCivil d).1 ∧ (toCivil d).1 ≤ maxYear := yearOfDay_mem_range ⟨h1, h2⟩
    rw [DateValue.ofYearMonthDay_daysSinceEpoch hy (isValidDate_toCivil d), hday]
  · rw [DateValue.toYear_eq hv, hd]
    rfl

end CivilTime

theorem date_conversions_inverse_epoch :
    minDaysSinceEpoch ≤ 0 ∧ 0 ≤ maxDaysSinceEpoch ∧
      (∃ y m dd : Int, (DateValue.ofDays 0).toYearMonthDay = some (y, m, dd) ∧
        IsValidDate y m dd ∧ dayNumber y m dd - epochDate = 0 ∧
        (DateValue.ofYearMonthDay y m dd).daysSinceEpoch = 0 ∧
        (DateValue.ofDays 0).toYear = some y) ∧
      ¬ (minYear ≤ 2023 ∧ 2023 ≤ maxYear ∧ IsValidDate 2023 2 29) ∧
      ¬ (DateValue.ofYearMonthDay 2023 2 29).IsValid :=
  ⟨by decide, by decide, date_conversions_inverse.1 0 (by decide) (by decide), by decide,
    date_conversions_inverse.2 2023 2 29 (by decide)⟩

section CivilTime

variable [CivilTime]

/-! ### Date arithmetic -/

namespace DateValue

@[ext]
theorem ext' {v w : DateValue} (h : v.daysSinceEpoch = w.daysSinceEpoch) : v = w := by
  cases v; cases w; cases h; rfl

theorem ofDays_self {v : DateValue} (hv : v.IsValid) : ofDays v.daysSinceEpoch = v :=
  ext' (ofDays_of_mem hv.mem).1

theorem ofDays_of_isValid {x : Int} (h : (ofDays x).IsValid) : (ofDays x).daysSinceEpoch = x := by
  unfold ofDays at h ⊢
  split_ifs at h ⊢
  · rfl
  · exact absurd rfl h

def addDays (v : DateValue) (days : Int) : DateValue :=
  if ¬ v.IsValid ∨ days < minDaysSinceEpoch - v.daysSinceEpoch ∨
      days > maxDaysSinceEpoch - v.daysSinceEpoch then invalid
  else ofDays (v.daysSinceEpoch + days)

/-- `SubtractDays`: `days_since_epoch_ - days` is an `int64_t` subtraction, whose overflow
is modelled as the machine's wrap-around. -/
def subtractDays (v : DateValue) (days : Int) : DateValue :=
  if ¬ v.IsValid then invalid
  else
    let delta := MachineInt.toSigned 64 (v.daysSinceEpoch - days)
    if delta < minDaysSinceEpoch ∨ delta > maxDaysSinceEpoch then invalid else ofDays delta

/-- `AddMonths`: the day capped at the length of the target month, or that month's last day
when `keep_last_day` and the date is the last of its month. -/
def addMonths (v : DateValue) (months : Int) (keepLastDay : Bool) : DateValue :=
  if ¬ v.IsValid then invalid
  else
    let today := epochDate + v.daysSinceEpoch
    let (year, month, day) := CivilTime.toCivil today
    let totalMonths := year * 12 + month - 1
    if months < minYear * 12 - totalMonths ∨ months > maxYear * 12 + 11 - totalMonths then invalid
    else
      let month' := totalMonths
      let resultMonth := month' + months
      let lastDayOfResultMonth := CivilTime.firstDayOfMonth (resultMonth + 1) - 1
      let lastDayOfMonth := CivilTime.firstDayOfMonth (month' + 1) - 1
      if keepLastDay ∧ today = lastDayOfMonth then
        let (y, m, d) := CivilTime.toCivil lastDayOfResultMonth
        ofYearMonthDay y m d
      else
        let ansNormalized := CivilTime.dayNumber (resultMonth / 12) (resultMonth % 12 + 1) day
        let ansCapped := min ansNormalized lastDayOfResultMonth
        let (y, m, d) := CivilTime.toCivil ansCapped
        ofYearMonthDay y m d

def addYears (v : DateValue) (years : Int) : DateValue :=
  if ¬ v.IsValid then invalid
  else
    let today := epochDate + v.daysSinceEpoch
    let (year, month, day) := CivilTime.toCivil today
    if years < minYear - year ∨ years > maxYear - year then invalid
    else
      let resultYear := year + years
      if month = 2 ∧ day = 29 then
        let resultMonth := 12 * resultYear + month - 1
        let lastDayOfResultMonth := CivilTime.firstDayOfMonth (resultMonth + 1) - 1
        ofYearMonthDay resultYear (CivilTime.toCivil lastDayOfResultMonth).2.1
          (CivilTime.toCivil lastDayOfResultMonth).2.2
      else ofYearMonthDay resultYear month day

variable {v : DateValue} (hv : v.IsValid)
include hv

theorem addDays_eq (days : Int) : v.addDays days = ofDays (v.daysSinceEpoch + days) := by
  unfold addDays
  split_ifs with h
  · have h' := h.resolve_left (not_not.2 hv)
    have hn : ¬ (minDaysSinceEpoch ≤ v.daysSinceEpoch + days ∧
        v.daysSinceEpoch + days ≤ maxDaysSinceEpoch) := by omega
    simp only [ofDays, dif_neg hn]
  · rfl

theorem subtractDays_eq {days : Int} (h1 : -2 ^ 63 ≤ days) (h2 : days < 2 ^ 63) :
    v.subtractDays days = ofDays (v.daysSinceEpoch - days) := by
  obtain ⟨hlo, hhi⟩ := hv.mem
  have hr : minDaysSinceEpoch = -719162 ∧ maxDaysSinceEpoch = 2932896 :=
    ⟨minDaysSinceEpoch_val, maxDaysSinceEpoch_val⟩
  have hw : (-2 ^ 63 ≤ v.daysSinceEpoch - days ∧ v.daysSinceEpoch - days < 2 ^ 63 ∧
        MachineInt.toSigned 64 (v.daysSinceEpoch - days) = v.daysSinceEpoch - days) ∨
      (2 ^ 63 ≤ v.daysSinceEpoch - days ∧
        MachineInt.toSigned 64 (v.daysSinceEpoch - days) = v.daysSinceEpoch - days - 2 ^ 64) ∨
      (v.daysSinceEpoch - days < -2 ^ 63 ∧
        MachineInt.toSigned 64 (v.daysSinceEpoch - days) = v.daysSinceEpoch - days + 2 ^ 64) := by
    rcases lt_or_ge (v.daysSinceEpoch - days) (-2 ^ 63) with hn | hn
    · exact .inr (.inr ⟨hn, MachineInt.toSigned_of_wrap_neg (w := 63) (by norm_num; omega) hn⟩)
    rcases lt_or_ge (v.daysSinceEpoch - days) (2 ^ 63) with hp | hp
    · exact .inl ⟨hn, hp, MachineInt.toSigned_of_bounds (w := 63) hn hp⟩
    · exact .inr (.inl ⟨hp, MachineInt.toSigned_of_wrap (w := 63) hp (by norm_num; omega)⟩)
  have hout : ∀ x, ¬ (minDaysSinceEpoch ≤ x ∧ x ≤ maxDaysSinceEpoch) → ofDays x = invalid :=
    fun x hx => dif_neg hx
  simp only [subtractDays, if_neg (not_not.2 hv)]
  split_ifs with h
  · exact (hout _ (by omega)).symm
  · rcases hw with ⟨-, -, hw⟩ | ⟨-, hw⟩ | ⟨-, hw⟩ <;> rw [hw] at h ⊢ <;> first | rfl | omega

theorem addMonths_eq {y m d : Int} (hc : toCivil v.daysSinceEpoch = (y, m, d)) (months : Int)
    (keepLastDay : Bool) :
    v.addMonths months keepLastDay =
      if y * 12 + m - 1 + months < 12 * minYear ∨ y * 12 + m - 1 + months > 12 * maxYear + 11
      then invalid
      else ofYearMonthDay ((y * 12 + m - 1 + months) / 12) ((y * 12 + m - 1 + months) % 12 + 1)
        (if keepLastDay ∧ d = daysInMonth (y * 12 + m - 1) then daysInMonth (y * 12 + m - 1 + months)
          else min d (daysInMonth (y * 12 + m - 1 + months))) := by
  obtain ⟨hn, -⟩ := toCivil_monthIndex v.daysSinceEpoch
  obtain ⟨-, -, hd1, -⟩ := isValidDate_toCivil v.daysSinceEpoch
  rw [hc] at hn hd1
  simp only [Int.mul_comm 12 y] at hn hd1
  have hT := firstDayOfMonth_succ (y * 12 + m - 1)
  have hlen := daysInMonth_bounds (y * 12 + m - 1 + months)
  have hrange : (months < minYear * 12 - (y * 12 + m - 1) ∨
      months > maxYear * 12 + 11 - (y * 12 + m - 1)) ↔
      (y * 12 + m - 1 + months < 12 * minYear ∨ y * 12 + m - 1 + months > 12 * maxYear + 11) := by
    omega
  have hlast : (keepLastDay = true ∧ v.daysSinceEpoch = firstDayOfMonth (y * 12 + m - 1 + 1) - 1) ↔
      (keepLastDay = true ∧ d = daysInMonth (y * 12 + m - 1)) :=
    and_congr_right fun _ => by omega
  simp only [addMonths, if_neg (not_not.2 hv), epochDate_eq, zero_add, CivilTime.toCivil_eq, hc,
    CivilTime.firstDayOfMonth_eq, CivilTime.dayNumber_eq, hrange, hlast]
  simp only [lastDayOfMonth_eq, dayNumber_min]
  split_ifs with hr hk
  · rfl
  · rw [toCivil_dayNumber (isValidDate_monthIndex (by omega) le_rfl)]
  · rw [toCivil_dayNumber (isValidDate_monthIndex (by omega) (min_le_right _ _))]

theorem addYears_eq {y m d : Int} (hc : toCivil v.daysSinceEpoch = (y, m, d)) (years : Int) :
    v.addYears years =
      if y + years < minYear ∨ y + years > maxYear then invalid
      else ofYearMonthDay (y + years) m
        (if m = 2 ∧ d = 29 then daysInMonth (12 * (y + years) + 1) else d) := by
  have hrange : (years < minYear - y ∨ years > maxYear - y) ↔
      (y + years < minYear ∨ y + years > maxYear) := by
    omega
  simp only [addYears, if_neg (not_not.2 hv), epochDate_eq, zero_add, CivilTime.toCivil_eq, hc,
    CivilTime.firstDayOfMonth_eq, hrange]
  split_ifs with hr hf
  · rfl
  · have hlen := daysInMonth_bounds (12 * (y + years) + 2 - 1)
    rw [hf.1, lastDayOfMonth_eq, toCivil_dayNumber (isValidDate_monthIndex (by omega) le_rfl),
      show (12 * (y + years) + 2 - 1) % 12 + 1 = 2 by omega,
      show 12 * (y + years) + 2 - 1 = 12 * (y + years) + 1 by omega]
  · rfl

omit hv

/-- `AddDays`, `AddMonths` and `AddYears` are the arithmetic of the proleptic Gregorian
calendar, whichever civil-time library they run on: from a valid date `y-m-d`, the day count
moves by `days`; the month index moves by `months`, the day kept but capped at the new month's
length, or set to it when `keep_last_day` and the date ends its month; the year moves by
`years`, with 29 February going to the last day of February. A result outside the years 1 to
9999 is invalid. -/
theorem dateValue_arithmetic_calendar {v : DateValue} (hv : v.IsValid) {y m d : Int}
    (hc : toCivil v.daysSinceEpoch = (y, m, d)) :
    (∀ days, v.addDays days = ofDays (v.daysSinceEpoch + days)) ∧
    (∀ months keepLastDay, v.addMonths months keepLastDay =
      if y * 12 + m - 1 + months < 12 * minYear ∨ y * 12 + m - 1 + months > 12 * maxYear + 11
      then invalid
      else ofYearMonthDay ((y * 12 + m - 1 + months) / 12) ((y * 12 + m - 1 + months) % 12 + 1)
        (if keepLastDay ∧ d = daysInMonth (y * 12 + m - 1) then daysInMonth (y * 12 + m - 1 + months)
          else min d (daysInMonth (y * 12 + m - 1 + months)))) ∧
    (∀ years, v.addYears years =
      if y + years < minYear ∨ y + years > maxYear then invalid
      else ofYearMonthDay (y + years) m
        (if m = 2 ∧ d = 29 then daysInMonth (12 * (y + years) + 1) else d)) :=
  ⟨addDays_eq hv, addMonths_eq hv hc, addYears_eq hv hc⟩

/-- `SubtractDays` computes `days_since_epoch_ - days` in `int64_t`: for every count below
`days_since_epoch_ - INT64_MAX` (`INT64_MIN` on every day from 1970-01-01 on) the difference
overflows. Wrapped around, it lands below the range, so the result is still invalid. -/
theorem subtractDays_int64_overflow {v : DateValue} (hv : v.IsValid) {days : Int}
    (hdays : -2 ^ 63 ≤ days) (h : days < v.daysSinceEpoch - (2 ^ 63 - 1)) :
    2 ^ 63 ≤ v.daysSinceEpoch - days ∧
      MachineInt.toSigned 64 (v.daysSinceEpoch - days) = v.daysSinceEpoch - days - 2 ^ 64 ∧
      v.subtractDays days = invalid := by
  obtain ⟨hlo, hhi⟩ := hv.mem
  have hmax := maxDaysSinceEpoch_val
  refine ⟨by omega, MachineInt.toSigned_of_wrap (w := 63) (by omega) (by norm_num; omega), ?_⟩
  rw [subtractDays_eq hv hdays (by omega)]
  exact dif_neg (by omega)

end DateValue

end CivilTime

namespace DateValue

theorem subtractDays_int64_overflow_epoch :
    (ofDays 0).IsValid ∧ -2 ^ 63 ≤ (-2 ^ 63 : Int) ∧
      (-2 ^ 63 : Int) < (ofDays 0).daysSinceEpoch - (2 ^ 63 - 1) ∧
      2 ^ 63 ≤ (ofDays 0).daysSinceEpoch - -2 ^ 63 ∧
      MachineInt.toSigned 64 ((ofDays 0).daysSinceEpoch - -2 ^ 63) =
        (ofDays 0).daysSinceEpoch - -2 ^ 63 - 2 ^ 64 ∧
      (ofDays 0).subtractDays (-2 ^ 63) = invalid := by
  have hv : (ofDays 0).IsValid := by decide
  have hd : (ofDays 0).daysSinceEpoch = 0 := by decide
  exact ⟨hv, le_rfl, by rw [hd]; norm_num, subtractDays_int64_overflow hv le_rfl (by rw [hd]; norm_num)⟩

theorem dateValue_arithmetic_calendar_leap_day :
    (ofDays 19782).addYears 1 = ofYearMonthDay 2025 2 28 ∧
      (ofDays 19753).addMonths 1 true = ofYearMonthDay 2024 2 29 := by
  have hyear := (dateValue_arithmetic_calendar (v := ofDays 19782) (by decide)
    (y := 2024) (m := 2) (d := 29) (by decide)).2.2 1
  have hmonth := (dateValue_arithmetic_calendar (v := ofDays 19753) (by decide)
    (y := 2024) (m := 1) (d := 31) (by decide)).2.1 1 true
  rw [hyear, hmonth]
  refine ⟨?_, ?_⟩
  · rw [if_neg (show ¬ (2024 + 1 < minYear ∨ 2024 + 1 > maxYear) by decide),
      if_pos (show (2 : Int) = 2 ∧ (29 : Int) = 29 from ⟨rfl, rfl⟩)]
    rfl
  · rw [if_neg (show ¬ (2024 * 12 + 1 - 1 + 1 < 12 * minYear ∨
        2024 * 12 + 1 - 1 + 1 > 12 * maxYear + 11) by decide),
      if_pos (show true = true ∧ (31 : Int) = daysInMonth (2024 * 12 + 1 - 1) by decide)]
    rfl

end DateValue

end Impala
