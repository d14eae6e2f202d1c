import Impala.Runtime.DateValue

/-!
ISO 8601 week dates of a `DateValue` (runtime/date-value.cc, `GetFirstIso8601MondayOfYear`,
`GetLastIso8601SundayOfYear`, `CreateFromIso8601WeekBasedDateVals`, `WeekDay`,
`Iso8601WeekOfYear` and `Iso8601WeekNumberingYear`).

The first Monday of an ISO year is the Monday of the week of January 4
(`getFirstIso8601MondayOfYear_eq`), and its last Sunday is the day before the next year's
first Monday (`getLastIso8601SundayOfYear_eq`): the ISO years tile the days, each 52 or 53
weeks long. The accessors look at the Gregorian year of the day and move to the year before
or after when the day falls outside it; `iso8601_accessors_spec` reads their three branches as
one, the ISO year whose weeks hold the day. `iso8601_week_date_inverse` follows.
-/

set_option autoImplicit false

namespace Impala

open Civil

section CivilTime

variable [CivilTime]

/-- `GetFirstIso8601MondayOfYear`: the Monday on or before January 1 when that is a Monday to
Thursday, and the Monday after it otherwise. -/
def getFirstIso8601MondayOfYear (year : Int) : Int :=
  let jan1 := CivilTime.dayNumber year 1 1
  if CivilTime.weekday jan1 ≤ 3 then CivilTime.nextWeekday jan1 0 - 7
  else CivilTime.nextWeekday jan1 0

/-- `GetLastIso8601SundayOfYear`: the Sunday on or after December 31 when that is a Thursday
to Sunday, and the Sunday before it otherwise. -/
def getLastIso8601SundayOfYear (year : Int) : Int :=
  let dec31 := CivilTime.dayNumber year 12 31
  if CivilTime.weekday dec31 ≥ 3 then CivilTime.prevWeekday dec31 6 + 7
  else CivilTime.prevWeekday dec31 6

namespace DateValue

def createFromIso8601WeekBasedDateVals (year weekOfYear dayOfWeek : Int) : DateValue :=
  if year ≥ minYear ∧ year ≤ maxYear ∧ weekOfYear ≥ 1 ∧ weekOfYear ≤ 53 ∧
      1 ≤ dayOfWeek ∧ dayOfWeek ≤ 7 then
    let firstMonday := getFirstIso8601MondayOfYear year
    let lastSunday := getLastIso8601SundayOfYear year
    let today := firstMonday + (weekOfYear - 1) * 7 + dayOfWeek - 1
    if today ≤ lastSunday then ofDays (today - epochDate) else invalid
  else invalid

def weekDay (v : DateValue) : Int :=
  if v.IsValid then CivilTime.weekday (epochDate + v.daysSinceEpoch) else -1

def iso8601WeekOfYear (v : DateValue) : Int :=
  if ¬ v.IsValid then -1
  else
    let today := epochDate + v.daysSinceEpoch
    let firstMonday := getFirstIso8601MondayOfYear (CivilTime.toCivil today).1
    let lastSunday := getLastIso8601SundayOfYear (CivilTime.toCivil today).1
    if today ≥ firstMonday ∧ today ≤ lastSunday then (today - firstMonday).tdiv 7 + 1
    else if today > lastSunday then 1
    else
      let prevJan1 := CivilTime.dayNumber ((CivilTime.toCivil today).1 - 1) 1 1
      let prevFirstMonday :=
        if CivilTime.weekday prevJan1 ≤ 3 then CivilTime.nextWeekday prevJan1 0 - 7
        else CivilTime.nextWeekday prevJan1 0
      (today - prevFirstMonday).tdiv 7 + 1

def iso8601WeekNumberingYear (v : DateValue) : Int :=
  if ¬ v.IsValid then -1
  else
    let today := epochDate + v.daysSinceEpoch
    let firstMonday := getFirstIso8601MondayOfYear (CivilTime.toCivil today).1
    let lastSunday := getLastIso8601SundayOfYear (CivilTime.toCivil today).1
    if today ≥ firstMonday ∧ today ≤ lastSunday then (CivilTime.toCivil today).1
    else if today > lastSunday then (CivilTime.toCivil today).1 + 1
    else (CivilTime.toCivil today).1 - 1

end DateValue

/-! ### ISO years -/

theorem getFirstIso8601MondayOfYear_eq (y : Int) :
    getFirstIso8601MondayOfYear y = firstDayOfYear y + 3 - weekday (firstDayOfYear y + 3) := by
  simp only [getFirstIso8601MondayOfYear, CivilTime.dayNumber_eq, CivilTime.weekday_eq,
    CivilTime.nextWeekday_eq _ le_rfl (show (0 : Int) < 7 by norm_num), dayNumber_jan1,
    nextWeekday, weekday]
  split_ifs <;> omega

theorem getLastIso8601SundayOfYear_eq (y : Int) :
    getLastIso8601SundayOfYear y = getFirstIso8601MondayOfYear (y + 1) - 1 := by
  have h := dayNumber_dec31 y
  rw [dayNumber_jan1] at h
  rw [getFirstIso8601MondayOfYear_eq]
  simp only [getLastIso8601SundayOfYear, CivilTime.dayNumber_eq, CivilTime.weekday_eq,
    CivilTime.prevWeekday_eq _ (show (0 : Int) ≤ 6 by norm_num) (show (6 : Int) < 7 by norm_num),
    prevWeekday, weekday]
  split_ifs <;> omega

theorem weekday_getFirstIso8601MondayOfYear (y : Int) :
    weekday (getFirstIso8601MondayOfYear y) = 0 := by
  rw [getFirstIso8601MondayOfYear_eq]
  simp only [weekday]
  omega

theorem getFirstIso8601MondayOfYear_near (y : Int) :
    firstDayOfYear y - 3 ≤ getFirstIso8601MondayOfYear y ∧
      getFirstIso8601MondayOfYear y ≤ firstDayOfYear y + 3 := by
  rw [getFirstIso8601MondayOfYear_eq]
  simp only [weekday]
  omega

theorem getFirstIso8601MondayOfYear_mono {a b : Int} (h : a ≤ b) :
    getFirstIso8601MondayOfYear a ≤ getFirstIso8601MondayOfYear b := by
  have hj := firstDayOfYear_le_iff.2 h
  rw [getFirstIso8601MondayOfYear_eq, getFirstIso8601MondayOfYear_eq]
  simp only [weekday]
  omega

theorem getFirstIso8601MondayOfYear_succ (y : Int) :
    getFirstIso8601MondayOfYear y + 364 ≤ getFirstIso8601MondayOfYear (y + 1) ∧
      getFirstIso8601MondayOfYear (y + 1) ≤ getFirstIso8601MondayOfYear y + 371 := by
  have hs := firstDayOfYear_succ y
  have hl : yearLength (isLeapYear y) = 365 ∨ yearLength (isLeapYear y) = 366 := by
    unfold yearLength; split_ifs <;> simp
  rw [getFirstIso8601MondayOfYear_eq, getFirstIso8601MondayOfYear_eq]
  simp only [weekday]
  omega

theorem isoYear_unique {n a b : Int}
    (ha : getFirstIso8601MondayOfYear a ≤ n ∧ n < getFirstIso8601MondayOfYear (a + 1))
    (hb : getFirstIso8601MondayOfYear b ≤ n ∧ n < getFirstIso8601MondayOfYear (b + 1)) :
    a = b := by
  rcases lt_trichotomy a b with h | h | h
  · have := getFirstIso8601MondayOfYear_mono (show a + 1 ≤ b by omega)
    omega
  · exact h
  · have := getFirstIso8601MondayOfYear_mono (show b + 1 ≤ a by omega)
    omega

namespace DateValue

variable {v : DateValue} (hv : v.IsValid)
include hv

theorem iso8601_accessors_spec :
    getFirstIso8601MondayOfYear v.iso8601WeekNumberingYear ≤ v.daysSinceEpoch ∧
      v.daysSinceEpoch < getFirstIso8601MondayOfYear (v.iso8601WeekNumberingYear + 1) ∧
      v.iso8601WeekOfYear =
        (v.daysSinceEpoch - getFirstIso8601MondayOfYear v.iso8601WeekNumberingYear) / 7 + 1 := by
  have hfm : ∀ Y : Int, (if CivilTime.weekday (CivilTime.dayNumber (Y - 1) 1 1) ≤ 3 then
      CivilTime.nextWeekday (CivilTime.dayNumber (Y - 1) 1 1) 0 - 7
      else CivilTime.nextWeekday (CivilTime.dayNumber (Y - 1) 1 1) 0) =
      getFirstIso8601MondayOfYear (Y - 1) := fun _ => rfl
  have hY := yearOfDay_spec v.daysSinceEpoch
  simp only [iso8601WeekNumberingYear, iso8601WeekOfYear, if_neg (not_not.2 hv), epochDate_eq,
    zero_add, hfm, CivilTime.toCivil_eq]
  generalize v.daysSinceEpoch = n at hY ⊢
  change firstDayOfYear (toCivil n).1 ≤ n ∧ n < firstDayOfYear ((toCivil n).1 + 1) at hY
  generalize (toCivil n).1 = Y at hY ⊢
  obtain ⟨hj1, hj2⟩ := hY
  have hprev := getFirstIso8601MondayOfYear_succ (Y - 1)
  have hnext := getFirstIso8601MondayOfYear_succ (Y + 1)
  have hnear0 := getFirstIso8601MondayOfYear_near (Y - 1)
  have hnear := getFirstIso8601MondayOfYear_near Y
  have hnear1 := getFirstIso8601MondayOfYear_near (Y + 1)
  have hs := firstDayOfYear_succ (Y - 1)
  have hl : yearLength (isLeapYear (Y - 1)) ≤ 366 := by unfold yearLength; split_ifs <;> simp
  rw [sub_add_cancel] at hprev hs
  rw [getLastIso8601SundayOfYear_eq]
  split_ifs with h1 h2
  · rw [Int.tdiv_eq_ediv_of_nonneg (by omega)]
    exact ⟨h1.1, by omega, rfl⟩
  · omega
  · rw [Int.tdiv_eq_ediv_of_nonneg (by omega), sub_add_cancel]
    exact ⟨by omega, by omega, rfl⟩

theorem weekDay_eq : v.weekDay = weekday v.daysSinceEpoch := by
  simp only [weekDay, if_pos hv, epochDate_eq, zero_add, CivilTime.weekday_eq]

theorem iso8601WeekNumberingYear_mem :
    minYear ≤ v.iso8601WeekNumberingYear ∧ v.iso8601WeekNumberingYear ≤ maxYear := by
  obtain ⟨h1, h2, -⟩ := iso8601_accessors_spec hv
  obtain ⟨hlo, hhi⟩ := hv.mem
  have hmin : getFirstIso8601MondayOfYear minYear = minDaysSinceEpoch := by
    rw [getFirstIso8601MondayOfYear_eq, minDaysSinceEpoch_val]
    decide
  have hmax : maxDaysSinceEpoch < getFirstIso8601MondayOfYear (maxYear + 1) := by
    rw [getFirstIso8601MondayOfYear_eq, maxDaysSinceEpoch_val]
    decide
  constructor
  · by_contra h
    have := getFirstIso8601MondayOfYear_mono (show v.iso8601WeekNumberingYear + 1 ≤ minYear by omega)
    omega
  · by_contra h
    have := getFirstIso8601MondayOfYear_mono (show maxYear + 1 ≤ v.iso8601WeekNumberingYear by omega)
    omega

end DateValue

open DateValue in
theorem iso8601_week_date_inverse :
    (∀ v : DateValue, v.IsValid →
      createFromIso8601WeekBasedDateVals v.iso8601WeekNumberingYear v.iso8601WeekOfYear
        (v.weekDay + 1) = v) ∧
    ∀ year week day : Int, minYear ≤ year → year ≤ maxYear → 1 ≤ week → week ≤ 53 →
      1 ≤ day → day ≤ 7 →
      ¬ (createFromIso8601WeekBasedDateVals year week day).IsValid ∨
        ((createFromIso8601WeekBasedDateVals year week day).iso8601WeekNumberingYear = year ∧
          (createFromIso8601WeekBasedDateVals year week day).iso8601WeekOfYear = week ∧
          (createFromIso8601WeekBasedDateVals year week day).weekDay + 1 = day) := by
  constructor
  · intro v hv
    obtain ⟨h1, h2, hw⟩ := iso8601_accessors_spec hv
    obtain ⟨hy1, hy2⟩ := iso8601WeekNumberingYear_mem hv
    have hsucc := getFirstIso8601MondayOfYear_succ v.iso8601WeekNumberingYear
    have hmon := weekday_getFirstIso8601MondayOfYear v.iso8601WeekNumberingYear
    have hls := getLastIso8601SundayOfYear_eq v.iso8601WeekNumberingYear
    rw [weekDay_eq hv]
    simp only [weekday] at hmon ⊢
    simp only [createFromIso8601WeekBasedDateVals, epochDate_eq, sub_zero]
    split_ifs with hc hle
    · rw [hw, show getFirstIso8601MondayOfYear v.iso8601WeekNumberingYear +
          ((v.daysSinceEpoch - getFirstIso8601MondayOfYear v.iso8601WeekNumberingYear) / 7 + 1 - 1)
            * 7 + ((v.daysSinceEpoch + 3) % 7 + 1) - 1 = v.daysSinceEpoch by omega]
      exact ofDays_self hv
    · omega
    · omega
  · intro year week day hy1 hy2 hw1 hw2 hd1 hd2
    by_cases hval : (createFromIso8601WeekBasedDateVals year week day).IsValid
    · right
      have hday : (createFromIso8601WeekBasedDateVals year week day).daysSinceEpoch =
          getFirstIso8601MondayOfYear year + (week - 1) * 7 + day - 1 ∧
          getFirstIso8601MondayOfYear year + (week - 1) * 7 + day - 1 ≤
            getLastIso8601SundayOfYear year := by
        revert hval
        simp only [createFromIso8601WeekBasedDateVals, epochDate_eq, sub_zero]
        split_ifs with hc hle
        · exact fun h => ⟨ofDays_of_isValid h, hle⟩
        · exact fun h => absurd rfl h
        · exact fun h => absurd rfl h
      obtain ⟨h1, h2, hw⟩ := iso8601_accessors_spec hval
      have hmon := weekday_getFirstIso8601MondayOfYear year
      have hls := getLastIso8601SundayOfYear_eq year
      have hy : (createFromIso8601WeekBasedDateVals year week day).iso8601WeekNumberingYear =
          year := isoYear_unique ⟨h1, h2⟩ ⟨by omega, by omega⟩
      rw [hy] at hw
      rw [weekDay_eq hval]
      simp only [weekday] at hmon ⊢
      exact ⟨hy, by omega, by omega⟩
    · exact .inl hval

end CivilTime

theorem iso8601_week_date_inverse_first_day :
    (DateValue.ofDays 0).IsValid ∧
      DateValue.createFromIso8601WeekBasedDateVals (DateValue.ofDays 0).iso8601WeekNumberingYear
        (DateValue.ofDays 0).iso8601WeekOfYear ((DateValue.ofDays 0).weekDay + 1) =
        DateValue.ofDays 0 ∧
      minYear ≤ 9999 ∧ (9999 : Int) ≤ maxYear ∧ (1 : Int) ≤ 52 ∧ (52 : Int) ≤ 53 ∧
      (1 : Int) ≤ 6 ∧ (6 : Int) ≤ 7 ∧
      (¬ (DateValue.createFromIso8601WeekBasedDateVals 9999 52 6).IsValid ∨
        ((DateValue.createFromIso8601WeekBasedDateVals 9999 52 6).iso8601WeekNumberingYear = 9999 ∧
          (DateValue.createFromIso8601WeekBasedDateVals 9999 52 6).iso8601WeekOfYear = 52 ∧
          (DateValue.createFromIso8601WeekBasedDateVals 9999 52 6).weekDay + 1 = 6)) :=
  have hv : (DateValue.ofDays 0).IsValid := by decide
  ⟨hv, iso8601_week_date_inverse.1 _ hv, by decide, by decide, by decide, by decide, by decide,
    by decide, iso8601_week_date_inverse.2 9999 52 6 (by decide) (by decide) (by decide)
      (by decide) (by decide) (by decide)⟩

end Impala
