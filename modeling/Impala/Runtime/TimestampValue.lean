import Impala.Lib.Civil
import Impala.Lib.MachineInt
import Mathlib.Data.Rat.Floor

/-!
Timestamps and unix time in UTC (runtime/timestamp-value.h, timestamp-value.inline.h):
`SplitTime`, `UtcFromUnixTimeTicks` and the conversions back, `UtcToUnixTime`,
`UtcToUnixTimeMicros`, `FloorUtcToUnixTimeMicros`, `FloorUtcToUnixTimeMillis` and
`UtcToUnixTimeLimitedRangeNanos`.

A `TimestampValue` is a date and a time of day. The date is a boost gregorian date, taken as
its day number from 1970-01-01, which boost computes as a `CivilTime` library; the time is a
duration in nanoseconds. `Validate` makes both `not_a_date_time` when the date leaves
1400-01-01 .. 9999-12-31. The day counts are computed with `SECONDS_PER_DAY`, a `uint64_t`,
so the sums are formed modulo `2^64` and read back as `int64_t`.
-/

set_option autoImplicit false

namespace Impala

open Civil MachineInt

def secondsPerDay : Int := 24 * 60 * 60

def nanosPerSec : Int := 1000000000

def microsPerSec : Int := 1000000

def millisPerSec : Int := 1000

def nanosPerMicro : Int := 1000

section CivilTime

variable [CivilTime]

/-- The day numbers of boost's `min_date_time` and `max_date_time`, 1400-01-01 and
9999-12-31. -/
def minDayNumber : Int := CivilTime.dayNumber 1400 1 1

def maxDayNumber : Int := CivilTime.dayNumber 9999 12 31

def unixEpoch : Int := CivilTime.dayNumber 1970 1 1

/-- `TimestampValue`: `date_` and `time_`, `none` for `not_a_date_time`; a date is always in
range. -/
structure TimestampValue where
  date : Option Int
  time : Option Int
  dateInRange : ∀ d ∈ date, minDayNumber ≤ d ∧ d ≤ maxDayNumber

namespace TimestampValue

theorem dateInRange_none : ∀ d ∈ (none : Option Int), minDayNumber ≤ d ∧ d ≤ maxDayNumber :=
  fun _ hd => nomatch hd

def mk' (d t : Int) : TimestampValue :=
  if h : minDayNumber ≤ d ∧ d ≤ maxDayNumber then
    ⟨some d, some t, fun _ hd => Option.some.inj hd ▸ h⟩
  else ⟨none, none, dateInRange_none⟩

def HasDate (t : TimestampValue) : Prop := t.date.isSome

instance : DecidablePred HasDate := fun t => inferInstanceAs (Decidable (t.date.isSome = true))

def IsValid (t : TimestampValue) : Prop :=
  ∃ d ns, t.date = some d ∧ t.time = some ns ∧ 0 ≤ ns ∧ ns < nanosPerSec * secondsPerDay

def splitTime (granularity ticks : Int) : Int × Int :=
  let result := ticks.tdiv granularity
  let ticks := ticks.tmod granularity
  if ticks < 0 then (result - 1, ticks + granularity) else (result, ticks)

def utcFromUnixTimeTicks (ticksPerSec unixTimeTicks : Int) : TimestampValue :=
  let (days, ticks) := splitTime (ticksPerSec * secondsPerDay) unixTimeTicks
  mk' (unixEpoch + days) (ticks * (nanosPerSec / ticksPerSec))

def utcFromUnixTimeMicros (unixTimeMicros : Int) : TimestampValue :=
  utcFromUnixTimeTicks microsPerSec unixTimeMicros

def utcFromUnixTimeMillis (unixTimeMillis : Int) : TimestampValue :=
  utcFromUnixTimeTicks millisPerSec unixTimeMillis

def utcFromUnixTimeLimitedRangeNanos (unixTimeNanos : Int) : TimestampValue :=
  utcFromUnixTimeTicks nanosPerSec unixTimeNanos

def dateAndTime (t : TimestampValue) : Option (Int × Int) :=
  match t.date, t.time with
  | some d, some ns => some (d - unixEpoch, ns)
  | _, _ => none

def utcToUnixTime (t : TimestampValue) : Option Int :=
  t.dateAndTime.map fun (days, ns) => toSigned 64 (days * secondsPerDay + ns.tdiv nanosPerSec)

/-- `UtcToUnixTimeMicros`: the fraction rounded to the nearest microsecond, capped at
9999-12-31 23:59:59.999999. -/
def utcToUnixTimeMicros (t : TimestampValue) : Option Int :=
  let maxUnixTime : Int := 253402300799
  let maxUnixTimeMicros := maxUnixTime * microsPerSec + (microsPerSec - 1)
  match utcToUnixTime t, t.time with
  | some s, some ns =>
    some (min maxUnixTimeMicros
      (s * microsPerSec + (ns.tmod nanosPerSec + nanosPerMicro / 2).tdiv nanosPerMicro))
  | _, _ => none

def floorUtcToUnixTimeMicros (t : TimestampValue) : Option Int :=
  t.dateAndTime.map fun (days, ns) =>
    toSigned 64 (days * secondsPerDay * microsPerSec + ns.tdiv nanosPerMicro)

def floorUtcToUnixTimeMillis (t : TimestampValue) : Option Int :=
  t.dateAndTime.map fun (days, ns) =>
    toSigned 64 (days * secondsPerDay * millisPerSec + ns.tdiv 1000000)

/-- `UtcToUnixTimeLimitedRangeNanos`: the nanoseconds in `int128`, `none` outside
`int64_t`. -/
def utcToUnixTimeLimitedRangeNanos (t : TimestampValue) : Option Int :=
  match utcToUnixTime t, t.time with
  | some s, some ns =>
    let nanos128 := s * nanosPerSec + ns.tmod nanosPerSec
    if nanos128 < -2 ^ 63 ∨ nanos128 > 2 ^ 63 - 1 then none else some nanos128
  | _, _ => none

def unixTimeNanos (d ns : Int) : Int := (d - unixEpoch) * secondsPerDay * nanosPerSec + ns

def roundHalfUp (q : ℚ) : Int := ⌊q + 1 / 2⌋

/-! ### Splitting ticks into days -/

theorem unixEpoch_eq : unixEpoch = 0 := by
  rw [unixEpoch, CivilTime.dayNumber_eq]
  decide

theorem minDayNumber_eq : minDayNumber = -208188 := by
  rw [minDayNumber, CivilTime.dayNumber_eq]
  decide

theorem maxDayNumber_eq : maxDayNumber = 2932896 := by
  rw [maxDayNumber, CivilTime.dayNumber_eq]
  decide

omit [CivilTime] in
theorem splitTime_eq {granularity : Int} (hg : 0 < granularity) (ticks : Int) :
    splitTime granularity ticks = (ticks / granularity, ticks % granularity) := by
  have hsum := Int.mul_tdiv_add_tmod ticks granularity
  have hlo := Int.lt_tmod_of_pos ticks hg
  have hhi := Int.tmod_lt_of_pos ticks hg
  simp only [splitTime]
  split_ifs with h
  · obtain ⟨hq, hr⟩ := (Int.ediv_emod_unique (a := ticks) (q := ticks.tdiv granularity - 1)
      (r := ticks.tmod granularity + granularity) hg).2
      ⟨by rw [Int.mul_sub, Int.mul_one]; omega, by omega, by omega⟩
    rw [hq, hr]
  · obtain ⟨hq, hr⟩ := (Int.ediv_emod_unique (a := ticks) (q := ticks.tdiv granularity)
      (r := ticks.tmod granularity) hg).2 ⟨by omega, by omega, hhi⟩
    rw [hq, hr]

theorem mk'_of_hasDate {d t : Int} (h : (mk' d t).HasDate) :
    (mk' d t).date = some d ∧ (mk' d t).time = some t ∧ minDayNumber ≤ d ∧ d ≤ maxDayNumber := by
  unfold mk' at h ⊢
  split_ifs at h ⊢ with hd
  · exact ⟨rfl, rfl, hd⟩
  · simp [HasDate] at h

theorem dateAndTime_of_fields {t : TimestampValue} {d ns : Int} (hd : t.date = some d)
    (ht : t.time = some ns) : t.dateAndTime = some (d - unixEpoch, ns) := by
  simp only [dateAndTime, hd, ht]

theorem utcFromUnixTimeTicks_of_hasDate {k u : Int} (hk : 0 < k)
    (h : (utcFromUnixTimeTicks k u).HasDate) :
    (utcFromUnixTimeTicks k u).date = some (u / (k * secondsPerDay)) ∧
      (utcFromUnixTimeTicks k u).time = some (u % (k * secondsPerDay) * (nanosPerSec / k)) ∧
      minDayNumber ≤ u / (k * secondsPerDay) ∧ u / (k * secondsPerDay) ≤ maxDayNumber := by
  have hg : 0 < k * secondsPerDay := by simp only [secondsPerDay]; omega
  simp only [utcFromUnixTimeTicks, splitTime_eq hg, unixEpoch_eq, zero_add] at h ⊢
  exact mk'_of_hasDate h

section RoundTrip

variable {u : Int} (hu1 : -2 ^ 63 ≤ u) (hu2 : u < 2 ^ 63)
include hu1 hu2

theorem floorUtcToUnixTimeMicros_utcFromUnixTimeMicros
    (h : (utcFromUnixTimeMicros u).HasDate) :
    floorUtcToUnixTimeMicros (utcFromUnixTimeMicros u) = some u := by
  obtain ⟨hd, ht, -⟩ := utcFromUnixTimeTicks_of_hasDate (by decide) h
  simp only [floorUtcToUnixTimeMicros, utcFromUnixTimeMicros, dateAndTime_of_fields hd ht,
    unixEpoch_eq, sub_zero, Option.map_some, Option.some.injEq]
  simp only [secondsPerDay, microsPerSec, nanosPerSec, nanosPerMicro, Int.reduceMul,
    Int.reduceDiv]
  rw [Int.tdiv_eq_ediv_of_nonneg (by omega)]
  rw [show u / 86400000000 * 86400 * 1000000 + u % 86400000000 * 1000 / 1000 = u by omega]
  exact toSigned_of_bounds (w := 63) hu1 hu2

theorem floorUtcToUnixTimeMillis_utcFromUnixTimeMillis
    (h : (utcFromUnixTimeMillis u).HasDate) :
    floorUtcToUnixTimeMillis (utcFromUnixTimeMillis u) = some u := by
  obtain ⟨hd, ht, -⟩ := utcFromUnixTimeTicks_of_hasDate (by decide) h
  simp only [floorUtcToUnixTimeMillis, utcFromUnixTimeMillis, dateAndTime_of_fields hd ht,
    unixEpoch_eq, sub_zero, Option.map_some, Option.some.injEq]
  simp only [secondsPerDay, millisPerSec, nanosPerSec, Int.reduceMul, Int.reduceDiv]
  rw [Int.tdiv_eq_ediv_of_nonneg (by omega)]
  rw [show u / 86400000 * 86400 * 1000 + u % 86400000 * 1000000 / 1000000 = u by omega]
  exact toSigned_of_bounds (w := 63) hu1 hu2

theorem utcToUnixTimeLimitedRangeNanos_utcFromUnixTimeLimitedRangeNanos
    (h : (utcFromUnixTimeLimitedRangeNanos u).HasDate) :
    utcToUnixTimeLimitedRangeNanos (utcFromUnixTimeLimitedRangeNanos u) = some u := by
  obtain ⟨hd, ht, hd1, hd2⟩ := utcFromUnixTimeTicks_of_hasDate (by decide) h
  simp only [utcToUnixTimeLimitedRangeNanos, utcToUnixTime, utcFromUnixTimeLimitedRangeNanos,
    dateAndTime_of_fields hd ht, ht, unixEpoch_eq, sub_zero, Option.map_some]
  simp only [minDayNumber_eq, maxDayNumber_eq, secondsPerDay, nanosPerSec, Int.reduceMul,
    Int.reduceDiv] at hd1 hd2 ⊢
  have hr : 0 ≤ u % 86400000000000 * 1 := by omega
  have hsec : toSigned 64 (u / 86400000000000 * 86400 + (u % 86400000000000 * 1).tdiv 1000000000)
      = u / 1000000000 := by
    rw [Int.tdiv_eq_ediv_of_nonneg hr, show u / 86400000000000 * 86400 +
      u % 86400000000000 * 1 / 1000000000 = u / 1000000000 by omega]
    exact toSigned_of_bounds (w := 63) (by omega) (by omega)
  simp only [hsec, Int.tmod_eq_emod_of_nonneg hr]
  rw [if_neg (by omega)]
  congr 1
  omega

end RoundTrip

/-! ### Rounding to microseconds -/

omit [CivilTime] in
theorem roundHalfUp_intCast_div (n : Int) {k : Int} (hk : 0 < k) :
    roundHalfUp ((n : ℚ) / k) = (2 * n + k) / (2 * k) := by
  lift k to Nat using hk.le
  have hk' : (k : ℚ) ≠ 0 := by exact_mod_cast hk.ne'
  have hq : (n : ℚ) / k + 1 / 2 = ((2 * n + k : Int) : ℚ) / ((2 * k : Nat) : ℚ) := by
    push_cast
    field_simp
  rw [roundHalfUp, Int.cast_natCast, hq, Rat.floor_intCast_div_natCast]
  push_cast
  rfl

theorem utcToUnixTimeMicros_of_fields {t : TimestampValue} {d ns : Int} (hd : t.date = some d)
    (ht : t.time = some ns) (h0 : 0 ≤ ns) (h1 : ns < nanosPerSec * secondsPerDay) :
    utcToUnixTimeMicros t = some (min (253402300799 * microsPerSec + (microsPerSec - 1))
      (roundHalfUp ((unixTimeNanos d ns : ℚ) / nanosPerMicro))) := by
  obtain ⟨hlo, hhi⟩ := t.dateInRange d hd
  rw [roundHalfUp_intCast_div _ (by decide)]
  simp only [utcToUnixTimeMicros, utcToUnixTime, dateAndTime_of_fields hd ht, ht, unixEpoch_eq,
    sub_zero, Option.map_some, unixTimeNanos]
  simp only [minDayNumber_eq, maxDayNumber_eq, secondsPerDay, nanosPerSec, microsPerSec,
    nanosPerMicro, Int.reduceMul, Int.reduceDiv] at hlo hhi h1 ⊢
  have hs : toSigned 64 (d * 86400 + ns.tdiv 1000000000) = d * 86400 + ns / 1000000000 := by
    rw [Int.tdiv_eq_ediv_of_nonneg h0]
    exact toSigned_of_bounds (w := 63) (by omega) (by omega)
  rw [hs, Int.tmod_eq_emod_of_nonneg h0, Int.tdiv_eq_ediv_of_nonneg (by omega)]
  congr 2
  omega

theorem utc_unix_time_round_trip :
    (∀ u : Int, -2 ^ 63 ≤ u → u < 2 ^ 63 → (utcFromUnixTimeMicros u).HasDate →
      floorUtcToUnixTimeMicros (utcFromUnixTimeMicros u) = some u) ∧
    (∀ u : Int, -2 ^ 63 ≤ u → u < 2 ^ 63 → (utcFromUnixTimeMillis u).HasDate →
      floorUtcToUnixTimeMillis (utcFromUnixTimeMillis u) = some u) ∧
    (∀ u : Int, -2 ^ 63 ≤ u → u < 2 ^ 63 → (utcFromUnixTimeLimitedRangeNanos u).HasDate →
      utcToUnixTimeLimitedRangeNanos (utcFromUnixTimeLimitedRangeNanos u) = some u) ∧
    ∀ t : TimestampValue, t.IsValid → ∃ d ns, t.date = some d ∧ t.time = some ns ∧
      utcToUnixTimeMicros t = some (min (253402300799 * microsPerSec + (microsPerSec - 1))
        (roundHalfUp ((unixTimeNanos d ns : ℚ) / nanosPerMicro))) := by
  refine ⟨fun u hu1 hu2 h => floorUtcToUnixTimeMicros_utcFromUnixTimeMicros hu1 hu2 h,
    fun u hu1 hu2 h => floorUtcToUnixTimeMillis_utcFromUnixTimeMillis hu1 hu2 h,
    fun u hu1 hu2 h =>
      utcToUnixTimeLimitedRangeNanos_utcFromUnixTimeLimitedRangeNanos hu1 hu2 h, ?_⟩
  rintro t ⟨d, ns, hd, ht, h0, h1⟩
  exact ⟨d, ns, hd, ht, utcToUnixTimeMicros_of_fields hd ht h0 h1⟩

end TimestampValue

end CivilTime

namespace TimestampValue

theorem utc_unix_time_round_trip_before_epoch :
    (utcFromUnixTimeMicros (-1)).HasDate ∧
      floorUtcToUnixTimeMicros (utcFromUnixTimeMicros (-1)) = some (-1) := by
  have hd : (utcFromUnixTimeMicros (-1)).HasDate := by decide
  exact ⟨hd, utc_unix_time_round_trip.1 (-1) (by decide) (by decide) hd⟩

end TimestampValue

end Impala
