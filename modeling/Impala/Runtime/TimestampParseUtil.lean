import Impala.Runtime.DatetimeDefaultFormat
import Impala.Runtime.TimestampValue

/-!
Parsing and printing timestamps in the default format (runtime/timestamp-parse-util.cc,
`TimestampParser::ParseSimpleDateFormat`, `PopulateParseResult`, `AdjustWithTimezone`,
`RealignYear` and `FormatDefault`; `TimestampValue::ParseSimpleDateFormat` and
`TimestampValue::ToString` of runtime/timestamp-value.cc).

`ParseSimpleDateFormat` trims white space, a `Z` and a timezone offset off the string, takes the
default context of the length left, and builds the date and the time of day from the fields
`ParseDateTime` read. A boost date is its day number, as in `TimestampValue`; its constructor,
which throws on a field out of range, is `gregorianDate`. `FormatDefault` writes the fields at
their offsets in a buffer, which `ToString` reads back.

`ToString` of a valid timestamp is its date and time in `yyyy-MM-dd HH:mm:ss`, with `.` and nine
digits of fraction when the fraction is not zero (`toString_eq`), and every text of that shape
parses back to the fields it shows (`parseSimpleDateFormat_defaultText`), whatever white space
surrounds it, with a `Z` after it or a `T` between date and time.
-/

set_option autoImplicit false

namespace Impala

open Civil Memory DecimalDigits StringParser DatetimeParseUtil
open DatetimeParseUtil.SimpleDateFormatTokenizer DatetimeParseUtil.SimpleDateFormatParser

section CivilTime

variable [CivilTime]

namespace TimestampParser

def isspace (c : Char) : Bool := isWhitespace c

/-- The loop that removes leading white space from the `n` characters at offset `p`: the offset
of the first other character, and the length left. -/
def trimLeading (str : Nat → Char) (p : Nat) : Nat → Nat × Nat
  | 0 => (p, 0)
  | n + 1 => if isspace (str p) then trimLeading str (p + 1) n else (p, n + 1)

def trimTrailing (str : Nat → Char) : Nat → Nat
  | 0 => 0
  | n + 1 => if isspace (str n) then trimTrailing str n else n + 1

def findTzOffsetSign (str : Nat → Char) (curr : Nat) : Nat → Option Nat
  | 0 => none
  | room + 1 =>
    if str curr = '+' ∨ str curr = '-' then some curr else findTzOffsetSign str (curr + 1) room

/-- The length left once a `Z` suffix is stripped, or else, on a string that looks like a
timestamp, a timezone offset; an offset has two characters at least, so the last two are not
looked at. -/
def stripTimezone (str : Nat → Char) (len : Nat) : Nat :=
  if 0 < len ∧ str (len - 1) = 'Z' then len - 1
  else if defaultShortDateTimeFmtLen < len ∧ str 4 = '-' then
    (findTzOffsetSign str defaultShortDateTimeFmtLen (len - 2 - defaultShortDateTimeFmtLen)).getD len
  else len

/-- `boost::gregorian::date(year, month, day)`: the day number, `none` where the constructor
throws `bad_year`, `bad_month` or `bad_day_of_month`. -/
def gregorianDate (year month day : Int) : Option Int :=
  if 1400 ≤ year ∧ year ≤ 9999 ∧ IsValidDate year month day then some (CivilTime.dayNumber year month day)
  else none

/-- `time_duration(hours, minutes, seconds, fractional_seconds)` in nanoseconds. Boost's
`to_tick_count` makes the whole duration negative when any of its parts is. -/
def timeDuration (hours minutes seconds fs : Int) : Int :=
  if hours < 0 ∨ minutes < 0 ∨ seconds < 0 ∨ fs < 0 then
    -((|hours| * 3600 + |minutes| * 60 + |seconds|) * nanosPerSec + |fs|)
  else (hours * 3600 + minutes * 60 + seconds) * nanosPerSec + fs

def adjustWithTimezone (t tzOffset : Int) : Int × Int :=
  let t := t - tzOffset
  if t < 0 then (t + timeDuration 24 0 0 0, -1)
  else if 24 ≤ t.tdiv (3600 * nanosPerSec) then (t - timeDuration 24 0 0 0, 1)
  else (t, 0)

/-- `RealignYear(dt_result, dt_ctx, day_offset, t)` for a year of one or two digits, with the
context's century break as a day number and a time of day: the year in the century of the
break, or in the next one where the date would fall before the break. -/
def realignYear (centuryBreak : Int × Int) (r : DateTimeParseResult) (dayOffset t : Int) :
    Option Int :=
  let year := r.year + (CivilTime.toCivil centuryBreak.1).1.tdiv 100 * 100
  let unshifted :=
    if r.month = 2 ∧ r.day = 29 ∧ Civil.isLeapYear year = false then gregorianDate year 3 1
    else gregorianDate year r.month r.day
  match unshifted with
  | none => none
  | some unshifted =>
    let unshifted := unshifted + dayOffset
    if unshifted < centuryBreak.1 ∨ (unshifted = centuryBreak.1 ∧ t < centuryBreak.2) then
      (gregorianDate (year + 100) r.month r.day).map (· + dayOffset)
    else (gregorianDate year r.month r.day).map (· + dayOffset)

/-- `PopulateParseResult(dt_ctx, dt_result, d, t)`: the date, `none` for `date()` when the format
has no date, and the time of day; `none` for `false`. `tz_offset` is kept in minutes. -/
def populateParseResult (centuryBreak : Int × Int) (ctx : DateTimeFormatContext)
    (r : DateTimeParseResult) : Option (Option Int × Int) :=
  let (t, dayOffset) :=
    if ctx.hasTimeToks then
      adjustWithTimezone (timeDuration r.hour r.minute r.second r.fraction)
        (timeDuration 0 r.tzOffset 0 0)
    else (timeDuration 0 0 0 0, 0)
  if ctx.hasDateToks then
    let d :=
      if r.realignYear then realignYear centuryBreak r dayOffset t
      else (gregorianDate r.year r.month r.day).map (· + dayOffset)
    match d with
    | some d => if minDayNumber ≤ d ∧ d ≤ maxDayNumber then some (some d, t) else none
    | none => none
  else some (none, t)

def parseSimpleDateFormatCtx (centuryBreak : Int × Int) (str : Nat → Char) (len : Nat)
    (ctx : DateTimeFormatContext) : Option (Option Int × Int) :=
  let r := parseDateTime str len ctx {}
  if len = 0 ∨ r.2 = false then none else populateParseResult centuryBreak ctx r.1.result

/-- `ParseSimpleDateFormat(str, len, d, t, accept_time_toks_only)`: white space, a `Z` and a
timezone offset trimmed, then the default context of the length left, or failing one the
context `TokenizeByStr` makes of the string. -/
def parseSimpleDateFormat (centuryBreak : Int × Int) (str : Nat → Char) (len : Nat)
    (acceptTimeToksOnly : Bool := false) : Option (Option Int × Int) :=
  let (start, trimmedLen) := trimLeading str 0 len
  let str := fun i => str (start + i)
  let trimmedLen := stripTimezone str (trimTrailing str trimmedLen)
  if trimmedLen = 0 then none
  else
    let defaultFmtLen := min trimmedLen defaultDateTimeFmtLen
    match getDefaultFormatContext str defaultFmtLen true acceptTimeToksOnly with
    | some ctx => parseSimpleDateFormatCtx centuryBreak str defaultFmtLen ctx
    | none =>
      match tokenizeByStr str trimmedLen with
      | some ctx => parseSimpleDateFormatCtx centuryBreak str trimmedLen ctx
      | none => none

/-! ### Trimming -/

omit [CivilTime] in
theorem isspace_of_isDigitChar {c : Char} (h : isDigitChar c = true) : isspace c = false := by
  cases hs : isspace c
  · rfl
  · simp only [isspace, isWhitespace, Bool.or_eq_true, beq_iff_eq] at hs
    rcases hs with ((((rfl | rfl) | rfl) | rfl) | rfl) | rfl <;> revert h <;> decide

omit [CivilTime] in
theorem trimLeading_of_spaces {str : Nat → Char} {j : Nat} (p n : Nat)
    (hspace : ∀ i < j, isspace (str (p + i)) = true) (hnext : isspace (str (p + j)) = false)
    (hj : j < n) : trimLeading str p n = (p + j, n - j) := by
  induction j generalizing p n with
  | zero =>
    obtain ⟨n, rfl⟩ : ∃ k, n = k + 1 := ⟨n - 1, by omega⟩
    simp only [trimLeading, Nat.add_zero] at hnext ⊢
    simp [hnext]
  | succ j ih =>
    obtain ⟨n, rfl⟩ : ∃ k, n = k + 1 := ⟨n - 1, by omega⟩
    have hfirst : isspace (str p) = true := by simpa using hspace 0 (by omega)
    rw [trimLeading, if_pos hfirst, ih (p + 1) n
      (fun i hi => by simpa [Nat.add_assoc, Nat.add_comm 1 i] using hspace (i + 1) (by omega))
      (by simpa [Nat.add_assoc, Nat.add_comm 1 j] using hnext) (by omega)]
    simp only [Prod.mk.injEq]
    omega

omit [CivilTime] in
theorem trimTrailing_of_spaces {str : Nat → Char} {k j : Nat}
    (hspace : ∀ i < j, isspace (str (k + i)) = true) (hk : 0 < k)
    (hlast : isspace (str (k - 1)) = false) : trimTrailing str (k + j) = k := by
  induction j with
  | zero =>
    obtain ⟨k, rfl⟩ : ∃ k', k = k' + 1 := ⟨k - 1, by omega⟩
    simp only [Nat.add_sub_cancel] at hlast
    simp [trimTrailing, hlast]
  | succ j ih =>
    rw [← Nat.add_assoc, trimTrailing, if_pos (hspace j (by omega))]
    exact ih fun i hi => hspace i (by omega)

omit [CivilTime] in
theorem findTzOffsetSign_eq_none {str : Nat → Char} {curr room : Nat}
    (h : ∀ j < room, str (curr + j) ≠ '+' ∧ str (curr + j) ≠ '-') :
    findTzOffsetSign str curr room = none := by
  induction room generalizing curr with
  | zero => rfl
  | succ room ih =>
    have hcurr := h 0 (by omega)
    rw [Nat.add_zero] at hcurr
    rw [findTzOffsetSign, if_neg (by tauto)]
    exact ih fun j hj => by simpa [Nat.add_assoc, Nat.add_comm 1 j] using h (j + 1) (by omega)

/-! ### Dates and times of the parse -/

theorem minDayNumber_eq_firstDayOfYear : minDayNumber = firstDayOfYear 1400 := by
  rw [minDayNumber, CivilTime.dayNumber_eq, dayNumber_jan1]

theorem maxDayNumber_eq_firstDayOfYear : maxDayNumber = firstDayOfYear 10000 - 1 := by
  have h := dayNumber_dec31 9999
  simp only [dayNumber_jan1, Int.reduceAdd] at h
  simp only [maxDayNumber, CivilTime.dayNumber_eq]
  omega

theorem gregorianDate_eq_some {year month day : Int} (hy : 1400 ≤ year ∧ year ≤ 9999)
    (hv : IsValidDate year month day) :
    gregorianDate year month day = some (dayNumber year month day) ∧
      minDayNumber ≤ dayNumber year month day ∧ dayNumber year month day ≤ maxDayNumber := by
  have hrange := dayNumber_mem_years hy hv
  simp only [Int.reduceAdd] at hrange
  rw [minDayNumber_eq_firstDayOfYear, maxDayNumber_eq_firstDayOfYear]
  refine ⟨?_, hrange.1, by omega⟩
  rw [gregorianDate, if_pos ⟨hy.1, hy.2, hv⟩, CivilTime.dayNumber_eq]

omit [CivilTime] in
theorem timeDuration_of_nonneg {hours minutes seconds fs : Int} (hh : 0 ≤ hours)
    (hm : 0 ≤ minutes) (hs : 0 ≤ seconds) (hf : 0 ≤ fs) :
    timeDuration hours minutes seconds fs = (hours * 3600 + minutes * 60 + seconds) * nanosPerSec + fs :=
  if_neg (by omega)

omit [CivilTime] in
theorem adjustWithTimezone_of_mem {t : Int} (h0 : 0 ≤ t) (h1 : t < 24 * 3600 * nanosPerSec) :
    adjustWithTimezone t (timeDuration 0 0 0 0) = (t, 0) := by
  have hzero : timeDuration 0 0 0 0 = 0 := timeDuration_of_nonneg le_rfl le_rfl le_rfl le_rfl
  simp only [nanosPerSec] at h1
  simp only [adjustWithTimezone, hzero, sub_zero, nanosPerSec, if_neg (show ¬ t < 0 by omega)]
  rw [Int.tdiv_eq_ediv_of_nonneg h0, if_neg (by omega)]

theorem populateParseResult_of_fields (centuryBreak : Int × Int) {ctx : DateTimeFormatContext}
    (hD : ctx.hasDateToks = true) (hT : ctx.hasTimeToks = true)
    {year month day hour minute second fraction : Int} (hy : 1400 ≤ year ∧ year ≤ 9999)
    (hv : IsValidDate year month day) (hh : 0 ≤ hour ∧ hour ≤ 23) (hmi : 0 ≤ minute ∧ minute ≤ 59)
    (hs : 0 ≤ second ∧ second ≤ 59) (hf : 0 ≤ fraction ∧ fraction < nanosPerSec) :
    populateParseResult centuryBreak ctx
        { year := year, month := month, day := day, hour := hour, minute := minute,
          second := second, fraction := fraction } =
      some (some (dayNumber year month day), timeDuration hour minute second fraction) := by
  obtain ⟨hdate, hlo, hhi⟩ := gregorianDate_eq_some hy hv
  have ht := timeDuration_of_nonneg hh.1 hmi.1 hs.1 hf.1
  have hadj : adjustWithTimezone (timeDuration hour minute second fraction) (timeDuration 0 0 0 0) =
      (timeDuration hour minute second fraction, 0) := by
    simp only [nanosPerSec] at ht hf
    exact adjustWithTimezone_of_mem (by rw [ht]; omega) (by rw [ht, nanosPerSec]; omega)
  simp only [populateParseResult, hT, hD, if_true, hadj, Bool.false_eq_true, if_false, hdate,
    Option.map_some, add_zero, hlo, hhi, and_self]

/-! ### Parsing a default text -/

section DefaultText

variable {Y M D H Mi S frac : List Char} {sep : Char} {fraction : Int}

omit [CivilTime] in
theorem ne_of_isDigitChar {c d : Char} (hc : isDigitChar c = true) (hd : isDigitChar d = false) :
    c ≠ d := by
  rintro rfl
  simp_all

omit [CivilTime] in
theorem isDigitChar_last_defaultText (hf : DefaultFields Y M D H Mi S)
    (hfp : FractionPart frac fraction) {str : Nat → Char}
    (h : readList str 0 (defaultText sep Y M D H Mi S frac).length =
      defaultText sep Y M D H Mi S frac) :
    isDigitChar (str ((defaultText sep Y M D H Mi S frac).length - 1)) = true := by
  obtain ⟨-, -, -, -, -, -, -, -, -, -, hS, hfrac⟩ := hf.layout h
  rw [length_defaultText hf]
  cases hfp with
  | none =>
    exact hf.digits S (by simp) _ (hS ▸ mem_readList (k := 1) (by omega))
  | @digits F hF h1 h9 =>
    have hF' := (readList_of_cons hfrac).2
    have hmem := hF' ▸ mem_readList (m := str) (a := 19 + 1) (k := F.length - 1) (by omega)
    rw [show 19 + 1 + (F.length - 1) = 19 + (F.length + 1) - 1 by omega] at hmem
    exact hF _ hmem

omit [CivilTime] in
theorem trim_defaultText (hf : DefaultFields Y M D H Mi S) (hfp : FractionPart frac fraction)
    {pre z post : List Char} (hpre : ∀ c ∈ pre, isspace c = true) (hz : z = [] ∨ z = ['Z'])
    (hpost : ∀ c ∈ post, isspace c = true) {str : Nat → Char}
    (h : readList str 0 (pre ++ (defaultText sep Y M D H Mi S frac ++ (z ++ post))).length =
      pre ++ (defaultText sep Y M D H Mi S frac ++ (z ++ post))) :
    trimLeading str 0 (pre ++ (defaultText sep Y M D H Mi S frac ++ (z ++ post))).length =
        (pre.length, (defaultText sep Y M D H Mi S frac ++ (z ++ post)).length) ∧
      stripTimezone (fun i => str (pre.length + i)) (trimTrailing (fun i => str (pre.length + i))
        (defaultText sep Y M D H Mi S frac ++ (z ++ post)).length) =
        (defaultText sep Y M D H Mi S frac).length := by
  set text := defaultText sep Y M D H Mi S frac with htext
  have hlen : text.length = 19 + frac.length := length_defaultText hf
  obtain ⟨hpre', hrest⟩ := readList_of_append h
  set str' := fun i => str (pre.length + i) with hstr'
  have hrest' : readList str' 0 (text ++ (z ++ post)).length = text ++ (z ++ post) := by
    rw [readList_shift, Nat.add_zero]
    simpa using hrest
  obtain ⟨htext', hzpost⟩ := readList_of_append hrest'
  obtain ⟨hz', hpost'⟩ := readList_of_append hzpost
  rw [Nat.zero_add] at hz' hpost'
  obtain ⟨hY, h4, -, -, -, -, -, -, -, -, -, hfrac⟩ := hf.layout htext'
  have hfirst : isDigitChar (str' 0) = true :=
    hf.digits Y (by simp) _ (hY ▸ mem_readList (k := 0) (by omega))
  have hlast : isDigitChar (str' (text.length - 1)) = true :=
    isDigitChar_last_defaultText hf hfp htext'
  refine ⟨?_, ?_⟩
  · rw [trimLeading_of_spaces 0 _ (fun i hi => hpre _ (hpre' ▸ mem_readList hi))
      (by rw [Nat.zero_add]; exact isspace_of_isDigitChar hfirst) (by simp [hlen])]
    simp
  · have htrail : trimTrailing str' (text ++ (z ++ post)).length = text.length + z.length := by
      rw [show (text ++ (z ++ post)).length = text.length + z.length + post.length by simp; omega]
      refine trimTrailing_of_spaces (fun i hi => hpost _ (hpost' ▸ mem_readList hi)) (by omega) ?_
      rcases hz with rfl | rfl
      · exact isspace_of_isDigitChar hlast
      · have hZ : str' text.length = 'Z' := by simpa using hz'
        simp only [List.length_singleton, Nat.add_sub_cancel, hZ]
        decide
    rw [htrail]
    rcases hz with rfl | rfl
    · have hnotZ := ne_of_isDigitChar hlast (d := 'Z') rfl
      simp only [stripTimezone, List.length_nil, Nat.add_zero, hnotZ, and_false, if_false, h4,
        defaultShortDateTimeFmtLen]
      split_ifs with hlong
      · rw [findTzOffsetSign_eq_none]
        · rfl
        intro j hj
        have hmem := hfrac ▸ mem_readList (m := str') (a := 19) (k := j) (by omega)
        cases hfp with
        | none => simp at hmem
        | @digits F hF h1 h9 =>
          rcases List.mem_cons.1 hmem with hdot | hdigit
          · rw [hdot]
            decide
          · exact ⟨ne_of_isDigitChar (hF _ hdigit) rfl, ne_of_isDigitChar (hF _ hdigit) rfl⟩
      · rfl
    · have hZ : str' text.length = 'Z' := by simpa using hz'
      simp [stripTimezone, hZ]

theorem parseSimpleDateFormat_defaultText (centuryBreak : Int × Int)
    (hf : DefaultFields Y M D H Mi S) (hr : FieldsInRange M D H Mi S)
    (hfp : FractionPart frac fraction) (hsep : sep = ' ' ∨ sep = 'T')
    (hy : 1400 ≤ digitsValue Y ∧ digitsValue Y ≤ 9999)
    (hv : IsValidDate (digitsValue Y) (digitsValue M) (digitsValue D))
    {pre z post : List Char} (hpre : ∀ c ∈ pre, isspace c = true) (hz : z = [] ∨ z = ['Z'])
    (hpost : ∀ c ∈ post, isspace c = true) {str : Nat → Char}
    (h : readList str 0 (pre ++ defaultText sep Y M D H Mi S frac ++ z ++ post).length =
      pre ++ defaultText sep Y M D H Mi S frac ++ z ++ post) :
    parseSimpleDateFormat centuryBreak str
        (pre ++ defaultText sep Y M D H Mi S frac ++ z ++ post).length =
      some (some (dayNumber (digitsValue Y) (digitsValue M) (digitsValue D)),
        timeDuration (digitsValue H) (digitsValue Mi) (digitsValue S) fraction) := by
  simp only [List.append_assoc] at h ⊢
  obtain ⟨hlead, hstrip⟩ := trim_defaultText hf hfp hpre hz hpost h
  have htext : readList (fun i => str (pre.length + i)) 0
      (defaultText sep Y M D H Mi S frac).length = defaultText sep Y M D H Mi S frac := by
    obtain ⟨-, hrest⟩ := readList_of_append h
    rw [Nat.zero_add] at hrest
    rw [readList_shift, Nat.add_zero]
    exact (readList_of_append hrest).1
  obtain ⟨ctx, hctx, hD, hT, hok, hres⟩ := parseDateTime_defaultText hf hr hfp hsep htext false
  have hlen : (defaultText sep Y M D H Mi S frac).length = 19 + frac.length :=
    length_defaultText hf
  have hmin : min (19 + frac.length) defaultDateTimeFmtLen = 19 + frac.length := by
    cases hfp with
    | none => rfl
    | digits _ _ h9 =>
      simp only [List.length_cons, defaultDateTimeFmtLen]
      omega
  simp only [parseSimpleDateFormat, hlead, hstrip, hlen, hmin, hctx]
  rw [if_neg (by omega)]
  simp only [parseSimpleDateFormatCtx, hok, hres, Bool.true_eq_false, or_false,
    show ¬ 19 + frac.length = 0 by omega, if_false]
  exact populateParseResult_of_fields centuryBreak hD hT (by exact_mod_cast hy) hv
    ⟨by positivity, by exact_mod_cast hr.hour⟩ ⟨by positivity, by exact_mod_cast hr.minute⟩
    ⟨by positivity, by exact_mod_cast hr.second⟩ hfp.mem_range

end DefaultText

def toUInt32 (x : Int) : Nat := (x % 2 ^ 32).toNat

/-- `ZeroPad(dst + p, val, digits)`: the `digits` low decimal digits of `val`, zero-padded. The
source writes the digits of a larger value on before `dst + p`; no value here has more digits
than its field. -/
def zeroPad (dst : Nat → Char) (p val digits : Nat) : Nat → Char :=
  writeList dst p (padDigits digits val)

/-- `FormatDefault(d, t, dst)` on the buffer `dst`: the buffer written and the length returned,
`none` for `-1`. -/
def formatDefault (date time : Option Int) (dst : Nat → Char) : Option ((Nat → Char) × Nat) :=
  match date, time with
  | some d, some t =>
    let (year, month, day) := CivilTime.toCivil d
    let totSec := t.tdiv nanosPerSec
    let dst := zeroPad dst 0 (toUInt32 year) 4
    let dst := zeroPad dst 5 (toUInt32 month) 2
    let dst := zeroPad dst 8 (toUInt32 day) 2
    let dst := zeroPad dst 11 (toUInt32 (totSec.tdiv 3600)) 2
    let dst := zeroPad dst 14 (toUInt32 ((totSec.tdiv 60).tmod 60)) 2
    let dst := zeroPad dst 17 (toUInt32 (totSec.tmod 60)) 2
    let dst := writeList (writeList dst 4 ['-']) 7 ['-']
    let dst := writeList dst 10 [' ']
    let dst := writeList (writeList dst 13 [':']) 16 [':']
    if 0 < t.tmod nanosPerSec then
      some (zeroPad (writeList dst 19 ['.']) 20 (toUInt32 (t.tmod nanosPerSec)) 9,
        defaultDateTimeFmtLen)
    else some (dst, defaultShortDateTimeFmtLen)
  | _, _ => none

/-! ### Printing -/

/-- The text `yyyy-MM-dd HH:mm:ss` of the day `d` and the time of day `ns`, with `sep` between
date and time, and `.` and nine digits of fraction when the fraction is not zero. -/
def defaultTextOf (sep : Char) (d ns : Int) : List Char :=
  let (year, month, day) := toCivil d
  let totSec := ns / nanosPerSec
  let fraction := ns % nanosPerSec
  defaultText sep (padDigits 4 year.toNat) (padDigits 2 month.toNat) (padDigits 2 day.toNat)
    (padDigits 2 (totSec / 3600).toNat) (padDigits 2 (totSec / 60 % 60).toNat)
    (padDigits 2 (totSec % 60).toNat)
    (if fraction = 0 then [] else '.' :: padDigits 9 fraction.toNat)

omit [CivilTime] in
theorem toUInt32_of_mem {x : Int} (h0 : 0 ≤ x) (h1 : x < 2 ^ 32) : toUInt32 x = x.toNat := by
  rw [toUInt32, Int.emod_eq_of_lt h0 h1]

omit [CivilTime] in
theorem defaultText_append (sep : Char) (Y M D H Mi S frac : List Char) :
    defaultText sep Y M D H Mi S frac = defaultText sep Y M D H Mi S [] ++ frac := by
  simp [defaultText]

omit [CivilTime] in
theorem readList_formatDefault_short (dst : Nat → Char) (y m d h mi s : Nat) :
    readList (writeList (writeList (writeList (writeList (writeList
      (zeroPad (zeroPad (zeroPad (zeroPad (zeroPad (zeroPad dst 0 y 4) 5 m 2) 8 d 2) 11 h 2)
        14 mi 2) 17 s 2) 4 ['-']) 7 ['-']) 10 [' ']) 13 [':']) 16 [':']) 0 19 =
      defaultText ' ' (padDigits 4 y) (padDigits 2 m) (padDigits 2 d) (padDigits 2 h)
        (padDigits 2 mi) (padDigits 2 s) [] := by
  have hlen : (defaultText ' ' (padDigits 4 y) (padDigits 2 m) (padDigits 2 d) (padDigits 2 h)
      (padDigits 2 mi) (padDigits 2 s) []).length = 19 := by
    simp [defaultText]
  rw [← hlen]
  unfold defaultText
  refine readList_append_of ?_ (readList_cons_of ?_ (readList_append_of ?_ (readList_cons_of ?_
    (readList_append_of ?_ (readList_cons_of ?_ (readList_append_of ?_ (readList_cons_of ?_
    (readList_append_of ?_ (readList_cons_of ?_ (readList_append_of ?_ ?_))))))))))
  all_goals
    simp [-readList_one, zeroPad, readList_writeList_of_disjoint, readList_writeList_of_length]

theorem toCivil_bounds {d : Int} (hd : minDayNumber ≤ d ∧ d ≤ maxDayNumber) :
    (1400 ≤ (toCivil d).1 ∧ (toCivil d).1 ≤ 9999) ∧ (1 ≤ (toCivil d).2.1 ∧ (toCivil d).2.1 ≤ 12) ∧
      (1 ≤ (toCivil d).2.2 ∧ (toCivil d).2.2 ≤ 31) := by
  have hy : 1400 ≤ yearOfDay d ∧ yearOfDay d ≤ 9999 := by
    rw [minDayNumber_eq_firstDayOfYear, maxDayNumber_eq_firstDayOfYear] at hd
    exact yearOfDay_mem_years (b := 9999) ⟨hd.1, by simp only [Int.reduceAdd]; omega⟩
  obtain ⟨hm1, hm2, hd1, hd2⟩ := isValidDate_toCivil d
  have hlen := (monthLength_bounds (Civil.isLeapYear (toCivil d).1) (toCivil d).2.1.toNat).2
  exact ⟨hy, ⟨hm1, hm2⟩, ⟨hd1, by omega⟩⟩

omit [CivilTime] in
theorem readList_formatDefault_long (out : Nat → Char) (f : Nat) :
    readList (zeroPad (writeList out 19 ['.']) 20 f 9) 0 29 =
      readList out 0 19 ++ '.' :: padDigits 9 f := by
  have hdate : readList (zeroPad (writeList out 19 ['.']) 20 f 9) 0 19 = readList out 0 19 := by
    simp [zeroPad, readList_writeList_of_disjoint]
  have hfrac : readList (zeroPad (writeList out 19 ['.']) 20 f 9) 19 ('.' :: padDigits 9 f).length =
      '.' :: padDigits 9 f :=
    readList_cons_of
      (by simp [-readList_one, zeroPad, readList_writeList_of_disjoint, readList_writeList_of_length])
      (by simp [zeroPad, readList_writeList_of_length])
  rw [show 29 = 19 + ('.' :: padDigits 9 f).length by simp, readList_add, hdate, Nat.zero_add, hfrac]

theorem formatDefault_eq {d ns : Int} (hd : minDayNumber ≤ d ∧ d ≤ maxDayNumber) (h0 : 0 ≤ ns)
    (h1 : ns < nanosPerSec * secondsPerDay) (dst : Nat → Char) :
    ∃ out n, formatDefault (some d) (some ns) dst = some (out, n) ∧
      readList out 0 n = defaultTextOf ' ' d ns := by
  have hbounds := toCivil_bounds hd
  rcases hc : toCivil d with ⟨y, m, dd⟩
  simp only [hc] at hbounds
  obtain ⟨⟨hy1, hy2⟩, ⟨hm1, hm2⟩, ⟨hd1, hd2⟩⟩ := hbounds
  have q1 : ns / nanosPerSec = ns / 1000000000 := rfl
  have q2 : ns % nanosPerSec = ns % 1000000000 := rfl
  simp only [nanosPerSec, secondsPerDay] at h1
  have hsec : 0 ≤ ns / nanosPerSec := by omega
  have e1 : ns.tdiv nanosPerSec = ns / nanosPerSec := Int.tdiv_eq_ediv_of_nonneg h0
  have e2 : (ns / nanosPerSec).tdiv 3600 = ns / nanosPerSec / 3600 :=
    Int.tdiv_eq_ediv_of_nonneg hsec
  have e3 : (ns / nanosPerSec).tdiv 60 = ns / nanosPerSec / 60 := Int.tdiv_eq_ediv_of_nonneg hsec
  have e4 : (ns / nanosPerSec / 60).tmod 60 = ns / nanosPerSec / 60 % 60 :=
    Int.tmod_eq_emod_of_nonneg (by omega)
  have e5 : (ns / nanosPerSec).tmod 60 = ns / nanosPerSec % 60 := Int.tmod_eq_emod_of_nonneg hsec
  have e6 : ns.tmod nanosPerSec = ns % nanosPerSec := Int.tmod_eq_emod_of_nonneg h0
  have u32 : ∀ x : Int, 0 ≤ x → x < 2 ^ 32 → toUInt32 x = x.toNat := fun _ => toUInt32_of_mem
  simp only [formatDefault, defaultTextOf, CivilTime.toCivil_eq, hc, e1, e2, e3, e4, e5, e6,
    u32 y (by omega) (by omega), u32 m (by omega) (by omega), u32 dd (by omega) (by omega),
    u32 (ns / nanosPerSec / 3600) (by omega) (by omega),
    u32 (ns / nanosPerSec / 60 % 60) (by omega) (by omega),
    u32 (ns / nanosPerSec % 60) (by omega) (by omega),
    u32 (ns % nanosPerSec) (by omega) (by omega)]
  split_ifs with hpos hzero hzero
  · omega
  · refine ⟨_, _, rfl, ?_⟩
    rw [defaultText_append, defaultDateTimeFmtLen, readList_formatDefault_long,
      readList_formatDefault_short]
  · refine ⟨_, _, rfl, ?_⟩
    rw [defaultShortDateTimeFmtLen, readList_formatDefault_short]
  · omega

omit [CivilTime] in
theorem length_defaultTextOf (sep : Char) (d ns : Int) :
    (defaultTextOf sep d ns).length = if ns % nanosPerSec = 0 then 19 else 29 := by
  simp only [defaultTextOf]
  rw [length_defaultText (defaultFields_padDigits ..)]
  split_ifs <;> simp

omit [CivilTime] in
theorem fractionPart_of_nanos {f : Int} (h0 : 0 ≤ f) (h1 : f < 10 ^ 9) :
    FractionPart (if f = 0 then [] else '.' :: padDigits 9 f.toNat) f := by
  split_ifs with hf
  · rw [hf]
    exact .none
  · have hpart := FractionPart.digits (F := padDigits 9 f.toNat)
      (fun _ hc => isDigitChar_of_mem_padDigits hc) (by simp) (by simp)
    have hval : (digitsValue (padDigits 9 f.toNat) : Int) *
        10 ^ (9 - (padDigits 9 f.toNat).length) = f := by
      rw [digitsValue_padDigits, length_padDigits]
      omega
    rwa [hval] at hpart

theorem parseSimpleDateFormat_defaultTextOf (centuryBreak : Int × Int) {d ns : Int}
    (hd : minDayNumber ≤ d ∧ d ≤ maxDayNumber) (h0 : 0 ≤ ns) (h1 : ns < nanosPerSec * secondsPerDay)
    {sep : Char} (hsep : sep = ' ' ∨ sep = 'T') {pre z post : List Char}
    (hpre : ∀ c ∈ pre, isspace c = true) (hz : z = [] ∨ z = ['Z'])
    (hpost : ∀ c ∈ post, isspace c = true) {str : Nat → Char}
    (h : readList str 0 (pre ++ defaultTextOf sep d ns ++ z ++ post).length =
      pre ++ defaultTextOf sep d ns ++ z ++ post) :
    parseSimpleDateFormat centuryBreak str (pre ++ defaultTextOf sep d ns ++ z ++ post).length =
      some (some d, ns) := by
  have hbounds := toCivil_bounds hd
  have hday := dayNumber_toCivil d
  have hvalid := isValidDate_toCivil d
  rcases hc : toCivil d with ⟨y, m, dd⟩
  simp only [hc] at hbounds hday hvalid
  obtain ⟨⟨hy1, hy2⟩, ⟨hm1, hm2⟩, ⟨hd1, hd2⟩⟩ := hbounds
  simp only [nanosPerSec, secondsPerDay] at h1
  simp only [defaultTextOf, hc] at h ⊢
  have hv : ∀ {k : Nat} {x : Int}, 0 ≤ x → x < 10 ^ k →
      (digitsValue (padDigits k x.toNat) : Int) = x := by
    intro k x hx0 hx1
    have hk : ((10 ^ k : Nat) : Int) = 10 ^ k := by push_cast; rfl
    rw [digitsValue_padDigits, Nat.mod_eq_of_lt (by omega)]
    omega
  have q1 : ns / nanosPerSec = ns / 1000000000 := rfl
  have hfr := fractionPart_of_nanos (f := ns % nanosPerSec) (by simp only [nanosPerSec]; omega)
    (by simp only [nanosPerSec]; omega)
  rw [parseSimpleDateFormat_defaultText centuryBreak (defaultFields_padDigits ..) ?range hfr hsep
    ?year ?valid hpre hz hpost h]
  case range =>
    refine ⟨⟨?_, ?_⟩, ⟨?_, ?_⟩, ?_, ?_, ?_⟩ <;> simp only [digitsValue_padDigits, Nat.reducePow] <;>
      omega
  case year =>
    constructor <;> simp only [digitsValue_padDigits, Nat.reducePow] <;> omega
  case valid =>
    rwa [hv (by omega) (by omega), hv (by omega) (by omega), hv (by omega) (by omega)]
  rw [hv (by omega) (by omega), hv (by omega) (by omega), hv (by omega) (by omega), hday]
  rw [hv (k := 2) (by omega) (by omega), hv (k := 2) (by omega) (by omega),
    hv (k := 2) (by omega) (by omega), timeDuration_of_nonneg (by omega) (by omega) (by omega)
    (by simp only [nanosPerSec]; omega)]
  simp only [nanosPerSec]
  congr 2
  omega

end TimestampParser

namespace TimestampValue

open TimestampParser

/-- `ToString()`: `FormatDefault` into a string of `DEFAULT_DATE_TIME_FMT_LEN` zero characters,
cut to the length it returns, or cleared. -/
def toString (t : TimestampValue) : List Char :=
  match formatDefault t.date t.time (fun _ => Char.ofNat 0) with
  | some (dst, outLen) => readList dst 0 outLen
  | none => []

/-- `ParseSimpleDateFormat(str, len)`: the date and time the parser wrote, both
`not_a_date_time` where it failed. The parser's date is in range (`populateParseResult`), which
`mk'` keeps. -/
def parseSimpleDateFormat (centuryBreak : Int × Int) (str : Nat → Char) (len : Nat) :
    TimestampValue :=
  match TimestampParser.parseSimpleDateFormat centuryBreak str len with
  | some (some d, t) => mk' d t
  | some (none, t) => ⟨none, some t, dateInRange_none⟩
  | none => ⟨none, none, dateInRange_none⟩

theorem ext' {t u : TimestampValue} (hd : t.date = u.date) (ht : t.time = u.time) : t = u := by
  cases t
  cases u
  simp only at hd ht
  subst hd ht
  rfl

theorem toString_eq {t : TimestampValue} {d ns : Int} (hd : t.date = some d)
    (ht : t.time = some ns) (h0 : 0 ≤ ns) (h1 : ns < nanosPerSec * secondsPerDay) :
    t.toString = defaultTextOf ' ' d ns := by
  obtain ⟨out, n, hfmt, hread⟩ :=
    formatDefault_eq (t.dateInRange d hd) h0 h1 (fun _ => Char.ofNat 0)
  simp only [toString, hd, ht, hfmt, hread]

theorem default_text_round_trip :
    (∀ t : TimestampValue, t.IsValid → ∃ d ns, t.date = some d ∧ t.time = some ns ∧
      t.toString = defaultTextOf ' ' d ns ∧
      t.toString.length = (if ns % nanosPerSec = 0 then 19 else 29) ∧
      ∀ (centuryBreak : Int × Int) (sep : Char) (pre z post : List Char) (str : Nat → Char),
        (sep = ' ' ∨ sep = 'T') → (∀ c ∈ pre ++ post, isspace c = true) →
        (z = [] ∨ z = ['Z']) →
        readList str 0 (pre ++ t.toString.set 10 sep ++ z ++ post).length =
          pre ++ t.toString.set 10 sep ++ z ++ post →
        parseSimpleDateFormat centuryBreak str (pre ++ t.toString.set 10 sep ++ z ++ post).length =
          t) ∧
    ∀ (centuryBreak : Int × Int) (sep : Char) (Y M D H Mi S F : List Char) (str : Nat → Char),
      DefaultFields Y M D H Mi S → FieldsInRange M D H Mi S →
      (∀ c ∈ F, isDigitChar c = true) → 1 ≤ F.length → F.length ≤ 9 →
      (sep = ' ' ∨ sep = 'T') → 1400 ≤ digitsValue Y → digitsValue Y ≤ 9999 →
      IsValidDate (digitsValue Y) (digitsValue M) (digitsValue D) →
      readList str 0 (defaultText sep Y M D H Mi S ('.' :: F)).length =
        defaultText sep Y M D H Mi S ('.' :: F) →
      TimestampParser.parseSimpleDateFormat centuryBreak str
          (defaultText sep Y M D H Mi S ('.' :: F)).length =
        some (some (dayNumber (digitsValue Y) (digitsValue M) (digitsValue D)),
          timeDuration (digitsValue H) (digitsValue Mi) (digitsValue S)
            (digitsValue F * 10 ^ (9 - F.length))) := by
  refine ⟨?_, ?_⟩
  · rintro t ⟨d, ns, hd, ht, h0, h1⟩
    have htext := toString_eq hd ht h0 h1
    refine ⟨d, ns, hd, ht, htext, htext ▸ length_defaultTextOf ' ' d ns, ?_⟩
    intro centuryBreak sep pre z post str hsep hspace hz h
    have hrange := t.dateInRange d hd
    have hset : t.toString.set 10 sep = defaultTextOf sep d ns := by
      rw [htext]
      exact set_defaultText (defaultFields_padDigits ..) sep
    rw [hset] at h ⊢
    have hparse := parseSimpleDateFormat_defaultTextOf centuryBreak hrange h0 h1 hsep
      (fun c hc => hspace c (List.mem_append_left _ hc)) hz
      (fun c hc => hspace c (List.mem_append_right _ hc)) h
    simp only [parseSimpleDateFormat, hparse]
    exact ext' ((mk'_of_hasDate (by simp [HasDate, mk', hrange])).1.trans hd.symm)
      ((mk'_of_hasDate (by simp [HasDate, mk', hrange])).2.1.trans ht.symm)
  · intro centuryBreak sep Y M D H Mi S F str hf hr hF h1 h9 hsep hy1 hy2 hv h
    have hparse := parseSimpleDateFormat_defaultText centuryBreak hf hr (.digits hF h1 h9) hsep
      ⟨hy1, hy2⟩ hv (by simp : ∀ c ∈ ([] : List Char), isspace c = true)
      (Or.inl rfl : ([] : List Char) = [] ∨ ([] : List Char) = ['Z'])
      (by simp : ∀ c ∈ ([] : List Char), isspace c = true) (by simpa using h)
    simpa using hparse

end TimestampValue

end CivilTime

namespace TimestampValue


theorem default_text_round_trip_half_second :
    (mk' 0 500000000).IsValid ∧ (mk' 0 500000000).toString.length = 29 := by
  have hv : (mk' 0 500000000).IsValid :=
    ⟨0, 500000000, by decide, by decide, by decide, by decide⟩
  obtain ⟨d, ns, -, ht, -, hlen, -⟩ := default_text_round_trip.1 _ hv
  have hns : ns = 500000000 := by
    have htime : (mk' 0 500000000).time = some 500000000 := by decide
    rw [htime] at ht
    exact (Option.some.inj ht).symm
  subst hns
  refine ⟨hv, ?_⟩
  rw [hlen]
  decide

end TimestampValue

end Impala
