import Impala.Runtime.DatetimeSimpleDateFormatParser

/-!
The default formats of the simple date format (runtime/datetime-simple-date-format-parser.cc):
the contexts `InitCtx` tokenizes once, `GetDefaultFormatContext`, which picks one of them by the
length of a string and the characters at the offsets of its separators, and `TokenizeByStr`,
which tokenizes a string of the default shape whose fields have other widths.

A text `yyyy-MM-dd HH:mm:ss` (`T` in place of the space, and `.` with one to nine digits after
it) gets the context of its own length (`getDefaultFormatContext_defaultText`), whose tokens sit
at the offsets of the text's fields, and `ParseDateTime` reads every field from its window
(`parseDateTime_defaultText`).
-/

set_option autoImplicit false

namespace Impala.DatetimeParseUtil

open Memory DecimalDigits StringParser

namespace SimpleDateFormatTokenizer

def defaultDateFmtLen : Nat := 10

def defaultTimeFmtLen : Nat := 8

def defaultTimeFracFmtLen : Nat := 18

def defaultShortDateTimeFmtLen : Nat := 19

def defaultDateTimeFmtLen : Nat := 29

def fractionalMaxLen : Nat := 9

/-- A context of `InitCtx`: `Reset(fmt, fmt_len)`, then `Tokenize`, whose result `InitCtx` does
not look at; every default format tokenizes (`defaultDateTimeCtx_eq` and the lemmas beside
it). -/
def initCtx (fmt : List Char) (fmtLen : Nat) (acceptTimeToksOnly : Bool := false) :
    DateTimeFormatContext :=
  (tokenize (fmt.take fmtLen) .parse true acceptTimeToksOnly).getD (.reset fmtLen)

def dateTimeCtxFmt : List Char := "yyyy-MM-dd HH:mm:ss.SSSSSSSSS".toList

def isoDateTimeCtxFmt : List Char := "yyyy-MM-ddTHH:mm:ss.SSSSSSSSS".toList

def defaultDateTimeCtx (i : Nat) : DateTimeFormatContext :=
  initCtx dateTimeCtxFmt (defaultDateTimeFmtLen - (fractionalMaxLen - i))

def defaultIsoDateTimeCtx (i : Nat) : DateTimeFormatContext :=
  initCtx isoDateTimeCtxFmt (defaultDateTimeFmtLen - (fractionalMaxLen - i))

def defaultShortDateTimeCtx : DateTimeFormatContext :=
  initCtx "yyyy-MM-dd HH:mm:ss".toList "yyyy-MM-dd HH:mm:ss".length

def defaultShortIsoDateTimeCtx : DateTimeFormatContext :=
  initCtx "yyyy-MM-ddTHH:mm:ss".toList "yyyy-MM-ddTHH:mm:ss".length

def defaultDateCtx : DateTimeFormatContext := initCtx "yyyy-MM-dd".toList "yyyy-MM-dd".length

def defaultTimeCtx : DateTimeFormatContext := initCtx "HH:mm:ss".toList "HH:mm:ss".length true

def defaultTimeFracCtx (i : Nat) : DateTimeFormatContext :=
  initCtx (dateTimeCtxFmt.drop 11) (defaultTimeFracFmtLen - (fractionalMaxLen - i)) true

/-- The `switch (str[10])` of `GetDefaultFormatContext`: a space or a `T` between the date and
the time. -/
def pickSeparator (c : Char) (spaceCtx isoCtx : DateTimeFormatContext) :
    Option DateTimeFormatContext :=
  if c = ' ' then some spaceCtx else if c = 'T' then some isoCtx else none

/-- `GetDefaultFormatContext(str, len, accept_time_toks, accept_time_toks_only)`: the default
context for a string of `len` characters, `none` for `nullptr`. -/
def getDefaultFormatContext (str : Nat → Char) (len : Nat) (acceptTimeToks acceptTimeToksOnly : Bool) :
    Option DateTimeFormatContext :=
  if len < defaultTimeFmtLen then none
  else if str 4 = '-' ∧ str 7 = '-' then
    if len = defaultDateFmtLen then some defaultDateCtx
    else if !acceptTimeToks then none
    else if len = defaultShortDateTimeFmtLen then
      if str 13 = ':' then pickSeparator (str 10) defaultShortDateTimeCtx defaultShortIsoDateTimeCtx
      else none
    else if len = defaultDateTimeFmtLen then
      if str 13 = ':' then pickSeparator (str 10) (defaultDateTimeCtx 9) (defaultIsoDateTimeCtx 9)
      else none
    else if defaultShortDateTimeFmtLen < len ∧ len < defaultDateTimeFmtLen ∧ str 19 = '.' ∧
        str 13 = ':' then
      pickSeparator (str 10) (defaultDateTimeCtx (len - defaultShortDateTimeFmtLen - 1))
        (defaultIsoDateTimeCtx (len - defaultShortDateTimeFmtLen - 1))
    else none
  else if acceptTimeToksOnly ∧ str 2 = ':' ∧ str 5 = ':' then
    if len = defaultTimeFmtLen then some defaultTimeCtx
    else
      let len := min len defaultTimeFracFmtLen
      if defaultTimeFmtLen < len ∧ str 8 = '.' then
        some (defaultTimeFracCtx (len - defaultTimeFmtLen - 1))
      else none
  else none

/-- The end of the run of characters that `ok` accepts from offset `p`, with `room` characters
left: the loops of `ParseDigitToken` and `ParseSeparatorToken`. -/
def scanWhile (str : Nat → Char) (ok : Char → Bool) (p : Nat) : Nat → Nat
  | 0 => p
  | room + 1 => if ok (str p) then scanWhile str ok (p + 1) room else p

def parseDigitToken (str : Nat → Char) (p strEnd : Nat) : Nat :=
  scanWhile str isDigitChar p (strEnd - p)

def parseSeparatorToken (str : Nat → Char) (p strEnd : Nat) (sep : Char) : Nat :=
  scanWhile str (· == sep) p (strEnd - p)

/-- `TokenizeByStr(dt_ctx, accept_time_toks)` on the string of `len` characters that the context
was made from: a year of four digits, then month and day, hour, minute and second of one or two
digits, and a fraction, each token at its offset in the string. The check `str > str_end` is
left out: no scan passes the end. -/
def tokenizeByStr (str : Nat → Char) (len : Nat) (acceptTimeToks : Bool := true) :
    Option DateTimeFormatContext :=
  let tok (type : DateTimeFormatTokenType) (p q : Nat) : DateTimeFormatToken :=
    ⟨type, p, q - p, str p⟩
  let oneOrTwo (p q : Nat) : Bool := q - p == 1 || q - p == 2
  if parseDigitToken str 0 len ≠ 4 then none else
  let m0 := parseSeparatorToken str 4 len '-'
  if m0 - 4 ≠ 1 then none else
  let m1 := parseDigitToken str m0 len
  if !oneOrTwo m0 m1 then none else
  let d0 := parseSeparatorToken str m1 len '-'
  if d0 - m1 ≠ 1 then none else
  let d1 := parseDigitToken str d0 len
  if !oneOrTwo d0 d1 then none else
  let dateToks := [tok .year 0 4, tok .separator 4 m0, tok .monthInYear m0 m1,
    tok .separator m1 d0, tok .dayInMonth d0 d1]
  if d1 = len then some ⟨len, dateToks, true, false⟩ else
  if !acceptTimeToks then none else
  let c := str d1
  if c ≠ ' ' ∧ c ≠ 'T' then none else
  let h0 := parseSeparatorToken str d1 len c
  if h0 - d1 < 1 ∨ (c = 'T' ∧ 1 < h0 - d1) then none else
  let h1 := parseDigitToken str h0 len
  if !oneOrTwo h0 h1 then none else
  let i0 := parseSeparatorToken str h1 len ':'
  if i0 - h1 ≠ 1 then none else
  let i1 := parseDigitToken str i0 len
  if !oneOrTwo i0 i1 then none else
  let s0 := parseSeparatorToken str i1 len ':'
  if s0 - i1 ≠ 1 then none else
  let s1 := parseDigitToken str s0 len
  if !oneOrTwo s0 s1 then none else
  let toks := dateToks ++ [tok .separator d1 h0, tok .hourInDay h0 h1, tok .separator h1 i0,
    tok .minuteInHour i0 i1, tok .separator i1 s0, tok .secondInMinute s0 s1]
  if s1 < len then
    let f0 := parseSeparatorToken str s1 len '.'
    if f0 - s1 ≠ 1 then none else
    let f1 := parseDigitToken str f0 len
    let numDigits := min 9 (f1 - f0)
    if numDigits = 0 ∨ f1 < len then none
    else some ⟨len, toks ++ [tok .separator s1 f0, ⟨.fraction, f0, numDigits, str f0⟩], true, true⟩
  else some ⟨len, toks, true, true⟩

/-! ### The contexts of the default formats -/

def dateTimeToks (sep : Char) : List DateTimeFormatToken :=
  [⟨.year, 0, 4, 'y'⟩, ⟨.separator, 4, 1, '-'⟩, ⟨.monthInYear, 5, 2, 'M'⟩,
    ⟨.separator, 7, 1, '-'⟩, ⟨.dayInMonth, 8, 2, 'd'⟩, ⟨.separator, 10, 1, sep⟩,
    ⟨.hourInDay, 11, 2, 'H'⟩, ⟨.separator, 13, 1, ':'⟩, ⟨.minuteInHour, 14, 2, 'm'⟩,
    ⟨.separator, 16, 1, ':'⟩, ⟨.secondInMinute, 17, 2, 's'⟩]

def fractionToks (i : Nat) : List DateTimeFormatToken :=
  [⟨.separator, 19, 1, '.'⟩, ⟨.fraction, 20, i, 'S'⟩]

theorem pickSeparator_short {sep : Char} (hsep : sep = ' ' ∨ sep = 'T') :
    pickSeparator sep defaultShortDateTimeCtx defaultShortIsoDateTimeCtx =
      some ⟨19, dateTimeToks sep, true, true⟩ := by
  rcases hsep with rfl | rfl <;> decide

theorem pickSeparator_fraction {sep : Char} (hsep : sep = ' ' ∨ sep = 'T') {i : Nat} (h1 : 1 ≤ i)
    (h9 : i ≤ 9) :
    pickSeparator sep (defaultDateTimeCtx i) (defaultIsoDateTimeCtx i) =
      some ⟨20 + i, dateTimeToks sep ++ fractionToks i, true, true⟩ := by
  have hall : ∀ i < 10, 1 ≤ i →
      defaultDateTimeCtx i = ⟨20 + i, dateTimeToks ' ' ++ fractionToks i, true, true⟩ ∧
        defaultIsoDateTimeCtx i = ⟨20 + i, dateTimeToks 'T' ++ fractionToks i, true, true⟩ := by
    decide
  obtain ⟨hspace, hiso⟩ := hall i (by omega) h1
  rcases hsep with rfl | rfl
  · simp [pickSeparator, hspace]
  · simp [pickSeparator, hiso]

/-! ### Texts of the default formats -/

/-- A text of a default format: `yyyy-MM-dd`, the separator `sep`, `HH:mm:ss`, and the fraction
part `frac`. -/
def defaultText (sep : Char) (Y M D H Mi S frac : List Char) : List Char :=
  Y ++ ('-' :: (M ++ ('-' :: (D ++ (sep :: (H ++ (':' :: (Mi ++ (':' :: (S ++ frac))))))))))

/-- The fields of a default text: digits, four of the year and two of every other field. -/
structure DefaultFields (Y M D H Mi S : List Char) : Prop where
  length_year : Y.length = 4
  length_month : M.length = 2
  length_day : D.length = 2
  length_hour : H.length = 2
  length_minute : Mi.length = 2
  length_second : S.length = 2
  digits : ∀ l ∈ [Y, M, D, H, Mi, S], ∀ c ∈ l, isDigitChar c = true

/-- The fraction part of a default text, and its value in nanoseconds: nothing, or `.` and one to
nine digits. -/
inductive FractionPart : List Char → Int → Prop
  | none : FractionPart [] 0
  | digits {F : List Char} : (∀ c ∈ F, isDigitChar c = true) → 1 ≤ F.length → F.length ≤ 9 →
      FractionPart ('.' :: F) (digitsValue F * 10 ^ (9 - F.length))

theorem FractionPart.mem_range {frac : List Char} {fraction : Int}
    (hfp : FractionPart frac fraction) : 0 ≤ fraction ∧ fraction < 10 ^ 9 := by
  cases hfp with
  | none => decide
  | @digits F hF h1 h9 =>
    have hlt : digitsValue F * 10 ^ (9 - F.length) < 10 ^ F.length * 10 ^ (9 - F.length) :=
      Nat.mul_lt_mul_of_pos_right (digitsValue_lt hF) (by positivity)
    rw [← pow_add, show F.length + (9 - F.length) = 9 by omega] at hlt
    constructor
    · positivity
    · exact_mod_cast hlt

variable {Y M D H Mi S frac : List Char} {sep : Char}

@[simp]
theorem length_defaultText (hf : DefaultFields Y M D H Mi S) :
    (defaultText sep Y M D H Mi S frac).length = 19 + frac.length := by
  simp only [defaultText, List.length_append, List.length_cons, hf.length_year, hf.length_month,
    hf.length_day, hf.length_hour, hf.length_minute, hf.length_second]
  omega

theorem defaultFields_padDigits (y m d h mi s : Nat) :
    DefaultFields (padDigits 4 y) (padDigits 2 m) (padDigits 2 d) (padDigits 2 h) (padDigits 2 mi)
      (padDigits 2 s) where
  length_year := length_padDigits 4 y
  length_month := length_padDigits 2 m
  length_day := length_padDigits 2 d
  length_hour := length_padDigits 2 h
  length_minute := length_padDigits 2 mi
  length_second := length_padDigits 2 s
  digits := by
    simp only [List.mem_cons, List.not_mem_nil, or_false]
    rintro l (rfl | rfl | rfl | rfl | rfl | rfl) c hc <;> exact isDigitChar_of_mem_padDigits hc

theorem set_defaultText (hf : DefaultFields Y M D H Mi S) (sep' : Char) :
    (defaultText sep Y M D H Mi S frac).set 10 sep' = defaultText sep' Y M D H Mi S frac := by
  simp [defaultText, hf.length_year, hf.length_month, hf.length_day]

theorem DefaultFields.layout (hf : DefaultFields Y M D H Mi S) {str : Nat → Char}
    (h : readList str 0 (defaultText sep Y M D H Mi S frac).length =
      defaultText sep Y M D H Mi S frac) :
    readList str 0 4 = Y ∧ str 4 = '-' ∧ readList str 5 2 = M ∧ str 7 = '-' ∧
      readList str 8 2 = D ∧ str 10 = sep ∧ readList str 11 2 = H ∧ str 13 = ':' ∧
      readList str 14 2 = Mi ∧ str 16 = ':' ∧ readList str 17 2 = S ∧
      readList str 19 frac.length = frac := by
  unfold defaultText at h
  obtain ⟨hY, h⟩ := readList_of_append h
  obtain ⟨h4, h⟩ := readList_of_cons h
  obtain ⟨hM, h⟩ := readList_of_append h
  obtain ⟨h7, h⟩ := readList_of_cons h
  obtain ⟨hD, h⟩ := readList_of_append h
  obtain ⟨h10, h⟩ := readList_of_cons h
  obtain ⟨hH, h⟩ := readList_of_append h
  obtain ⟨h13, h⟩ := readList_of_cons h
  obtain ⟨hMi, h⟩ := readList_of_append h
  obtain ⟨h16, h⟩ := readList_of_cons h
  obtain ⟨hS, hfrac⟩ := readList_of_append h
  simp only [hf.length_year, hf.length_month, hf.length_day, hf.length_hour, hf.length_minute,
    hf.length_second, Nat.reduceAdd] at hY h4 hM h7 hD h10 hH h13 hMi h16 hS hfrac
  exact ⟨hY, h4, hM, h7, hD, h10, hH, h13, hMi, h16, hS, hfrac⟩

theorem getDefaultFormatContext_defaultText_short (hf : DefaultFields Y M D H Mi S)
    {str : Nat → Char} (h : readList str 0 (defaultText sep Y M D H Mi S []).length =
      defaultText sep Y M D H Mi S []) (hsep : sep = ' ' ∨ sep = 'T') (a : Bool) :
    getDefaultFormatContext str 19 true a = some ⟨19, dateTimeToks sep, true, true⟩ := by
  obtain ⟨-, h4, -, h7, -, h10, -, h13, -⟩ := hf.layout h
  simp only [getDefaultFormatContext, defaultTimeFmtLen, defaultDateFmtLen,
    defaultShortDateTimeFmtLen, h4, h7, h13, h10, pickSeparator_short hsep]
  simp

theorem getDefaultFormatContext_defaultText_fraction (hf : DefaultFields Y M D H Mi S)
    {F : List Char} {str : Nat → Char} (h : readList str 0 (defaultText sep Y M D H Mi S ('.' :: F)).length =
      defaultText sep Y M D H Mi S ('.' :: F)) (hsep : sep = ' ' ∨ sep = 'T') (h1 : 1 ≤ F.length)
    (h9 : F.length ≤ 9) (a : Bool) :
    getDefaultFormatContext str (20 + F.length) true a =
      some ⟨20 + F.length, dateTimeToks sep ++ fractionToks F.length, true, true⟩ := by
  obtain ⟨-, h4, -, h7, -, h10, -, h13, -, -, -, hfrac⟩ := hf.layout h
  have h19 : str 19 = '.' := (readList_of_cons hfrac).1
  simp only [getDefaultFormatContext, defaultTimeFmtLen, defaultDateFmtLen,
    defaultShortDateTimeFmtLen, defaultDateTimeFmtLen, h4, h7, h13, h10, h19]
  rcases Nat.lt_or_ge F.length 9 with hlt | hge
  · rw [← pickSeparator_fraction hsep h1 h9]
    simp [show ¬ 20 + F.length < 8 by omega, show ¬ 20 + F.length = 10 by omega,
      show ¬ 20 + F.length = 19 by omega, show ¬ 20 + F.length = 29 by omega,
      show 19 < 20 + F.length by omega, show 20 + F.length < 29 by omega,
      show 20 + F.length - 19 - 1 = F.length by omega]
  · rw [show F.length = 9 by omega, ← pickSeparator_fraction hsep (by omega) le_rfl]
    simp

end SimpleDateFormatTokenizer

namespace SimpleDateFormatParser

open SimpleDateFormatTokenizer

/-- The ranges `ParseDateTime` checks the month, day, hour, minute and second against. -/
structure FieldsInRange (M D H Mi S : List Char) : Prop where
  month : 1 ≤ digitsValue M ∧ digitsValue M ≤ 12
  day : 1 ≤ digitsValue D ∧ digitsValue D ≤ 31
  hour : digitsValue H ≤ 23
  minute : digitsValue Mi ≤ 59
  second : digitsValue S ≤ 59

variable {Y M D H Mi S frac : List Char} {sep : Char}

theorem parseFractionToken_digits {F : List Char} (hne : F ≠ [])
    (hdigits : ∀ c ∈ F, isDigitChar c = true) (h9 : F.length ≤ 9) :
    parseFractionToken F = ((digitsValue F : Int) * 10 ^ (9 - F.length), true) := by
  have hlt : digitsValue F < 10 ^ F.length := digitsValue_lt hdigits
  have hint : digitsValue F < 2 ^ 31 :=
    calc digitsValue F < 10 ^ F.length := hlt
      _ ≤ 10 ^ 9 := Nat.pow_le_pow_right (by norm_num) h9
      _ < 2 ^ 31 := by norm_num
  simp only [parseFractionToken, stringToInt_int32_digits hne hdigits hint,
    fractionalSecondMaxLength, ↓reduceIte]
  split_ifs with h
  · rfl
  · rw [show 9 - F.length = 0 by omega, pow_zero, mul_one]

theorem parseTokens_dateTimeToks (hf : DefaultFields Y M D H Mi S) (hr : FieldsInRange M D H Mi S)
    {str : Nat → Char} (h : readList str 0 (defaultText sep Y M D H Mi S frac).length =
      defaultText sep Y M D H Mi S frac) (n : Nat) (toks : List DateTimeFormatToken)
    (st : ParseState) (hst : st.shiftLen = 0) :
    ∃ reads, parseTokens str n (dateTimeToks sep ++ toks) st =
      parseTokens str n toks ⟨0, { st.result with
        year := digitsValue Y, month := digitsValue M, day := digitsValue D,
        hour := digitsValue H, minute := digitsValue Mi, second := digitsValue S }, reads⟩ := by
  obtain ⟨hY, h4, hM, h7, hD, h10, hH, h13, hMi, h16, hS, -⟩ := hf.layout h
  have hne : ∀ {l : List Char}, 0 < l.length → l ≠ [] := List.ne_nil_of_length_pos
  have hYlt : digitsValue Y < 10 ^ 4 := hf.length_year ▸ digitsValue_lt (hf.digits Y (by simp))
  have pY : parseAndValidate Y 0 9999 = ((digitsValue Y : Int), true) :=
    parseAndValidate_digits (hne (by rw [hf.length_year]; omega)) (hf.digits Y (by simp))
      (by positivity) (by omega) (by norm_num)
  have pM : parseAndValidate M 1 12 = ((digitsValue M : Int), true) :=
    parseAndValidate_digits (hne (by rw [hf.length_month]; omega)) (hf.digits M (by simp))
      (by exact_mod_cast hr.month.1) (by exact_mod_cast hr.month.2) (by norm_num)
  have pD : parseAndValidate D 1 31 = ((digitsValue D : Int), true) :=
    parseAndValidate_digits (hne (by rw [hf.length_day]; omega)) (hf.digits D (by simp))
      (by exact_mod_cast hr.day.1) (by exact_mod_cast hr.day.2) (by norm_num)
  have pH : parseAndValidate H 0 23 = ((digitsValue H : Int), true) :=
    parseAndValidate_digits (hne (by rw [hf.length_hour]; omega)) (hf.digits H (by simp))
      (by positivity) (by exact_mod_cast hr.hour) (by norm_num)
  have pMi : parseAndValidate Mi 0 59 = ((digitsValue Mi : Int), true) :=
    parseAndValidate_digits (hne (by rw [hf.length_minute]; omega)) (hf.digits Mi (by simp))
      (by positivity) (by exact_mod_cast hr.minute) (by norm_num)
  have pS : parseAndValidate S 0 59 = ((digitsValue S : Int), true) :=
    parseAndValidate_digits (hne (by rw [hf.length_second]; omega)) (hf.digits S (by simp))
      (by positivity) (by exact_mod_cast hr.second) (by norm_num)
  simp [dateTimeToks, parseTokens, parseToken, parseField, parseNumeric, hst,
    hY, hM, hD, hH, hMi, hS, h4, h7, h10, h13, h16, pY, pM, pD, pH, pMi, pS]
  exact ⟨_, rfl⟩

theorem parseDateTime_defaultText_short (hf : DefaultFields Y M D H Mi S)
    (hr : FieldsInRange M D H Mi S) {str : Nat → Char}
    (h : readList str 0 (defaultText sep Y M D H Mi S []).length = defaultText sep Y M D H Mi S [])
    (r : DateTimeParseResult) :
    (parseDateTime str 19 ⟨19, dateTimeToks sep, true, true⟩ r).2 = true ∧
      (parseDateTime str 19 ⟨19, dateTimeToks sep, true, true⟩ r).1.result = { r with
        year := digitsValue Y, month := digitsValue M, day := digitsValue D,
        hour := digitsValue H, minute := digitsValue Mi, second := digitsValue S } := by
  obtain ⟨reads, hrun⟩ := parseTokens_dateTimeToks hf hr h 19 [] ⟨0, r, []⟩ rfl
  rw [List.append_nil] at hrun
  dsimp only [parseDateTime]
  rw [if_neg (by omega), hrun]
  exact ⟨rfl, rfl⟩

theorem parseDateTime_defaultText_fraction (hf : DefaultFields Y M D H Mi S)
    (hr : FieldsInRange M D H Mi S) {F : List Char} (hF : ∀ c ∈ F, isDigitChar c = true)
    (h1 : 1 ≤ F.length) (h9 : F.length ≤ 9) {str : Nat → Char}
    (h : readList str 0 (defaultText sep Y M D H Mi S ('.' :: F)).length =
      defaultText sep Y M D H Mi S ('.' :: F)) (r : DateTimeParseResult) :
    let ctx : DateTimeFormatContext :=
      ⟨20 + F.length, dateTimeToks sep ++ fractionToks F.length, true, true⟩
    (parseDateTime str (20 + F.length) ctx r).2 = true ∧
      (parseDateTime str (20 + F.length) ctx r).1.result = { r with
        year := digitsValue Y, month := digitsValue M, day := digitsValue D,
        hour := digitsValue H, minute := digitsValue Mi, second := digitsValue S,
        fraction := digitsValue F * 10 ^ (9 - F.length) } := by
  intro ctx
  obtain ⟨-, -, -, -, -, -, -, -, -, -, -, hfrac⟩ := hf.layout h
  obtain ⟨h19, hF'⟩ := readList_of_cons hfrac
  obtain ⟨reads, hrun⟩ := parseTokens_dateTimeToks hf hr h (20 + F.length)
    (fractionToks F.length) ⟨0, r, []⟩ rfl
  have hscan : (if F.length = 1 then scanDigits str (20 + 0 + 1) (20 + F.length - (20 + 0 + 1))
      else (0, [])).1 = 0 := by
    split_ifs with hone
    · rw [hone]; rfl
    · rfl
  have pF := parseFractionToken_digits (List.ne_nil_of_length_pos (by omega)) hF h9
  dsimp only [ctx, parseDateTime]
  rw [if_neg (by omega), hrun]
  simp [fractionToks, parseTokens, parseToken, h19, parseField, hscan, hF', pF]
  rfl

theorem parseDateTime_defaultText (hf : DefaultFields Y M D H Mi S) (hr : FieldsInRange M D H Mi S)
    {fraction : Int} (hfp : FractionPart frac fraction) (hsep : sep = ' ' ∨ sep = 'T')
    {str : Nat → Char} (h : readList str 0 (defaultText sep Y M D H Mi S frac).length =
      defaultText sep Y M D H Mi S frac) (a : Bool) :
    ∃ ctx, getDefaultFormatContext str (19 + frac.length) true a = some ctx ∧
      ctx.hasDateToks = true ∧ ctx.hasTimeToks = true ∧
      (parseDateTime str (19 + frac.length) ctx {}).2 = true ∧
      (parseDateTime str (19 + frac.length) ctx {}).1.result =
        { year := digitsValue Y, month := digitsValue M, day := digitsValue D,
          hour := digitsValue H, minute := digitsValue Mi, second := digitsValue S,
          fraction := fraction } := by
  cases hfp with
  | none =>
    obtain ⟨hok, hres⟩ := parseDateTime_defaultText_short hf hr h {}
    exact ⟨_, getDefaultFormatContext_defaultText_short hf h hsep a, rfl, rfl, hok, hres⟩
  | @digits F hF h1 h9 =>
    obtain ⟨hok, hres⟩ := parseDateTime_defaultText_fraction hf hr hF h1 h9 h {}
    rw [List.length_cons, show 19 + (F.length + 1) = 20 + F.length by omega]
    exact ⟨_, getDefaultFormatContext_defaultText_fraction hf h hsep h1 h9 a, rfl, rfl, hok, hres⟩

end SimpleDateFormatParser

end Impala.DatetimeParseUtil
