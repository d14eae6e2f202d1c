import Impala.Lib.Memory
import Impala.Util.StringToInt

/-!
Simple date format parsing (runtime/datetime-simple-date-format-parser.cc,
`SimpleDateFormatTokenizer::Tokenize` and `SimpleDateFormatParser::ParseDateTime`, with
`ParseAndValidate`, `ParseFractionToken` and `ParseMonthNameToken` of
runtime/datetime-parser-common.cc).

`Tokenize` cuts a pattern such as `yyyy-MM-dd HH:mm:ss` into tokens at their offsets in the
pattern. `ParseDateTime` reads each token at its offset in the string, shifted by the digits
that the single-letter tokens before it took beyond their one character; its only check of
the string's length is `str_len >= fmt_len`. A single-letter year followed by a separator,
on a string of digits, moves the separator to `str + str_len`: the byte there is read, and the
string is rejected unless it is the separator (`parseDateTime_reads_past_end`). In general
every read ends before `max str_len (fmt_len + shift_len)` (`parseDateTime_reads_le`), so a
format without single-letter tokens reads only the string
(`parseDateTime_reads_within_of_fixed_width`).

The string is a function from offsets to characters, read from offset 0; every read is
recorded as a window `(offset, length)`, and a call of `StringToInt` as the window it is given.
-/

set_option autoImplicit false

namespace Impala.DatetimeParseUtil

open Memory DecimalDigits StringParser

/-- The token types of the simple date format; those of the ISO SQL formats are left out. -/
inductive DateTimeFormatTokenType where
  | unknown
  | separator
  | year
  | monthInYear
  | dayInMonth
  | hourInDay
  | minuteInHour
  | secondInMinute
  | fraction
  | tzOffset
  | monthNameShort
  deriving DecidableEq, Repr

def DateTimeFormatTokenType.toNat : DateTimeFormatTokenType → Nat
  | unknown => 0
  | separator => 1
  | year => 2
  | monthInYear => 4
  | dayInMonth => 5
  | hourInDay => 7
  | minuteInHour => 9
  | secondInMinute => 11
  | fraction => 12
  | tzOffset => 13
  | monthNameShort => 23

/-- A token: its type, its offset and length in the format, and its first character `*val`. -/
structure DateTimeFormatToken where
  type : DateTimeFormatTokenType
  pos : Nat
  len : Nat
  val : Char
  deriving DecidableEq, Repr

/-- The part of `DateTimeFormatContext` that `Tokenize` fills: the format's length, its tokens,
and whether it has date and time tokens. -/
structure DateTimeFormatContext where
  fmtLen : Nat
  toks : List DateTimeFormatToken
  hasDateToks : Bool
  hasTimeToks : Bool
  deriving DecidableEq, Repr

inductive CastDirection where
  | parse
  | format
  deriving DecidableEq, Repr

namespace DateTimeFormatContext

def reset (fmtLen : Nat) : DateTimeFormatContext := ⟨fmtLen, [], false, false⟩

def push (ctx : DateTimeFormatContext) (tok : DateTimeFormatToken) : DateTimeFormatContext :=
  { ctx with toks := ctx.toks ++ [tok] }

def noteType (ctx : DateTimeFormatContext) (type : DateTimeFormatTokenType) :
    DateTimeFormatContext :=
  { ctx with
    hasDateToks := ctx.hasDateToks || decide (type.toNat < DateTimeFormatTokenType.hourInDay.toNat)
    hasTimeToks := ctx.hasTimeToks || decide (DateTimeFormatTokenType.hourInDay.toNat ≤ type.toNat) }

@[simp] theorem push_toks (ctx : DateTimeFormatContext) (tok : DateTimeFormatToken) :
    (ctx.push tok).toks = ctx.toks ++ [tok] := rfl

@[simp] theorem push_fmtLen (ctx : DateTimeFormatContext) (tok : DateTimeFormatToken) :
    (ctx.push tok).fmtLen = ctx.fmtLen := rfl

@[simp] theorem noteType_toks (ctx : DateTimeFormatContext) (type : DateTimeFormatTokenType) :
    (ctx.noteType type).toks = ctx.toks := rfl

@[simp] theorem noteType_fmtLen (ctx : DateTimeFormatContext) (type : DateTimeFormatTokenType) :
    (ctx.noteType type).fmtLen = ctx.fmtLen := rfl

end DateTimeFormatContext

/-- The tokens `Tokenize` gives for a format of `fmtLen` characters: a token is not empty and
lies in the format, and a timezone offset has at least its sign and hours. -/
structure DateTimeFormatToken.Valid (fmtLen : Nat) (tok : DateTimeFormatToken) : Prop where
  len_pos : 0 < tok.len
  end_le : tok.pos + tok.len ≤ fmtLen
  tzOffset_len : tok.type = .tzOffset → 3 ≤ tok.len

namespace SimpleDateFormatTokenizer

/-- `IsValidTZOffset(str, str_end)` on the rest of the format: a sign, then `hh:mm`, `hhmm` or
`hh`. -/
def isValidTZOffset : List Char → Bool
  | c :: rest =>
    if c = '+' ∨ c = '-' then
      match rest.length with
      | 5 => rest == "hh:mm".toList
      | 4 => rest == "hhmm".toList
      | 2 => rest == "hh".toList
      | _ => false
    else false
  | [] => false

def letterTokenType : Char → Option DateTimeFormatTokenType
  | 'y' => some .year
  | 'M' => some .monthInYear
  | 'd' => some .dayInMonth
  | 'H' => some .hourInDay
  | 'm' => some .minuteInHour
  | 's' => some .secondInMinute
  | 'S' => some .fraction
  | _ => none

/-- Whether the last token is of variable width: not a separator, and one letter long. -/
def endsInVariableToken (toks : List DateTimeFormatToken) : Bool :=
  match toks.getLast? with
  | some prev => prev.type != .separator && prev.len == 1
  | none => false

/-- What one iteration of the loop of `Tokenize` does. -/
inductive Step where
  /-- `return false` -/
  | fail
  /-- a timezone offset, which ends the format (`break`) -/
  | done (ctx : DateTimeFormatContext)
  /-- the next offset, the rest of the format and the context -/
  | next (i : Nat) (rest : List Char) (ctx : DateTimeFormatContext)

/-- One iteration of the loop of `Tokenize`, at offset `i` on the character `c` with `cs`
after it. -/
def step (acceptTimeToks : Bool) (i : Nat) (c : Char) (cs : List Char)
    (ctx : DateTimeFormatContext) : Step :=
  if isDigitChar c then .fail
  else if c = 'T' ∨ c = 'Z' then
    if acceptTimeToks then .next (i + 1) cs (ctx.push ⟨.separator, i, 1, c⟩) else .fail
  else if !c.isAlpha then
    if ctx.hasTimeToks && isValidTZOffset (c :: cs) then
      .done (ctx.push ⟨.tzOffset, i, cs.length + 1, c⟩)
    else .next (i + 1) cs (ctx.push ⟨.separator, i, 1, c⟩)
  else if endsInVariableToken ctx.toks then .fail
  else
    match letterTokenType c with
    | none => .fail
    | some type =>
      let ctx := ctx.noteType type
      if !acceptTimeToks && ctx.hasTimeToks then .fail
      else
        let tokLen := (cs.takeWhile (· == c)).length + 1
        if type = .monthInYear ∧ 3 < tokLen then .fail
        else
          let type := if type = .monthInYear ∧ tokLen = 3 then .monthNameShort else type
          .next (i + tokLen) (cs.dropWhile (· == c)) (ctx.push ⟨type, i, tokLen, c⟩)

/-- The loop of `Tokenize` over the rest of the format from offset `i`; each iteration takes at
least one character, so `fuel`, the format's length, bounds them. -/
def tokenizeLoop (acceptTimeToks : Bool) :
    Nat → Nat → List Char → DateTimeFormatContext → Option DateTimeFormatContext
  | 0, _, _, ctx => some ctx
  | _ + 1, _, [], ctx => some ctx
  | fuel + 1, i, c :: cs, ctx =>
    match step acceptTimeToks i c cs ctx with
    | .fail => none
    | .done ctx => some ctx
    | .next i rest ctx => tokenizeLoop acceptTimeToks fuel i rest ctx

/-- `Tokenize(dt_ctx, cast_mode, accept_time_toks, accept_time_toks_only)` on the format `fmt`:
the context, or `none` for `false`. -/
def tokenize (fmt : List Char) (castMode : CastDirection) (acceptTimeToks : Bool := true)
    (acceptTimeToksOnly : Bool := false) : Option DateTimeFormatContext :=
  match tokenizeLoop acceptTimeToks fmt.length 0 fmt (.reset fmt.length) with
  | none => none
  | some ctx =>
    if castMode = .parse ∧ acceptTimeToksOnly = false then
      if ctx.hasDateToks then some ctx else none
    else if ctx.hasDateToks || ctx.hasTimeToks then some ctx else none

theorem isValidTZOffset_length {c : Char} {cs : List Char} (h : isValidTZOffset (c :: cs) = true) :
    2 ≤ cs.length := by
  simp only [isValidTZOffset] at h
  split at h
  · split at h <;> first | omega | simp at h
  · simp at h

theorem letterTokenType_ne_tzOffset {c : Char} {type : DateTimeFormatTokenType}
    (h : letterTokenType c = some type) : type ≠ .tzOffset := by
  unfold letterTokenType at h
  split at h <;> simp at h <;> simp [← h]

theorem step_next {a : Bool} {i i' : Nat} {c : Char} {cs rest : List Char}
    {ctx ctx' : DateTimeFormatContext} (h : step a i c cs ctx = .next i' rest ctx') :
    ∃ tok, ctx'.toks = ctx.toks ++ [tok] ∧ ctx'.fmtLen = ctx.fmtLen ∧ tok.pos = i ∧
      i' = i + tok.len ∧ tok.len + rest.length = cs.length + 1 ∧ 0 < tok.len ∧
      tok.type ≠ .tzOffset := by
  unfold step at h
  split_ifs at h
  · cases h
    exact ⟨_, rfl, rfl, rfl, rfl, Nat.add_comm _ _, Nat.one_pos, by simp⟩
  · cases h
    exact ⟨_, rfl, rfl, rfl, rfl, Nat.add_comm _ _, Nat.one_pos, by simp⟩
  · split at h
    · cases h
    · rename_i type htype
      dsimp only at h
      have hrun := congrArg List.length (List.takeWhile_append_dropWhile (p := (· == c)) (l := cs))
      rw [List.length_append] at hrun
      split_ifs at h with hlong hshort <;> cases h
      · exact ⟨_, rfl, rfl, rfl, rfl, by dsimp only; omega, Nat.succ_pos _, by simp⟩
      · exact ⟨_, rfl, rfl, rfl, rfl, by dsimp only; omega, Nat.succ_pos _,
          letterTokenType_ne_tzOffset htype⟩

theorem step_done {a : Bool} {i : Nat} {c : Char} {cs : List Char}
    {ctx ctx' : DateTimeFormatContext} (h : step a i c cs ctx = .done ctx') :
    ctx'.toks = ctx.toks ++ [⟨.tzOffset, i, cs.length + 1, c⟩] ∧ ctx'.fmtLen = ctx.fmtLen ∧
      2 ≤ cs.length := by
  unfold step at h
  split_ifs at h with hdigit hsep haccept halpha htz
  · cases h
    exact ⟨rfl, rfl, isValidTZOffset_length (Bool.and_eq_true_iff.mp htz).2⟩
  · split at h
    · cases h
    · dsimp only at h
      split_ifs at h

theorem valid_append {F : Nat} {toks : List DateTimeFormatToken} {tok : DateTimeFormatToken}
    (hvalid : ∀ t ∈ toks, t.Valid F) (htok : tok.Valid F) : ∀ t ∈ toks ++ [tok], t.Valid F := by
  intro t ht
  rcases List.mem_append.mp ht with hold | hnew
  · exact hvalid t hold
  · rw [List.mem_singleton.mp hnew]
    exact htok

theorem tokenizeLoop_valid {a : Bool} {F fuel i : Nat} {rest : List Char}
    {ctx ctx' : DateTimeFormatContext} (h : tokenizeLoop a fuel i rest ctx = some ctx')
    (hlen : i + rest.length = F) (hfmt : ctx.fmtLen = F) (hvalid : ∀ tok ∈ ctx.toks, tok.Valid F) :
    ctx'.fmtLen = F ∧ (∃ more, ctx'.toks = ctx.toks ++ more) ∧ ∀ tok ∈ ctx'.toks, tok.Valid F := by
  induction fuel generalizing i rest ctx with
  | zero =>
    cases h
    exact ⟨hfmt, ⟨[], by simp⟩, hvalid⟩
  | succ fuel ih =>
    cases rest with
    | nil =>
      cases h
      exact ⟨hfmt, ⟨[], by simp⟩, hvalid⟩
    | cons c cs =>
      simp only [tokenizeLoop] at h
      split at h
      · cases h
      · rename_i ctx₁ hstep
        cases h
        obtain ⟨htoks, hfmt₁, hcs⟩ := step_done hstep
        simp only [List.length_cons] at hlen
        refine ⟨hfmt₁.trans hfmt, ⟨_, htoks⟩, ?_⟩
        rw [htoks]
        exact valid_append hvalid ⟨Nat.succ_pos _, by dsimp only; omega, fun _ => by dsimp only; omega⟩
      · rename_i i₁ rest₁ ctx₁ hstep
        obtain ⟨tok, htoks, hfmt₁, hpos, hi₁, hrest, hlen₁, htz⟩ := step_next hstep
        simp only [List.length_cons] at hlen
        have htok : tok.Valid F := ⟨hlen₁, by omega, fun h => absurd h htz⟩
        obtain ⟨hfmt', ⟨more, hmore⟩, hvalid'⟩ :=
          ih h (by omega) (hfmt₁.trans hfmt) (htoks ▸ valid_append hvalid htok)
        exact ⟨hfmt', ⟨tok :: more, by simp [hmore, htoks]⟩, hvalid'⟩

theorem tokenizeLoop_of_tokenize {fmt : List Char} {castMode : CastDirection} {a b : Bool}
    {ctx : DateTimeFormatContext} (h : tokenize fmt castMode a b = some ctx) :
    tokenizeLoop a fmt.length 0 fmt (.reset fmt.length) = some ctx := by
  unfold tokenize at h
  split at h
  · cases h
  · rename_i ctx₁ hloop
    have hctx : ctx₁ = ctx := by split_ifs at h <;> simp_all
    rwa [← hctx]

theorem tokenize_valid {fmt : List Char} {castMode : CastDirection} {a b : Bool}
    {ctx : DateTimeFormatContext} (h : tokenize fmt castMode a b = some ctx) :
    ctx.fmtLen = fmt.length ∧ ∀ tok ∈ ctx.toks, tok.Valid ctx.fmtLen := by
  obtain ⟨hfmt, -, hvalid⟩ := tokenizeLoop_valid (F := fmt.length) (tokenizeLoop_of_tokenize h)
    (by simp) rfl (by simp [DateTimeFormatContext.reset])
  exact ⟨hfmt, hfmt ▸ hvalid⟩

theorem step_year (a : Bool) {c : Char} (cs : List Char) (hc : c ≠ 'y') (L : Nat) :
    step a 0 'y' (c :: cs) (.reset L) = .next 1 (c :: cs) ⟨L, [⟨.year, 0, 1, 'y'⟩], true, false⟩ := by
  have hrun : (c :: cs).takeWhile (· == 'y') = [] := by simp [hc]
  have hrest : (c :: cs).dropWhile (· == 'y') = c :: cs := by simp [hc]
  simp [step, hrun, hrest, letterTokenType, endsInVariableToken, isDigitChar,
    DateTimeFormatContext.reset, DateTimeFormatContext.noteType, DateTimeFormatContext.push,
    DateTimeFormatTokenType.toNat]

theorem step_after_year {a : Bool} {c : Char} {cs : List Char} {L : Nat} {r : Step}
    (h : step a 1 c cs ⟨L, [⟨.year, 0, 1, 'y'⟩], true, false⟩ = r) (hfail : r ≠ .fail) :
    isDigitChar c = false ∧
      r = .next 2 cs ⟨L, [⟨.year, 0, 1, 'y'⟩, ⟨.separator, 1, 1, c⟩], true, false⟩ := by
  subst h
  unfold step at hfail ⊢
  split_ifs at hfail ⊢ <;> simp_all [endsInVariableToken, DateTimeFormatContext.push]

theorem tokenize_year_separator {c : Char} {rest : List Char} {castMode : CastDirection}
    {a b : Bool} {ctx : DateTimeFormatContext} (h : tokenize ('y' :: c :: rest) castMode a b = some ctx)
    (hc : c ≠ 'y') :
    isDigitChar c = false ∧ ctx.fmtLen = rest.length + 2 ∧
      ∃ toks, ctx.toks = ⟨.year, 0, 1, 'y'⟩ :: ⟨.separator, 1, 1, c⟩ :: toks := by
  have hloop := tokenizeLoop_of_tokenize h
  simp only [List.length_cons, tokenizeLoop, step_year a rest hc] at hloop
  split at hloop
  · cases hloop
  · rename_i ctx₂ hstep
    cases (step_after_year hstep (by simp)).2
  · rename_i i₂ rest₂ ctx₂ hstep
    obtain ⟨hdigit, hnext⟩ := step_after_year hstep (by simp)
    cases hnext
    have hvalid : ∀ tok ∈ [(⟨.year, 0, 1, 'y'⟩ : DateTimeFormatToken), ⟨.separator, 1, 1, c⟩],
        tok.Valid (rest.length + 2) := by
      intro tok htok
      rcases List.mem_pair.mp htok with rfl | rfl <;> exact ⟨Nat.one_pos, by dsimp only; omega, by simp⟩
    obtain ⟨hfmt, ⟨more, hmore⟩, -⟩ :=
      tokenizeLoop_valid (F := rest.length + 2) hloop (by omega) rfl hvalid
    exact ⟨hdigit, hfmt, more, by simpa using hmore⟩

end SimpleDateFormatTokenizer

/-- The fields of `DateTimeParseResult`; `tz_offset` in minutes. -/
structure DateTimeParseResult where
  year : Int := -1
  month : Int := 0
  day : Int := 0
  hour : Int := 0
  minute : Int := 0
  second : Int := 0
  fraction : Int := 0
  tzOffset : Int := 0
  realignYear : Bool := false
  deriving DecidableEq, Repr

/-- `ParseAndValidate(token, token_len, min, max, &result)`: the value `StringToInt<int>`
stores, and whether it parsed and lies in `[min, max]`. -/
def parseAndValidate (token : List Char) (min max : Int) : Int × Bool :=
  let r := stringToInt .int32 token
  (r.2, decide (r.1 = .success ∧ min ≤ r.2 ∧ r.2 ≤ max))

def fractionalSecondMaxLength : Nat := 9

/-- `ParseFractionToken`: the fraction in nanoseconds, scaled up when the token has fewer than
nine characters. The token's value is below `10 ^ token_len`, so the product through `double`
is exact. -/
def parseFractionToken (token : List Char) : Int × Bool :=
  let r := stringToInt .int32 token
  if r.1 = .success then
    (if token.length < fractionalSecondMaxLength then
      r.2 * 10 ^ (fractionalSecondMaxLength - token.length) else r.2, true)
  else (r.2, false)

def shortMonthNameLength : Nat := 3

def monthPrefixes : List (List Char × Int) :=
  [("jan".toList, 1), ("feb".toList, 2), ("mar".toList, 3), ("apr".toList, 4),
    ("may".toList, 5), ("jun".toList, 6), ("jul".toList, 7), ("aug".toList, 8),
    ("sep".toList, 9), ("oct".toList, 10), ("nov".toList, 11), ("dec".toList, 12)]

/-- `ParseMonthNameToken` on a `MONTH_NAME_SHORT` token: the month of its three letters, in
either case. -/
def parseMonthNameToken (token : List Char) : Option Int :=
  if token.length < shortMonthNameLength then none
  else monthPrefixes.lookup ((token.take shortMonthNameLength).map Char.toLower)

/-- The state of the loop of `ParseDateTime`: `shift_len`, the result so far, and the windows
of the string read so far. -/
structure ParseState where
  shiftLen : Nat
  result : DateTimeParseResult
  reads : List (Nat × Nat)

namespace ParseState

def read (st : ParseState) (p n : Nat) : ParseState := { st with reads := st.reads ++ [(p, n)] }

def set (st : ParseState) (f : DateTimeParseResult → DateTimeParseResult) : ParseState :=
  { st with result := f st.result }

@[simp] theorem read_shiftLen (st : ParseState) (p n : Nat) : (st.read p n).shiftLen = st.shiftLen :=
  rfl

@[simp] theorem read_reads (st : ParseState) (p n : Nat) :
    (st.read p n).reads = st.reads ++ [(p, n)] := rfl

@[simp] theorem set_shiftLen (st : ParseState) (f : DateTimeParseResult → DateTimeParseResult) :
    (st.set f).shiftLen = st.shiftLen := rfl

@[simp] theorem set_reads (st : ParseState) (f : DateTimeParseResult → DateTimeParseResult) :
    (st.set f).reads = st.reads := rfl

/-- `st'` keeps the shift of `st`, and adds to its reads only windows that end by `e`. -/
def ReadsTo (e : Nat) (st st' : ParseState) : Prop :=
  st'.shiftLen = st.shiftLen ∧ ∃ new, st'.reads = st.reads ++ new ∧ ∀ w ∈ new, w.1 + w.2 ≤ e

theorem ReadsTo.refl (e : Nat) (st : ParseState) : st.ReadsTo e st :=
  ⟨rfl, [], by simp, by simp⟩

theorem ReadsTo.read {e q m : Nat} {st st' : ParseState} (h : st.ReadsTo e st') (hq : q + m ≤ e) :
    st.ReadsTo e (st'.read q m) := by
  obtain ⟨hshift, new, hreads, hnew⟩ := h
  refine ⟨hshift, new ++ [(q, m)], by simp [hreads], ?_⟩
  intro w hw
  rcases List.mem_append.mp hw with hw | hw
  · exact hnew w hw
  · rw [List.mem_singleton.mp hw]
    exact hq

theorem ReadsTo.set {e : Nat} {st st' : ParseState} (h : st.ReadsTo e st')
    (f : DateTimeParseResult → DateTimeParseResult) : st.ReadsTo e (st'.set f) :=
  h

/-- The loop of `ParseDateTime`, on a string of `n` characters and a format of `F`, went from
`st` to `st'`: the shift only grew, and every read added ends by the end of the string or by
the end of the format shifted by the new shift. -/
def Extends (n F : Nat) (st st' : ParseState) : Prop :=
  st.shiftLen ≤ st'.shiftLen ∧
    ∃ new, st'.reads = st.reads ++ new ∧ ∀ w ∈ new, w.1 + w.2 ≤ max n (F + st'.shiftLen)

theorem Extends.refl (n F : Nat) (st : ParseState) : st.Extends n F st :=
  ⟨le_rfl, [], by simp, by simp⟩

theorem Extends.trans {n F : Nat} {st₁ st₂ st₃ : ParseState} (h₁₂ : st₁.Extends n F st₂)
    (h₂₃ : st₂.Extends n F st₃) : st₁.Extends n F st₃ := by
  obtain ⟨hs₁₂, new₁₂, hr₁₂, hb₁₂⟩ := h₁₂
  obtain ⟨hs₂₃, new₂₃, hr₂₃, hb₂₃⟩ := h₂₃
  refine ⟨hs₁₂.trans hs₂₃, new₁₂ ++ new₂₃, by simp [hr₂₃, hr₁₂], ?_⟩
  intro w hw
  rcases List.mem_append.mp hw with hw | hw
  · have := hb₁₂ w hw
    omega
  · exact hb₂₃ w hw

end ParseState

namespace SimpleDateFormatParser

/-- The scan of a single-letter token past its first character: the digits from offset `q`,
with `room` characters left before the end of the string, and the characters it reads. -/
def scanDigits (mem : Nat → Char) (q : Nat) : Nat → Nat × List (Nat × Nat)
  | 0 => (0, [])
  | room + 1 =>
    if isDigitChar (mem q) then
      let r := scanDigits mem (q + 1) room
      (r.1 + 1, (q, 1) :: r.2)
    else (0, [(q, 1)])

def parseNumeric (mem : Nat → Char) (p tokLen : Nat) (min max : Int)
    (setField : DateTimeParseResult → Int → DateTimeParseResult) (st : ParseState) :
    ParseState × Bool :=
  let r := parseAndValidate (readList mem p tokLen) min max
  ((st.read p tokLen).set fun res => setField res r.1, r.2)

/-- The end of the `TZ_OFFSET` case: the status and range of the minutes checked, then
`tz_offset` stored. -/
def storeTzOffset (sign hour : Int) (st : ParseState) (minute : ParseResult × Int) :
    ParseState × Bool :=
  if minute.1 ≠ .success ∨ minute.2 < 0 ∨ 59 < minute.2 then (st, false)
  else (st.set fun res => { res with tzOffset := sign * hour * 60 + sign * minute.2 }, true)

/-- The `TZ_OFFSET` case of `ParseDateTime`: a sign, two digits of hours, and for `+hh:mm` and
`+hhmm` two digits of minutes. -/
def parseTzOffset (mem : Nat → Char) (p tokLen : Nat) (st : ParseState) : ParseState × Bool :=
  let st := st.read p 1
  if mem p ≠ '+' ∧ mem p ≠ '-' then (st, false)
  else
    let sign : Int := if mem p = '-' then -1 else 1
    let hour := stringToInt .int32 (readList mem (p + 1) 2)
    let st := st.read (p + 1) 2
    if hour.1 ≠ .success ∨ hour.2 < 0 ∨ 23 < hour.2 then (st, false)
    else
      match tokLen with
      | 6 => storeTzOffset sign hour.2 (st.read (p + 4) 2) (stringToInt .int32 (readList mem (p + 4) 2))
      | 5 => storeTzOffset sign hour.2 (st.read (p + 3) 2) (stringToInt .int32 (readList mem (p + 3) 2))
      | 3 => storeTzOffset sign hour.2 st (hour.1, 0)
      | _ => (st, false)

/-- The `switch` of `ParseDateTime` on a token that is not a separator, read at offset `p` with
`tok_len` characters. -/
def parseField (mem : Nat → Char) (type : DateTimeFormatTokenType) (p tokLen : Nat)
    (st : ParseState) : ParseState × Bool :=
  match type with
  | .year =>
    let r := parseNumeric mem p tokLen 0 9999 (fun res v => { res with year := v }) st
    if r.2 ∧ tokLen ≤ 2 then (r.1.set fun res => { res with realignYear := true }, true) else r
  | .monthInYear => parseNumeric mem p tokLen 1 12 (fun res v => { res with month := v }) st
  | .monthNameShort =>
    let st := st.read p tokLen
    match parseMonthNameToken (readList mem p tokLen) with
    | some m => (st.set fun res => { res with month := m }, true)
    | none => (st, false)
  | .dayInMonth => parseNumeric mem p tokLen 1 31 (fun res v => { res with day := v }) st
  | .hourInDay => parseNumeric mem p tokLen 0 23 (fun res v => { res with hour := v }) st
  | .minuteInHour => parseNumeric mem p tokLen 0 59 (fun res v => { res with minute := v }) st
  | .secondInMinute => parseNumeric mem p tokLen 0 59 (fun res v => { res with second := v }) st
  | .fraction =>
    let r := parseFractionToken (readList mem p tokLen)
    ((st.read p tokLen).set fun res => { res with fraction := r.1 }, r.2)
  | .tzOffset => parseTzOffset mem p tokLen st
  | _ => (st, true)

/-- One iteration of the loop of `ParseDateTime`: the token `tok` at its offset shifted by
`shift_len`. -/
def parseToken (mem : Nat → Char) (strLen : Nat) (tok : DateTimeFormatToken) (st : ParseState) :
    ParseState × Bool :=
  let p := tok.pos + st.shiftLen
  if tok.type = .separator then (st.read p 1, mem p == tok.val)
  else
    let scan := if tok.len = 1 then scanDigits mem (p + 1) (strLen - (p + 1)) else (0, [])
    parseField mem tok.type p (tok.len + scan.1)
      { st with shiftLen := st.shiftLen + scan.1, reads := st.reads ++ scan.2 }

def parseTokens (mem : Nat → Char) (strLen : Nat) :
    List DateTimeFormatToken → ParseState → ParseState × Bool
  | [], st => (st, true)
  | tok :: toks, st =>
    let r := parseToken mem strLen tok st
    if r.2 then parseTokens mem strLen toks r.1 else r

def parseDateTime (mem : Nat → Char) (strLen : Nat) (ctx : DateTimeFormatContext)
    (dtResult : DateTimeParseResult) : ParseState × Bool :=
  if strLen = 0 ∨ strLen < ctx.fmtLen then (⟨0, dtResult, []⟩, false)
  else parseTokens mem strLen ctx.toks ⟨0, dtResult, []⟩

theorem scanDigits_reads (mem : Nat → Char) (q room : Nat) :
    ∀ w ∈ (scanDigits mem q room).2, w.1 + w.2 ≤ q + room := by
  induction room generalizing q with
  | zero => simp [scanDigits]
  | succ room ih =>
    simp only [scanDigits]
    split_ifs
    · intro w hw
      rcases List.mem_cons.mp hw with rfl | hw
      · dsimp only
        omega
      · have := ih (q + 1) w hw
        omega
    · intro w hw
      rw [List.mem_singleton.mp hw]
      dsimp only
      omega

theorem scanDigits_of_digits {mem : Nat → Char} {q room : Nat}
    (h : ∀ j < room, isDigitChar (mem (q + j)) = true) : (scanDigits mem q room).1 = room := by
  induction room generalizing q with
  | zero => rfl
  | succ room ih =>
    have hq : isDigitChar (mem q) = true := h 0 (Nat.succ_pos _)
    have hrest : (scanDigits mem (q + 1) room).1 = room := ih fun j hj => by
      rw [show q + 1 + j = q + (j + 1) by omega]
      exact h (j + 1) (by omega)
    simp only [scanDigits, hq, if_true, hrest]

theorem parseNumeric_readsTo (mem : Nat → Char) (p tokLen : Nat) (min max : Int)
    (setField : DateTimeParseResult → Int → DateTimeParseResult) (st : ParseState) :
    st.ReadsTo (p + tokLen) (parseNumeric mem p tokLen min max setField st).1 :=
  ((ParseState.ReadsTo.refl _ st).read le_rfl).set _

theorem storeTzOffset_readsTo {e : Nat} {st st' : ParseState} (h : st.ReadsTo e st')
    (sign hour : Int) (minute : ParseResult × Int) :
    st.ReadsTo e (storeTzOffset sign hour st' minute).1 := by
  unfold storeTzOffset
  split_ifs
  · exact h
  · exact h.set _

theorem parseTzOffset_readsTo (mem : Nat → Char) {p tokLen : Nat} (htok : 3 ≤ tokLen)
    (st : ParseState) : st.ReadsTo (p + tokLen) (parseTzOffset mem p tokLen st).1 := by
  have hsign := (ParseState.ReadsTo.refl (p + tokLen) st).read (q := p) (m := 1) (by omega)
  have hhour := hsign.read (q := p + 1) (m := 2) (by omega)
  unfold parseTzOffset
  dsimp only
  split
  · exact hsign
  · split
    · exact hhour
    · split
      · exact storeTzOffset_readsTo (hhour.read (by omega)) _ _ _
      · exact storeTzOffset_readsTo (hhour.read (by omega)) _ _ _
      · exact storeTzOffset_readsTo hhour _ _ _
      · exact hhour

theorem parseField_readsTo (mem : Nat → Char) (type : DateTimeFormatTokenType) (p tokLen : Nat)
    (htz : type = .tzOffset → 3 ≤ tokLen) (st : ParseState) :
    st.ReadsTo (p + tokLen) (parseField mem type p tokLen st).1 := by
  cases type
  case year =>
    simp only [parseField]
    split_ifs
    · exact (parseNumeric_readsTo ..).set _
    · exact parseNumeric_readsTo ..
  case monthNameShort =>
    simp only [parseField]
    split
    · exact ((ParseState.ReadsTo.refl _ st).read le_rfl).set _
    · exact (ParseState.ReadsTo.refl _ st).read le_rfl
  case fraction => exact ((ParseState.ReadsTo.refl _ st).read le_rfl).set _
  case tzOffset => exact parseTzOffset_readsTo mem (htz rfl) st
  all_goals first | exact parseNumeric_readsTo .. | exact ParseState.ReadsTo.refl _ st

theorem parseToken_spec (mem : Nat → Char) (n : Nat) {F : Nat} {tok : DateTimeFormatToken}
    (hv : tok.Valid F) (st : ParseState) :
    ∃ k new, (parseToken mem n tok st).1.shiftLen = st.shiftLen + k ∧
      (parseToken mem n tok st).1.reads = st.reads ++ new ∧
      (tok.type = .separator ∨ tok.len ≠ 1 → k = 0) ∧
      ∀ w ∈ new, w.1 + w.2 ≤ max n (tok.pos + tok.len + st.shiftLen + k) := by
  have hlen := hv.len_pos
  unfold parseToken
  dsimp only
  by_cases hsep : tok.type = .separator
  · rw [if_pos hsep]
    refine ⟨0, [(tok.pos + st.shiftLen, 1)], rfl, rfl, fun _ => rfl, ?_⟩
    simp only [List.mem_singleton, forall_eq]
    omega
  · rw [if_neg hsep]
    obtain ⟨k, scanReads, hscan, hfixed, hscanReads⟩ : ∃ k scanReads,
        (if tok.len = 1 then scanDigits mem (tok.pos + st.shiftLen + 1) (n - (tok.pos + st.shiftLen + 1))
          else (0, [])) = (k, scanReads) ∧ (tok.len ≠ 1 → k = 0) ∧
        ∀ w ∈ scanReads, w.1 + w.2 ≤ max n (tok.pos + st.shiftLen + 1) := by
      split_ifs with hone
      · refine ⟨_, _, rfl, fun h => absurd hone h, fun w hw => ?_⟩
        have := scanDigits_reads mem _ _ w hw
        omega
      · exact ⟨0, [], rfl, fun _ => rfl, by simp⟩
    rw [hscan]
    dsimp only
    obtain ⟨hshift, new, hreads, hnew⟩ :=
      parseField_readsTo mem tok.type (tok.pos + st.shiftLen) (tok.len + k) (fun h => by have := hv.tzOffset_len h; omega)
      { st with shiftLen := st.shiftLen + k, reads := st.reads ++ scanReads }
    refine ⟨k, scanReads ++ new, hshift, by simp [hreads], fun h => hfixed (h.resolve_left hsep), ?_⟩
    intro w hw
    rcases List.mem_append.mp hw with hw | hw
    · have := hscanReads w hw
      omega
    · have := hnew w hw
      omega

theorem parseToken_extends (mem : Nat → Char) (n : Nat) {F : Nat} {tok : DateTimeFormatToken}
    (hv : tok.Valid F) (st : ParseState) : st.Extends n F (parseToken mem n tok st).1 := by
  obtain ⟨k, new, hshift, hreads, -, hnew⟩ := parseToken_spec mem n hv st
  have hend := hv.end_le
  refine ⟨by omega, new, hreads, fun w hw => ?_⟩
  have := hnew w hw
  rw [hshift]
  omega

theorem parseTokens_extends (mem : Nat → Char) (n : Nat) {F : Nat} {toks : List DateTimeFormatToken}
    (hv : ∀ tok ∈ toks, tok.Valid F) (st : ParseState) :
    st.Extends n F (parseTokens mem n toks st).1 := by
  induction toks generalizing st with
  | nil => exact .refl n F st
  | cons tok toks ih =>
    have hstep : st.Extends n F (parseToken mem n tok st).1 :=
      parseToken_extends mem n (hv tok List.mem_cons_self) st
    simp only [parseTokens]
    split_ifs
    · exact hstep.trans (ih (fun t ht => hv t (List.mem_cons_of_mem _ ht)) _)
    · exact hstep

theorem parseTokens_shiftLen_of_fixed (mem : Nat → Char) (n : Nat) {F : Nat}
    {toks : List DateTimeFormatToken} (hv : ∀ tok ∈ toks, tok.Valid F)
    (hfixed : ∀ tok ∈ toks, tok.type = .separator ∨ tok.len ≠ 1) (st : ParseState) :
    (parseTokens mem n toks st).1.shiftLen = st.shiftLen := by
  induction toks generalizing st with
  | nil => rfl
  | cons tok toks ih =>
    obtain ⟨k, -, hshift, -, hk, -⟩ := parseToken_spec mem n (hv tok List.mem_cons_self) st
    have hstep : (parseToken mem n tok st).1.shiftLen = st.shiftLen := by
      rw [hshift, hk (hfixed tok List.mem_cons_self), Nat.add_zero]
    simp only [parseTokens]
    split_ifs
    · rw [ih (fun t ht => hv t (List.mem_cons_of_mem _ ht))
        (fun t ht => hfixed t (List.mem_cons_of_mem _ ht)), hstep]
    · exact hstep

theorem parseDateTime_reads_le {fmt : List Char} {castMode : CastDirection} {a b : Bool}
    {ctx : DateTimeFormatContext} (htok : SimpleDateFormatTokenizer.tokenize fmt castMode a b = some ctx)
    (mem : Nat → Char) (n : Nat) (r : DateTimeParseResult) :
    ∀ w ∈ (parseDateTime mem n ctx r).1.reads,
      w.1 + w.2 ≤ max n (ctx.fmtLen + (parseDateTime mem n ctx r).1.shiftLen) := by
  unfold parseDateTime
  split_ifs
  · simp
  · obtain ⟨-, new, hreads, hnew⟩ := parseTokens_extends mem n
      (SimpleDateFormatTokenizer.tokenize_valid htok).2 ⟨0, r, []⟩
    rw [hreads, List.nil_append]
    exact hnew

theorem parseDateTime_reads_within_of_fixed_width {fmt : List Char} {castMode : CastDirection}
    {a b : Bool} {ctx : DateTimeFormatContext}
    (htok : SimpleDateFormatTokenizer.tokenize fmt castMode a b = some ctx)
    (hfixed : ∀ tok ∈ ctx.toks, tok.type = .separator ∨ tok.len ≠ 1)
    (mem : Nat → Char) (n : Nat) (r : DateTimeParseResult) :
    ∀ w ∈ (parseDateTime mem n ctx r).1.reads, w.1 + w.2 ≤ n := by
  intro w hw
  have hle := parseDateTime_reads_le htok mem n r w hw
  unfold parseDateTime at hw hle
  split_ifs at hw hle with hshort
  · simp at hw
  · have hshift : (parseTokens mem n ctx.toks ⟨0, r, []⟩).1.shiftLen = 0 :=
      parseTokens_shiftLen_of_fixed mem n (SimpleDateFormatTokenizer.tokenize_valid htok).2 hfixed _
    rw [hshift] at hle
    omega

theorem stringToInt_int32_digits {ds : List Char} (hne : ds ≠ [])
    (hdigits : ∀ c ∈ ds, isDigitChar c = true) (hint : digitsValue ds < 2 ^ 31) :
    stringToInt .int32 ds = (.success, (digitsValue ds : Int)) := by
  have hlit : stringToInt .int32 ([] ++ ([] ++ ds ++ [])) =
      literalResult .int32 ([] == ['-']) (digitsValue ds) :=
    (stringToInt_literal .int32 (by simp) (Or.inl rfl) hne hdigits (by simp)).2
  have hbound : digitsValue ds ≤ 2 ^ 31 - 1 := by omega
  have hres : literalResult .int32 false (digitsValue ds) = (.success, (digitsValue ds : Int)) := by
    rw [literalResult_of_le .int32 false (by simpa [IntType.bits] using hbound)]
    rfl
  simp only [List.nil_append, List.append_nil] at hlit
  rw [hlit, show (([] : List Char) == ['-']) = false from rfl, hres]

theorem parseAndValidate_digits {ds : List Char} (hne : ds ≠ []) (hdigits : ∀ c ∈ ds, isDigitChar c = true)
    {min max : Int} (hmin : min ≤ digitsValue ds) (hmax : digitsValue ds ≤ max) (hint : max < 2 ^ 31) :
    parseAndValidate ds min max = ((digitsValue ds : Int), true) := by
  have hbound : digitsValue ds < 2 ^ 31 := by omega
  simp only [parseAndValidate, stringToInt_int32_digits hne hdigits hbound]
  simp [hmin, hmax]

theorem parseToken_year_of_digits {mem : Nat → Char} {n : Nat} (hn : 0 < n)
    (hdigits : ∀ i < n, isDigitChar (mem i) = true) (hyear : digitsValue (readList mem 0 n) ≤ 9999)
    (st : ParseState) (hst : st.shiftLen = 0) :
    (parseToken mem n ⟨.year, 0, 1, 'y'⟩ st).2 = true ∧
      (parseToken mem n ⟨.year, 0, 1, 'y'⟩ st).1.shiftLen = n - 1 := by
  have hscan : (scanDigits mem 1 (n - 1)).1 = n - 1 :=
    scanDigits_of_digits fun j hj => hdigits (1 + j) (by omega)
  have hval : parseAndValidate (readList mem 0 n) 0 9999 =
      ((digitsValue (readList mem 0 n) : Int), true) := by
    refine parseAndValidate_digits (List.ne_nil_of_length_pos (by simpa using hn)) (fun c hc => ?_)
      (by positivity) (by omega) (by norm_num)
    obtain ⟨k, hk, rfl⟩ : ∃ k < n, mem (0 + k) = c := by simpa [readList] using hc
    exact hdigits _ (by omega)
  have hwidth : 1 + (n - 1) = n := by omega
  simp only [parseToken, hst, Nat.add_zero, Nat.zero_add, if_pos, if_neg (show DateTimeFormatTokenType.year ≠ .separator by decide),
    hscan, hwidth, parseField, parseNumeric, hval]
  split_ifs <;> simp

/-- A format that starts with one `y` and a separator, on a string of digits as long as the
format at least: the year takes all the digits, and the separator is read at `str + str_len`,
one past the string, which holds no separator; the string is rejected unless that byte is one. -/
theorem parseDateTime_reads_past_end {c : Char} {rest : List Char} {ctx : DateTimeFormatContext}
    (htok : SimpleDateFormatTokenizer.tokenize ('y' :: c :: rest) .parse = some ctx) (hc : c ≠ 'y')
    {mem : Nat → Char} {n : Nat} (hlen : ctx.fmtLen ≤ n)
    (hdigits : ∀ i < n, isDigitChar (mem i) = true) (hyear : digitsValue (readList mem 0 n) ≤ 9999)
    (r : DateTimeParseResult) :
    c ∉ readList mem 0 n ∧ (n, 1) ∈ (parseDateTime mem n ctx r).1.reads ∧
      (mem n ≠ c → (parseDateTime mem n ctx r).2 = false) := by
  obtain ⟨hcdigit, hfmt, toks, htoks⟩ := SimpleDateFormatTokenizer.tokenize_year_separator htok hc
  have hvalid := (SimpleDateFormatTokenizer.tokenize_valid htok).2
  have hnotmem : c ∉ readList mem 0 n := by
    intro hmem
    obtain ⟨k, hk, hck⟩ : ∃ k < n, mem (0 + k) = c := by simpa [readList] using hmem
    have := hdigits k hk
    simp_all
  obtain ⟨hyearOk, hshift⟩ := parseToken_year_of_digits (by omega) hdigits hyear ⟨0, r, []⟩ rfl
  set st₁ := (parseToken mem n ⟨.year, 0, 1, 'y'⟩ ⟨0, r, []⟩).1 with hst₁
  have hsep : parseToken mem n ⟨.separator, 1, 1, c⟩ st₁ = (st₁.read n 1, mem n == c) := by
    simp only [parseToken, if_pos, hshift, show 1 + (n - 1) = n by omega]
  have hrun : parseDateTime mem n ctx r = parseTokens mem n (⟨.separator, 1, 1, c⟩ :: toks) st₁ := by
    rw [parseDateTime, if_neg (by omega), htoks, parseTokens, if_pos hyearOk]
  refine ⟨hnotmem, ?_, fun hne => ?_⟩
  · rw [hrun, parseTokens, hsep]
    split_ifs
    · have hext : (st₁.read n 1).Extends n ctx.fmtLen (parseTokens mem n toks (st₁.read n 1)).1 :=
        parseTokens_extends mem n (fun t ht => hvalid t (by simp [htoks, ht])) _
      obtain ⟨-, new, hreads, -⟩ := hext
      simp [hreads]
    · simp
  · rw [hrun, parseTokens, hsep]
    simp [hne]

theorem parseDateTime_reads_past_end_y_M :
    let mem : Nat → Char := fun i => ['2', '0', '0', '-', '5'].getD i ' '
    let ctx : DateTimeFormatContext :=
      ⟨3, [⟨.year, 0, 1, 'y'⟩, ⟨.separator, 1, 1, '-'⟩, ⟨.monthInYear, 2, 1, 'M'⟩], true, false⟩
    SimpleDateFormatTokenizer.tokenize ['y', '-', 'M'] .parse = some ctx ∧ '-' ≠ 'y' ∧
      ctx.fmtLen ≤ 3 ∧ (∀ i < 3, isDigitChar (mem i) = true) ∧
      digitsValue (readList mem 0 3) ≤ 9999 ∧
      ('-' ∉ readList mem 0 3 ∧ (3, 1) ∈ (parseDateTime mem 3 ctx {}).1.reads ∧
        (mem 3 ≠ '-' → (parseDateTime mem 3 ctx {}).2 = false)) ∧
      (parseDateTime mem 3 ctx {}).2 = true ∧ (parseDateTime mem 3 ctx {}).1.result.month = 5 :=
  ⟨by decide, by decide, by decide, by decide, by decide,
    @parseDateTime_reads_past_end '-' ['M']
      ⟨3, [⟨.year, 0, 1, 'y'⟩, ⟨.separator, 1, 1, '-'⟩, ⟨.monthInYear, 2, 1, 'M'⟩], true, false⟩
      (by decide) (by decide) (fun i => ['2', '0', '0', '-', '5'].getD i ' ') 3 (by decide) (by decide)
      (by decide) {},
    by decide, by decide⟩

end SimpleDateFormatParser

end Impala.DatetimeParseUtil
