import Impala.Util.DecimalUtil
import Impala.Lib.DecimalDigits
import Mathlib.Data.List.TakeWhile

/-!
Parsing a decimal from a string (util/string-parser.h, `StringParser::StringToDecimal`
with `ApplyExponent`, and the `StringToIntInternal<int8_t>` it parses the exponent
with).

The exponent is parsed by the integer parser, whose short-string path accepts a sign
with no digits, so `1e+` is read as `1`. A zero mantissa keeps the precision the
exponent gives it: `0e2` has precision `2` and overflows a `DECIMAL(1, 0)`
(`stringToDecimal_exponent_failures`).
-/

set_option autoImplicit false

namespace Impala.StringParser

open MachineInt DecimalUtil DecimalDigits

inductive ParseResult where
  | success
  | failure
  | overflow
  | underflow
  deriving DecidableEq, Repr

def isWhitespace (c : Char) : Bool :=
  c == ' ' || c == '\t' || c == '\n' || c == '\x0b' || c == '\x0c' || c == '\r'

def isAllWhitespace (s : List Char) : Bool := s.all isWhitespace

theorem isWhitespace_of_isDigitChar {c : Char} (h : isDigitChar c = true) :
    isWhitespace c = false := by
  simp only [isDigitChar, decide_eq_true_eq] at h
  simp only [isWhitespace, Bool.or_eq_false_iff, beq_eq_false_iff_ne]
  refine ⟨⟨⟨⟨⟨?_, ?_⟩, ?_⟩, ?_⟩, ?_⟩, ?_⟩ <;> rintro rfl <;> revert h <;> decide

/-- The loop of `StringToIntNoOverflow<UnsignedT>` after the first digit, for an
unsigned type of `w` bits. -/
def noOverflowLoop (w : Nat) (val : Nat) : List Char → ParseResult × Nat
  | [] => (.success, val)
  | c :: cs =>
    if isDigitChar c then noOverflowLoop w ((val * 10 + charDigit c) % 2 ^ w) cs
    else if isAllWhitespace (c :: cs) then (.success, val) else (.failure, 0)

def stringToIntNoOverflow (w : Nat) : List Char → ParseResult × Nat
  | [] => (.success, 0)
  | c :: cs => if isDigitChar c then noOverflowLoop w (charDigit c) cs else (.failure, 0)

def intLoop (w : Nat) (negative : Bool) (maxVal : Nat) (first : Bool) (val : Nat) :
    List Char → ParseResult × Int
  | [] => (.success, toSigned w (if negative then -(val : Int) else val))
  | c :: cs =>
    if isDigitChar c then
      if val > maxVal / 10 - (if charDigit c > maxVal % 10 then 1 else 0) then
        (.overflow, toSigned w (if negative then -(maxVal : Int) else maxVal))
      else intLoop w negative maxVal false (val * 10 + charDigit c) cs
    else if first || !isAllWhitespace (c :: cs) then (.failure, 0)
    else (.success, toSigned w (if negative then -(val : Int) else val))

def splitSign : List Char → Bool × List Char
  | '-' :: r => (true, r)
  | '+' :: r => (false, r)
  | r => (false, r)

theorem splitSign_of_isDigitChar {c : Char} (hc : isDigitChar c = true) (l : List Char) :
    splitSign (c :: l) = (false, c :: l) := by
  unfold splitSign
  split <;> simp_all [isDigitChar]

/-- `StringToIntInternal<T>` for a signed `T` of `w` bits whose
`StringParseTraits<T>::max_ascii_len()` is `maxAsciiLen`: strings shorter than that
cannot overflow and take the unchecked path. -/
def stringToIntInternal (w maxAsciiLen : Nat) (s : List Char) : ParseResult × Int :=
  if s = [] then (.failure, 0)
  else
    let (negative, rest) := splitSign s
    let maxVal : Nat := if negative then 2 ^ (w - 1) else 2 ^ (w - 1) - 1
    if rest.length < maxAsciiLen then
      let (res, val) := stringToIntNoOverflow w rest
      (res, toSigned w (if negative then -(val : Int) else val))
    else intLoop w negative maxVal true 0 rest

/-- The locals of `StringToDecimal` that its digit loop updates. -/
structure Scan where
  totalDigitsCount : Nat
  digitsAfterDotCount : Nat
  foundDot : Bool
  foundValue : Bool
  firstTruncatedDigit : Nat
  value : Int
  deriving DecidableEq, Repr

/-- The digit loop of `StringToDecimal`: digits past `typePrecision` are dropped, the
first of them remembered when rounding; an exponent ends the loop. `.error` is an
early return with its result. -/
def scanLoop (T : Storage) (typePrecision : Nat) (round : Bool) (st : Scan) :
    List Char → Except ParseResult (Scan × Int)
  | [] => .ok (st, 0)
  | c :: cs =>
    if isDigitChar c then
      let st :=
        if st.totalDigitsCount < typePrecision then { st with value := T.wrap (st.value * 10 + charDigit c) }
        else if round && st.totalDigitsCount == typePrecision then
          { st with firstTruncatedDigit := charDigit c }
        else st
      scanLoop T typePrecision round
        { st with foundValue := true, totalDigitsCount := st.totalDigitsCount + 1,
                  digitsAfterDotCount := st.digitsAfterDotCount + if st.foundDot then 1 else 0 } cs
    else if c == '.' && !st.foundDot then scanLoop T typePrecision round { st with foundDot := true } cs
    else if c == 'e' || c == 'E' then
      let (res, exponent) := stringToIntInternal 8 3 cs
      if res = .success then .ok (st, exponent)
      else .error (if res = .overflow ∧ exponent < 0 then .underflow else res)
    else .error .failure

theorem scanLoop_dot {T : Storage} {typePrecision : Nat} {round : Bool} {st : Scan}
    (h : st.foundDot = false) (cs : List Char) :
    scanLoop T typePrecision round st ('.' :: cs) =
      scanLoop T typePrecision round { st with foundDot := true } cs := by
  simp [scanLoop, isDigitChar, h]

theorem scanLoop_digits (T : Storage) (typePrecision : Nat) (round : Bool) :
    ∀ (ds rest : List Char) (st : Scan), (∀ c ∈ ds, isDigitChar c = true) →
      st.totalDigitsCount + ds.length ≤ typePrecision → 0 ≤ st.value →
      st.value * 10 ^ ds.length + digitsValue ds < 2 ^ (T.bits - 1) →
      scanLoop T typePrecision round st (ds ++ rest) =
        scanLoop T typePrecision round
          { st with value := st.value * 10 ^ ds.length + digitsValue ds,
                    totalDigitsCount := st.totalDigitsCount + ds.length,
                    digitsAfterDotCount :=
                      st.digitsAfterDotCount + if st.foundDot then ds.length else 0,
                    foundValue := st.foundValue || !ds.isEmpty } rest
  | [], rest, st, _, _, _, _ => by simp
  | c :: ds, rest, st, hd, hc, hv, hb => by
    have hcd : isDigitChar c = true := hd c List.mem_cons_self
    have hlt : st.totalDigitsCount < typePrecision := by simp at hc; omega
    have hpow : (1 : Int) ≤ 10 ^ ds.length := one_le_pow₀ (by norm_num)
    have hnext : st.value * 10 + charDigit c ≤ (st.value * 10 + charDigit c) * 10 ^ ds.length +
        digitsValue ds := by nlinarith
    have hfinal : (st.value * 10 + charDigit c) * 10 ^ ds.length + digitsValue ds =
        st.value * 10 ^ (c :: ds).length + digitsValue (c :: ds) := by
      rw [digitsValue_cons, List.length_cons, pow_succ]; push_cast; ring
    have hwrap : T.wrap (st.value * 10 + charDigit c) = st.value * 10 + charDigit c :=
      T.wrap_of_bounds (by have := pow_pos (show (0 : Int) < 2 by norm_num) (T.bits - 1); omega)
        (by omega)
    rw [List.cons_append, scanLoop, if_pos hcd]
    simp only [if_pos hlt, hwrap]
    rw [scanLoop_digits T typePrecision round ds rest _ (fun c' h' => hd c' (List.mem_cons_of_mem _ h'))
      (by simp at hc ⊢; omega) (by simp; omega) (by simp only; omega)]
    congr 1
    simp only [List.length_cons, List.isEmpty_cons, Bool.not_false, Bool.or_true, hfinal,
      Bool.true_or, Scan.mk.injEq, and_true]
    constructor
    · omega
    · split <;> omega

def applyExponent (T : Storage) (totalDigitsCount digitsAfterDotCount : Nat) (exponent : Int)
    (value : Int) : Int × Int × Int :=
  if exponent > digitsAfterDotCount then
    (T.wrap (value * getScaleMultiplier T (exponent - digitsAfterDotCount).toNat),
      totalDigitsCount + (exponent - digitsAfterDotCount), 0)
  else
    let scale : Int := digitsAfterDotCount - exponent
    (value, if (totalDigitsCount : Int) < scale then scale else totalDigitsCount, scale)

theorem applyExponent_zero (T : Storage) (totalDigitsCount digitsAfterDotCount : Nat)
    (value : Int) :
    applyExponent T totalDigitsCount digitsAfterDotCount 0 value =
      (value, if (totalDigitsCount : Int) < digitsAfterDotCount then (digitsAfterDotCount : Int)
        else totalDigitsCount, (digitsAfterDotCount : Int)) := by
  simp [applyExponent]

def trim (s : List Char) : List Char :=
  ((s.dropWhile isWhitespace).reverse.dropWhile isWhitespace).reverse

theorem trim_eq_self {l : List Char} (h : ∀ c ∈ l, isWhitespace c = false) : trim l = l := by
  have hd : ∀ m : List Char, (∀ c ∈ m, isWhitespace c = false) → m.dropWhile isWhitespace = m :=
    fun m hm => List.dropWhile_eq_self_iff.2 fun hl => by simp [hm _ (List.getElem_mem hl)]
  rw [trim, hd l h, hd l.reverse (by simpa using h), List.reverse_reverse]

/-- `StringToDecimal<T>(s, len, type_precision, type_scale, round, &result)`: the
result and the unscaled value. -/
def stringToDecimal (T : Storage) (s : List Char) (typePrecision typeScale : Nat) (round : Bool) :
    ParseResult × Int :=
  let (isNegative, s) := splitSign (trim s)
  let foundZero := s.head? == some '0'
  let s := s.dropWhile (· == '0')
  let (foundDot, zerosAfterDot, s) : Bool × Nat × List Char := match s with
    | '.' :: r => (true, (r.takeWhile (· == '0')).length, r.dropWhile (· == '0'))
    | r => (false, 0, r)
  match scanLoop T typePrecision round
      ⟨0, zerosAfterDot, foundDot, foundZero || zerosAfterDot > 0, 0, 0⟩ s with
  | .error r => (r, 0)
  | .ok (st, exponent) =>
    let truncatedDigitCount := st.totalDigitsCount - typePrecision
    let (value, precision, scale) :=
      applyExponent T st.totalDigitsCount st.digitsAfterDotCount exponent st.value
    let (result, value) : ParseResult × Int :=
      if precision - scale > (typePrecision : Int) - typeScale then (.overflow, value)
      else if scale > typeScale then
        let shift := scale - truncatedDigitCount - typeScale
        if shift > 0 then (.underflow, scaleDownAndRound T value shift.toNat round)
        else
          let value := T.wrap (value + if st.firstTruncatedDigit ≥ 5 then 1 else 0)
          if value = getScaleMultiplier T typePrecision then (.overflow, value)
          else (.underflow, value)
      else if !st.foundValue && !st.foundDot then (.failure, value)
      else if typeScale > scale then
        (.success, T.wrap (value * getScaleMultiplier T (typeScale - scale).toNat))
      else (.success, value)
    (result, if isNegative then T.wrap (-value) else value)

/-! ## The literals the parser is meant to accept -/

def isDigits (l : List Char) : Bool := !l.isEmpty && l.all isDigitChar

/-- `[+-]? (digits? '.'? digits?) ([eE] [+-]? digits)?`, with a digit or a dot in the
mantissa, after the whitespace is trimmed. -/
def decimalLiteral (s : List Char) : Bool :=
  let mantissaOk (m : List Char) : Bool :=
    !m.isEmpty && m.all (fun c => isDigitChar c || c == '.') && m.count '.' ≤ 1
  match ((splitSign (trim s)).2).span (fun c => c != 'e' && c != 'E') with
  | (m, []) => mantissaOk m
  | (m, _ :: e) => mantissaOk m && isDigits (splitSign e).2

/-- Two literals the parser gets wrong, into a `DECIMAL(1, 0)`: `0e2` is `0` and
overflows; `1e+` has no exponent digits and parses as `1`. -/
theorem stringToDecimal_exponent_failures :
    decimalLiteral "0e2".toList = true ∧
      (stringToDecimal .int32 "0e2".toList 1 0 true).1 = .overflow ∧
      decimalLiteral "1e+".toList = false ∧
      stringToDecimal .int32 "1e+".toList 1 0 true = (.success, 1) := by
  decide

end Impala.StringParser
