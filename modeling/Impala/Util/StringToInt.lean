import Impala.Util.StringParser

/-!
Parsing an integer from a string (util/string-parser.h, `StringParser::StringToInt<T>` for
`int8_t` to `int64_t`): `StringToIntInternal`, retried past the leading whitespace when it
fails.

After its sign, a string shorter than `max_ascii_len` takes the path that cannot overflow,
`StringToIntNoOverflow`, which reads the empty string as `0`: a sign with no digits, after
any whitespace, parses as `0` (`stringToInt_sign_only`). A literal `ws* [+-]? [0-9]+ ws*`
parses to its value, or saturates with `PARSE_OVERFLOW` out of the type's range
(`stringToInt_literal`), by either path.
-/

set_option autoImplicit false

namespace Impala.StringParser

open MachineInt DecimalDigits

/-- The signed types `StringToInt` is used with. -/
inductive IntType where
  | int8
  | int16
  | int32
  | int64
  deriving DecidableEq, Repr

namespace IntType

def bits : IntType → Nat
  | int8 => 8
  | int16 => 16
  | int32 => 32
  | int64 => 64

def maxAsciiLen : IntType → Nat
  | int8 => 3
  | int16 => 5
  | int32 => 10
  | int64 => 19

def minValue (T : IntType) : Int := -2 ^ (T.bits - 1)

def maxValue (T : IntType) : Int := 2 ^ (T.bits - 1) - 1

end IntType

def skipLeadingWhitespace (s : List Char) : List Char := s.dropWhile isWhitespace

def stringToInt (T : IntType) (s : List Char) : ParseResult × Int :=
  let r := stringToIntInternal T.bits T.maxAsciiLen s
  if r.1 = .success then r
  else stringToIntInternal T.bits T.maxAsciiLen (skipLeadingWhitespace s)

def intLiteral (s : List Char) : Bool :=
  let afterSign := (splitSign (s.dropWhile isWhitespace)).2
  !(afterSign.takeWhile isDigitChar).isEmpty && (afterSign.dropWhile isDigitChar).all isWhitespace

/-- What `StringToInt<T>` is meant to return for a literal of `n`, negated when `negative`:
the value in the type's range, and the bound it passed with `PARSE_OVERFLOW` otherwise. -/
def literalResult (T : IntType) (negative : Bool) (n : Nat) : ParseResult × Int :=
  let v : Int := if negative then -(n : Int) else n
  if T.minValue ≤ v ∧ v ≤ T.maxValue then (.success, v)
  else (.overflow, if negative then T.minValue else T.maxValue)

namespace IntType

theorem maxAsciiLen_pos (T : IntType) : 0 < T.maxAsciiLen := by
  cases T <;> decide

theorem bits_eq (T : IntType) : T.bits = (T.bits - 1) + 1 := by
  cases T <;> rfl

theorem ten_le_two_pow (T : IntType) : 10 ≤ 2 ^ (T.bits - 1) - 1 := by
  cases T <;> decide

theorem pow_maxAsciiLen_le (T : IntType) : 10 ^ (T.maxAsciiLen - 1) ≤ 2 ^ (T.bits - 1) := by
  cases T <;> decide

end IntType

/-! ## Leading whitespace and signs -/

theorem isDigitChar_of_isWhitespace {c : Char} (hc : isWhitespace c = true) :
    isDigitChar c = false := by
  cases hd : isDigitChar c
  · rfl
  · simp [isWhitespace_of_isDigitChar hd] at hc

theorem splitSign_of_isWhitespace {c : Char} (hc : isWhitespace c = true) (cs : List Char) :
    splitSign (c :: cs) = (false, c :: cs) := by
  have h1 : c ≠ '-' := by rintro rfl; simp [isWhitespace] at hc
  have h2 : c ≠ '+' := by rintro rfl; simp [isWhitespace] at hc
  unfold splitSign
  split <;> simp_all

theorem stringToIntInternal_of_isWhitespace {w L : Nat} {c : Char} (hc : isWhitespace c = true)
    (cs : List Char) : (stringToIntInternal w L (c :: cs)).1 = .failure := by
  have hd := isDigitChar_of_isWhitespace hc
  simp only [stringToIntInternal, reduceCtorEq, if_false, splitSign_of_isWhitespace hc]
  split_ifs
  · simp [stringToIntNoOverflow, hd]
  · simp [intLoop, hd]

theorem dropWhile_isWhitespace_append {ws : List Char} (hws : ∀ c ∈ ws, isWhitespace c = true)
    {c : Char} (hc : isWhitespace c = false) (cs : List Char) :
    (ws ++ c :: cs).dropWhile isWhitespace = c :: cs := by
  induction ws with
  | nil => exact List.dropWhile_cons_of_neg (by simp [hc])
  | cons x ws ih =>
    rw [List.cons_append, List.dropWhile_cons_of_pos (hws x List.mem_cons_self)]
    exact ih fun c' h' => hws c' (List.mem_cons_of_mem x h')

theorem stringToInt_after_whitespace (T : IntType) {ws : List Char}
    (hws : ∀ c ∈ ws, isWhitespace c = true) {c : Char} (hc : isWhitespace c = false)
    (cs : List Char) :
    stringToInt T (ws ++ c :: cs) = stringToIntInternal T.bits T.maxAsciiLen (c :: cs) := by
  have hskip : skipLeadingWhitespace (ws ++ c :: cs) = c :: cs :=
    dropWhile_isWhitespace_append hws hc cs
  unfold stringToInt
  dsimp only
  rw [hskip]
  cases ws with
  | nil =>
    rw [List.nil_append]
    split_ifs <;> rfl
  | cons x ws =>
    rw [List.cons_append, stringToIntInternal_of_isWhitespace (hws x List.mem_cons_self),
      if_neg (by simp)]

theorem stringToIntInternal_sign {w L : Nat} (hL : 0 < L) {sign : Char}
    (hsign : sign = '+' ∨ sign = '-') : stringToIntInternal w L [sign] = (.success, 0) := by
  rcases hsign with rfl | rfl <;>
    simp [stringToIntInternal, splitSign, hL, stringToIntNoOverflow, toSigned]

/-- A sign with no digits, after any whitespace, is no literal, but parses as `0`. -/
theorem stringToInt_sign_only (T : IntType) {ws : List Char}
    (hws : ∀ c ∈ ws, isWhitespace c = true) {sign : Char} (hsign : sign = '+' ∨ sign = '-') :
    intLiteral (ws ++ [sign]) = false ∧ stringToInt T (ws ++ [sign]) = (.success, 0) := by
  have hc : isWhitespace sign = false := by rcases hsign with rfl | rfl <;> decide
  refine ⟨?_, ?_⟩
  · rw [intLiteral, dropWhile_isWhitespace_append hws hc []]
    rcases hsign with rfl | rfl <;> simp [splitSign]
  · rw [stringToInt_after_whitespace T hws hc []]
    exact stringToIntInternal_sign T.maxAsciiLen_pos hsign

theorem stringToInt_sign_only_minus :
    (∀ c ∈ ([] : List Char), isWhitespace c = true) ∧ ('-' = '+' ∨ '-' = '-') ∧
      intLiteral ([] ++ ['-']) = false ∧ stringToInt .int32 ([] ++ ['-']) = (.success, 0) :=
  ⟨by simp, Or.inr rfl, stringToInt_sign_only .int32 (by simp) (Or.inr rfl)⟩

/-! ## Literals -/

theorem charDigit_lt_ten {c : Char} (h : isDigitChar c = true) : charDigit c < 10 := by
  simp only [isDigitChar, decide_eq_true_eq] at h
  obtain ⟨-, h2⟩ := h
  have : c.toNat ≤ '9'.toNat := h2
  unfold charDigit
  simp at this ⊢
  omega

theorem digitsValue_lt {ds : List Char} (h : ∀ c ∈ ds, isDigitChar c = true) :
    digitsValue ds < 10 ^ ds.length := by
  induction ds with
  | nil => simp
  | cons c ds ih =>
    have hc := charDigit_lt_ten (h c List.mem_cons_self)
    have hds := ih fun c' h' => h c' (List.mem_cons_of_mem c h')
    rw [digitsValue_cons, List.length_cons, pow_succ]
    nlinarith

theorem acc_cons (val : Nat) (c : Char) (ds : List Char) :
    (val * 10 + charDigit c) * 10 ^ ds.length + digitsValue ds =
      val * 10 ^ (c :: ds).length + digitsValue (c :: ds) := by
  rw [digitsValue_cons, List.length_cons, pow_succ]
  ring

theorem le_acc (val : Nat) (ds : List Char) : val ≤ val * 10 ^ ds.length + digitsValue ds :=
  le_add_right (Nat.le_mul_of_pos_right _ (by positivity))

section Loops

variable {w : Nat} {ws : List Char}

theorem noOverflowLoop_whitespace (hws : ∀ c ∈ ws, isWhitespace c = true) (val : Nat) :
    noOverflowLoop w val ws = (.success, val) := by
  cases ws with
  | nil => rfl
  | cons c cs =>
    have hall : isAllWhitespace (c :: cs) = true := List.all_eq_true.2 hws
    simp [noOverflowLoop, isDigitChar_of_isWhitespace (hws c List.mem_cons_self), hall]

theorem noOverflowLoop_digits (hws : ∀ c ∈ ws, isWhitespace c = true) :
    ∀ (ds : List Char) (val : Nat), (∀ c ∈ ds, isDigitChar c = true) →
      val * 10 ^ ds.length + digitsValue ds < 2 ^ w →
      noOverflowLoop w val (ds ++ ws) = (.success, val * 10 ^ ds.length + digitsValue ds)
  | [], val, _, _ => by simp [noOverflowLoop_whitespace hws]
  | c :: ds, val, hd, hb => by
    have hstep : val * 10 + charDigit c < 2 ^ w := by
      have := le_acc (val * 10 + charDigit c) ds
      rw [acc_cons] at this
      omega
    rw [List.cons_append, noOverflowLoop, if_pos (hd c List.mem_cons_self), Nat.mod_eq_of_lt hstep,
      noOverflowLoop_digits hws ds _ (fun c' h' => hd c' (List.mem_cons_of_mem c h'))
        (by rw [acc_cons]; exact hb), acc_cons]

theorem overflow_test_iff {val maxVal d : Nat} (hmax : 10 ≤ maxVal) (hd : d < 10) :
    val > maxVal / 10 - (if d > maxVal % 10 then 1 else 0) ↔ val * 10 + d > maxVal := by
  split_ifs <;> omega

theorem intLoop_digits (hws : ∀ c ∈ ws, isWhitespace c = true) (negative : Bool) {maxVal : Nat}
    (hmax : 10 ≤ maxVal) :
    ∀ (ds : List Char) (first : Bool) (val : Nat), (∀ c ∈ ds, isDigitChar c = true) →
      (ds = [] → first = false) → val ≤ maxVal →
      intLoop w negative maxVal first val (ds ++ ws) =
        if val * 10 ^ ds.length + digitsValue ds ≤ maxVal then
          (.success, toSigned w (if negative then -((val * 10 ^ ds.length + digitsValue ds : Nat) : Int)
            else ((val * 10 ^ ds.length + digitsValue ds : Nat) : Int)))
        else (.overflow, toSigned w (if negative then -(maxVal : Int) else maxVal))
  | [], first, val, _, hfirst, hval => by
    have hf := hfirst rfl
    subst hf
    simp only [List.nil_append, List.length_nil, pow_zero, mul_one, digitsValue_nil, add_zero,
      if_pos hval]
    cases ws with
    | nil => rfl
    | cons c cs =>
      have hall : isAllWhitespace (c :: cs) = true := List.all_eq_true.2 hws
      simp [intLoop, isDigitChar_of_isWhitespace (hws c List.mem_cons_self), hall]
  | c :: ds, first, val, hd, _, hval => by
    have hc := hd c List.mem_cons_self
    have hlt := charDigit_lt_ten hc
    rw [List.cons_append, intLoop, if_pos hc]
    by_cases hover : val * 10 + charDigit c > maxVal
    · have hfinal := le_acc (val * 10 + charDigit c) ds
      rw [acc_cons] at hfinal
      rw [if_pos ((overflow_test_iff hmax hlt).2 hover),
        if_neg (show ¬ (val * 10 ^ (c :: ds).length + digitsValue (c :: ds) ≤ maxVal) by omega)]
    · rw [if_neg (fun h => hover ((overflow_test_iff hmax hlt).1 h)),
        intLoop_digits hws negative hmax ds false _ (fun c' h' => hd c' (List.mem_cons_of_mem c h'))
          (fun _ => rfl) (by omega), acc_cons]

end Loops

theorem toSigned_bits_of_bounds (T : IntType) {x : Int} (h1 : -2 ^ (T.bits - 1) ≤ x)
    (h2 : x < 2 ^ (T.bits - 1)) : toSigned T.bits x = x := by
  rw [T.bits_eq]
  exact toSigned_of_bounds h1 h2

theorem literalResult_of_le (T : IntType) (negative : Bool) {n : Nat}
    (h : n ≤ if negative then 2 ^ (T.bits - 1) else 2 ^ (T.bits - 1) - 1) :
    literalResult T negative n = (.success, if negative then -(n : Int) else n) := by
  have hpos : 0 < 2 ^ (T.bits - 1) := by positivity
  have hcast : ((2 ^ (T.bits - 1) : Nat) : Int) = 2 ^ (T.bits - 1) := by push_cast; rfl
  unfold literalResult IntType.minValue IntType.maxValue
  rw [if_pos]
  cases negative <;> simp only [if_true, Bool.false_eq_true, if_false] at h ⊢ <;> omega

theorem literalResult_of_lt (T : IntType) (negative : Bool) {n : Nat}
    (h : (if negative then 2 ^ (T.bits - 1) else 2 ^ (T.bits - 1) - 1) < n) :
    literalResult T negative n =
      (.overflow, if negative then T.minValue else T.maxValue) := by
  have hpos : 0 < 2 ^ (T.bits - 1) := by positivity
  have hcast : ((2 ^ (T.bits - 1) : Nat) : Int) = 2 ^ (T.bits - 1) := by push_cast; rfl
  unfold literalResult IntType.minValue IntType.maxValue
  rw [if_neg]
  cases negative <;> simp only [if_true, Bool.false_eq_true, if_false] at h ⊢ <;> omega

theorem stringToIntInternal_literal (T : IntType) {sign ds ws : List Char}
    (hsign : sign = [] ∨ sign = ['+'] ∨ sign = ['-']) (hds : ds ≠ [])
    (hdigits : ∀ c ∈ ds, isDigitChar c = true) (hws : ∀ c ∈ ws, isWhitespace c = true) :
    stringToIntInternal T.bits T.maxAsciiLen (sign ++ ds ++ ws) =
      literalResult T (sign == ['-']) (digitsValue ds) := by
  obtain ⟨d, ds', rfl⟩ := List.exists_cons_of_ne_nil hds
  have hd := hdigits d List.mem_cons_self
  have hsplit : splitSign (sign ++ d :: ds' ++ ws) = (sign == ['-'], d :: ds' ++ ws) := by
    rcases hsign with rfl | rfl | rfl
    · exact splitSign_of_isDigitChar hd _
    · rfl
    · rfl
  have hne : sign ++ d :: ds' ++ ws ≠ [] := by simp
  have hn := digitsValue_lt hdigits
  generalize (sign == ['-']) = negative at hsplit ⊢
  have hten := T.ten_le_two_pow
  have hpos : 0 < 2 ^ (T.bits - 1) := by positivity
  have hcast : ((2 ^ (T.bits - 1) : Nat) : Int) = 2 ^ (T.bits - 1) := by push_cast; rfl
  have hsigned : ∀ m : Nat, m ≤ (if negative then 2 ^ (T.bits - 1) else 2 ^ (T.bits - 1) - 1) →
      toSigned T.bits (if negative then -(m : Int) else m) = if negative then -(m : Int) else m := by
    intro m hm
    apply toSigned_bits_of_bounds <;>
      cases negative <;> simp only [if_true, Bool.false_eq_true, if_false] at hm ⊢ <;> omega
  unfold stringToIntInternal
  simp only [if_neg hne, hsplit]
  by_cases hshort : (d :: ds' ++ ws).length < T.maxAsciiLen
  · have hlen : (d :: ds').length ≤ T.maxAsciiLen - 1 := by simp at hshort ⊢; omega
    have hsmall : digitsValue (d :: ds') < 2 ^ (T.bits - 1) :=
      lt_of_lt_of_le hn ((Nat.pow_le_pow_right (by norm_num) hlen).trans T.pow_maxAsciiLen_le)
    have hw : digitsValue (d :: ds') < 2 ^ T.bits := by
      rw [T.bits_eq, pow_succ]; omega
    have hloop := noOverflowLoop_digits (w := T.bits) hws ds' (charDigit d)
      (fun c h => hdigits c (List.mem_cons_of_mem d h)) (by rw [← digitsValue_cons]; exact hw)
    rw [← digitsValue_cons] at hloop
    have hle : digitsValue (d :: ds') ≤
        (if negative then 2 ^ (T.bits - 1) else 2 ^ (T.bits - 1) - 1) := by
      cases negative <;> simp only [if_true, Bool.false_eq_true, if_false] <;> omega
    rw [if_pos hshort]
    simp only [List.cons_append, stringToIntNoOverflow, if_pos hd, hloop]
    rw [hsigned _ hle, literalResult_of_le T negative hle]
  · have hmax : 10 ≤ (if negative then 2 ^ (T.bits - 1) else 2 ^ (T.bits - 1) - 1) := by
      cases negative <;> simp only [if_true, Bool.false_eq_true, if_false] <;> omega
    simp only [if_neg hshort]
    rw [intLoop_digits hws negative hmax (d :: ds') true 0 hdigits (by simp) (Nat.zero_le _)]
    simp only [zero_mul, zero_add]
    by_cases hle : digitsValue (d :: ds') ≤
        (if negative then 2 ^ (T.bits - 1) else 2 ^ (T.bits - 1) - 1)
    · rw [if_pos hle, hsigned _ hle, literalResult_of_le T negative hle]
    · rw [if_neg hle, literalResult_of_lt T negative (lt_of_not_ge hle)]
      have hbound := hsigned _ le_rfl
      cases negative <;> simp_all [IntType.minValue, IntType.maxValue]

theorem stringToInt_literal (T : IntType) {ws1 sign ds ws2 : List Char}
    (hws1 : ∀ c ∈ ws1, isWhitespace c = true) (hsign : sign = [] ∨ sign = ['+'] ∨ sign = ['-'])
    (hds : ds ≠ []) (hdigits : ∀ c ∈ ds, isDigitChar c = true)
    (hws2 : ∀ c ∈ ws2, isWhitespace c = true) :
    intLiteral (ws1 ++ (sign ++ ds ++ ws2)) = true ∧
      stringToInt T (ws1 ++ (sign ++ ds ++ ws2)) = literalResult T (sign == ['-']) (digitsValue ds) := by
  obtain ⟨d, ds', rfl⟩ := List.exists_cons_of_ne_nil hds
  have hd := hdigits d List.mem_cons_self
  obtain ⟨c, cs, hcs, hc⟩ : ∃ c cs, sign ++ d :: ds' ++ ws2 = c :: cs ∧ isWhitespace c = false := by
    rcases hsign with rfl | rfl | rfl
    · exact ⟨d, ds' ++ ws2, rfl, isWhitespace_of_isDigitChar hd⟩
    · exact ⟨'+', d :: ds' ++ ws2, rfl, by decide⟩
    · exact ⟨'-', d :: ds' ++ ws2, rfl, by decide⟩
  have hsplit : (splitSign (sign ++ d :: ds' ++ ws2)).2 = d :: ds' ++ ws2 := by
    rcases hsign with rfl | rfl | rfl
    · exact congrArg Prod.snd (splitSign_of_isDigitChar hd _)
    · rfl
    · rfl
  have hnotDigit : ∀ c ∈ ws2.head?, isDigitChar c = false := fun c hc =>
    isDigitChar_of_isWhitespace (hws2 c (List.mem_of_mem_head? hc))
  refine ⟨?_, ?_⟩
  · rw [intLiteral, hcs, dropWhile_isWhitespace_append hws1 hc cs, ← hcs, hsplit,
      List.takeWhile_append_of_pos hdigits, List.dropWhile_append_of_pos hdigits]
    cases ws2 with
    | nil => simp
    | cons x xs =>
      have hx := hnotDigit x rfl
      simp [List.dropWhile_cons_of_neg (by simp [hx] : ¬ isDigitChar x = true), List.all_eq_true.2 hws2]
  · rw [hcs, stringToInt_after_whitespace T hws1 hc cs, ← hcs]
    exact stringToIntInternal_literal T hsign (List.cons_ne_nil d ds') hdigits hws2

example : stringToInt .int8 " -129".toList = (.overflow, -128) ∧
    stringToInt .int8 "+12 ".toList = (.success, 12) := by
  decide

end Impala.StringParser
