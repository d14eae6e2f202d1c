import Mathlib.Order.Basic
import Impala.Lib.MachineInt
import Impala.Runtime.StringValue

/-!
Substring and padding functions (exprs/string-functions-ir.cc).

A returned `StringVal` is NULL, a view `StringVal(ptr + off, len)` into one of the
arguments, or a buffer the function allocates and fills. The `BigIntVal`
arguments are `int64_t`; `Substring` keeps them in `int` variables and
`StringVal(ptr, len)` takes an `int` length, so both narrowings are `toSigned 32`.
-/

set_option autoImplicit false

namespace Impala.StringFunctions

open MachineInt

def maxLength : Int := 2^30

/-- The argument a view points into. -/
inductive Arg where
  | str
  | pad
  deriving DecidableEq, Repr

inductive Result where
  | null
  | view (arg : Arg) (off len : Int)
  | fresh (bytes : Bytes)
  deriving DecidableEq, Repr

def Result.empty : Result := .fresh []

def Arg.bytes (str pad : Bytes) : Arg → Bytes
  | .str => str
  | .pad => pad

/-- A result reads only bytes of its arguments. -/
def Result.InBounds (str pad : Bytes) : Result → Prop
  | .view a off len => 0 ≤ off ∧ 0 ≤ len ∧ off + len ≤ (a.bytes str pad).length
  | _ => True

instance (str pad : Bytes) : (r : Result) → Decidable (r.InBounds str pad)
  | .null => isTrue trivial
  | .view _ _ _ => inferInstanceAs (Decidable (_ ∧ _ ∧ _))
  | .fresh _ => isTrue trivial

def Result.value (str pad : Bytes) : Result → Option Bytes
  | .null => none
  | .view a off len => some (((a.bytes str pad).drop off.toNat).take len.toNat)
  | .fresh b => some b

/-! ## `Utf8Substring` -/

/-- `BitUtil::IsUtf8StartByte`: the byte is not of the form `10xxxxxx`. -/
def isUtf8StartByte (b : UInt8) : Bool := b &&& 0xC0 != 0x80

/-- The forward loop `for (; utf8_cnt < target && byte_pos < str.len; ++byte_pos)`
that counts start bytes, over the bytes from `byte_pos = i` on; it returns the final
`byte_pos` and `utf8_cnt`. -/
def seekForward (target : Int) : Bytes → Nat → Int → Nat × Int
  | [], i, cnt => (i, cnt)
  | b :: rest, i, cnt =>
    if cnt < target then
      seekForward target rest (i + 1) (if isUtf8StartByte b then cnt + 1 else cnt)
    else (i, cnt)

def skipContinuation : Bytes → Nat → Nat
  | [], i => i
  | b :: rest, i => if isUtf8StartByte b then i else skipContinuation rest (i + 1)

/-- The backward loop of a negative position, over `str.ptr[byte_pos]` down to
`str.ptr[0]` (the bytes below `byte_pos`, reversed). It returns `byte_pos`,
`utf8_cnt` and `byte_end`, which is set at the start byte numbered `endCnt`. -/
def seekBackward (target endCnt : Int) : Bytes → Int → Int → Int → Int × Int × Int
  | [], i, cnt, e => (i, cnt, e)
  | b :: rest, i, cnt, e =>
    if cnt < target then
      if isUtf8StartByte b then
        seekBackward target endCnt rest (i - 1) (cnt + 1)
          (if cnt + 1 > 0 ∧ cnt + 1 = endCnt then i else e)
      else seekBackward target endCnt rest (i - 1) cnt e
    else (i, cnt, e)

/-- `StringFunctions::Utf8Substring`. The negations of the `int64_t` position wrap. -/
def utf8Substring (str : Bytes) (pos len : Int) : Result :=
  if str.length = 0 ∨ pos = 0 ∨ len ≤ 0 then .empty
  else if pos > 0 then
    let r := seekForward pos str 0 0
    if r.2 < pos then .empty
    else
      let byteStart := r.1 - 1
      let r' := seekForward len (str.drop byteStart) byteStart 0
      let byteEnd := if r'.2 = len then skipContinuation (str.drop r'.1) r'.1 else r'.1
      .view .str byteStart ((byteEnd : Int) - byteStart)
  else
    let negPos := toSigned 64 (-pos)
    let r := seekBackward negPos (toSigned 64 (negPos - len)) str.reverse
      (str.length - 1) 0 str.length
    if r.2.1 < negPos then .empty
    else .view .str (r.1 + 1) (r.2.2 - (r.1 + 1))

/-! ## `Substring`, `Left`, `Right` -/

def substringBytes (str : Bytes) (pos len : Int) : Result :=
  let fixedPos0 := toSigned 32 pos
  let fixedPos :=
    if fixedPos0 < 0 then toSigned 32 (str.length + fixedPos0 + 1) else fixedPos0
  let maxLen := toSigned 32 (str.length - fixedPos + 1)
  let fixedLen := min (toSigned 32 len) maxLen
  if fixedPos > 0 ∧ fixedPos ≤ str.length ∧ fixedLen > 0 then
    .view .str (fixedPos - 1) fixedLen
  else .empty

def substring (utf8Mode : Bool) (str : Bytes) (pos len : Int) : Result :=
  if utf8Mode then utf8Substring str pos len else substringBytes str pos len

def left (utf8Mode : Bool) (str : Bytes) (len : Int) : Result :=
  substring utf8Mode str 1 len

def right (utf8Mode : Bool) (str : Bytes) (len : Int) : Result :=
  substring utf8Mode str (max (toSigned 64 (-len)) (-(str.length : Int))) len

/-! ## `Lpad`, `Rpad` -/

def errorCharacterLimitExceeded (what : String) : String :=
  what ++ " is larger than allowed limit of 1.00 GB character data."

/-- The padding loop: `k` more bytes from `pad`, starting at `pad_index = i`, which
wraps with `pad_index % pad.len`. -/
def padBytes (pad : Bytes) : Nat → Nat → Bytes
  | 0, _ => []
  | k + 1, i => pad.getD i 0 :: padBytes pad k ((i + 1) % pad.length)

/-- `Lpad` and `Rpad`, which differ only in the name in their error and in whether
the padding is placed before or after `str`. The first component is the error the
function sets. -/
def padFunction (what : String) (place : Bytes → Bytes → Bytes) (str : Bytes) (len : Int)
    (pad : Bytes) : Option String × Result :=
  if len < 0 then (none, .null)
  else if len ≤ str.length ∨ pad.length = 0 then (none, .view .str 0 (toSigned 32 len))
  else if len > maxLength then (some (errorCharacterLimitExceeded what), .null)
  else (none, .fresh (place (padBytes pad (len - str.length).toNat 0) str))

def lpad : Bytes → Int → Bytes → Option String × Result :=
  padFunction "lpad() result" fun padding str => padding ++ str

def rpad : Bytes → Int → Bytes → Option String × Result :=
  padFunction "rpad() result" fun padding str => str ++ padding

/-! ## The MySQL definitions -/

/-- `SUBSTR(s, pos, n)` in bytes: positions `p .. min(p + n - 1, |s|)`, 1-based,
with a negative `pos` counted from the end. -/
def substrSpec (s : Bytes) (pos n : Int) : Bytes :=
  let p : Int := if pos > 0 then pos else s.length + pos + 1
  if pos = 0 ∨ n ≤ 0 ∨ p < 1 ∨ p > s.length then []
  else (s.drop (p - 1).toNat).take n.toNat

def cyclic (pad : Bytes) (k : Nat) : Bytes :=
  (List.range k).map fun j => pad.getD (j % pad.length) 0

/-- `LPAD`/`RPAD(s, n, pad)`: NULL for `n < 0`, the first `n` bytes when `n ≤ |s|`,
`s` when `pad` is empty, and otherwise `s` with cyclic copies of `pad` placed to
reach `n` bytes. -/
def padSpec (place : Bytes → Bytes → Bytes) (s : Bytes) (n : Int) (pad : Bytes) :
    Option Bytes :=
  if n < 0 then none
  else if n ≤ s.length then some (s.take n.toNat)
  else if pad = [] then some s
  else some (place (cyclic pad (n.toNat - s.length)) s)

/-- Byte-mode `substr` reads a position past `2^32` as its low 32 bits, so
`substr("abc", 2^32 + 1, 1)` is `"a"` where `SUBSTR` gives the empty string; and
`lpad("ab", 5, "")` returns a view of five bytes of a two-byte argument. -/
theorem substring_lpad_failures :
    substring false [97, 98, 99] (2^32 + 1) 1 = .view .str 0 1 ∧
    substrSpec [97, 98, 99] (2^32 + 1) 1 = [] ∧
    lpad [97, 98] 5 [] = (none, .view .str 0 5) ∧
    ¬ (Result.view .str 0 5).InBounds [97, 98] [] := by
  refine ⟨by decide, by decide, by decide, by decide⟩

/-! ## `Utf8Substring` stays inside `str` -/

theorem seekForward_bounds (t : Int) (l : Bytes) (i : Nat) (c : Int) :
    i ≤ (seekForward t l i c).1 ∧ (seekForward t l i c).1 ≤ i + l.length := by
  induction l generalizing i c with
  | nil => simp [seekForward]
  | cons b rest ih =>
    rw [seekForward]
    by_cases hlt : c < t
    · rw [if_pos hlt]
      have := ih (i + 1) (if isUtf8StartByte b then c + 1 else c)
      simp only [List.length_cons]; omega
    · rw [if_neg hlt]; simp

theorem seekForward_moved (t : Int) (l : Bytes) (i : Nat) (c : Int)
    (h : (seekForward t l i c).2 ≠ c) : i < (seekForward t l i c).1 := by
  cases l with
  | nil => exact absurd rfl h
  | cons b rest =>
    rw [seekForward] at h ⊢
    by_cases hlt : c < t
    · rw [if_pos hlt]
      exact Nat.lt_of_lt_of_le (Nat.lt_succ_self i) (seekForward_bounds t rest (i + 1) _).1
    · rw [if_neg hlt] at h; exact absurd rfl h

theorem skipContinuation_bounds (l : Bytes) (i : Nat) :
    i ≤ skipContinuation l i ∧ skipContinuation l i ≤ i + l.length := by
  induction l generalizing i with
  | nil => simp [skipContinuation]
  | cons b rest ih =>
    simp only [skipContinuation]
    split_ifs
    · simp
    · have := ih (i + 1); simp only [List.length_cons]; omega

theorem seekBackward_bounds (t ec : Int) (l : Bytes) {i c e E : Int} (h1 : i + 1 ≤ e)
    (h2 : e ≤ E) (h3 : i < E) :
    i - l.length ≤ (seekBackward t ec l i c e).1 ∧
      (seekBackward t ec l i c e).1 + 1 ≤ (seekBackward t ec l i c e).2.2 ∧
      (seekBackward t ec l i c e).2.2 ≤ E := by
  induction l generalizing i c e with
  | nil => simp only [seekBackward, List.length_nil, Nat.cast_zero, sub_zero]; omega
  | cons b rest ih =>
    rw [seekBackward]
    simp only [List.length_cons, Nat.cast_add, Nat.cast_one]
    by_cases hlt : c < t
    · rw [if_pos hlt]
      by_cases hstart : isUtf8StartByte b
      · rw [if_pos hstart]
        by_cases hend : c + 1 > 0 ∧ c + 1 = ec
        · rw [if_pos hend]
          have := ih (i := i - 1) (c := c + 1) (e := i) (by omega) (by omega) (by omega)
          omega
        · rw [if_neg hend]
          have := ih (i := i - 1) (c := c + 1) (e := e) (by omega) h2 (by omega)
          omega
      · rw [if_neg hstart]
        have := ih (i := i - 1) (c := c) (e := e) (by omega) h2 (by omega)
        omega
    · rw [if_neg hlt]
      dsimp only
      omega

theorem utf8Substring_inBounds (str pad : Bytes) (pos len : Int) :
    (utf8Substring str pos len).InBounds str pad := by
  unfold utf8Substring
  by_cases h0 : str.length = 0 ∨ pos = 0 ∨ len ≤ 0
  · rw [if_pos h0]; trivial
  rw [if_neg h0]
  by_cases hpos : pos > 0
  · rw [if_pos hpos]
    dsimp only
    by_cases hcnt : (seekForward pos str 0 0).2 < pos
    · rw [if_pos hcnt]; trivial
    rw [if_neg hcnt]
    obtain ⟨-, hr⟩ := seekForward_bounds pos str 0 0
    have hmoved := seekForward_moved pos str 0 0 (by omega)
    obtain ⟨hr'1, hr'2⟩ := seekForward_bounds len (str.drop ((seekForward pos str 0 0).1 - 1))
      ((seekForward pos str 0 0).1 - 1) 0
    simp only [List.length_drop] at hr'2
    generalize seekForward len (str.drop ((seekForward pos str 0 0).1 - 1))
      ((seekForward pos str 0 0).1 - 1) 0 = r' at hr'1 hr'2 ⊢
    generalize (seekForward pos str 0 0).1 = r at hr hmoved hr'1 hr'2 ⊢
    have hend : r'.1 ≤ (if r'.2 = len then skipContinuation (str.drop r'.1) r'.1 else r'.1) ∧
        (if r'.2 = len then skipContinuation (str.drop r'.1) r'.1 else r'.1) ≤ str.length := by
      split_ifs
      · have := skipContinuation_bounds (str.drop r'.1) r'.1
        simp only [List.length_drop] at this; omega
      · omega
    simp only [Result.InBounds, Arg.bytes]
    omega
  rw [if_neg hpos]
  dsimp only
  split_ifs
  · trivial
  · obtain ⟨h1, h2, h3⟩ := seekBackward_bounds (toSigned 64 (-pos))
      (toSigned 64 (toSigned 64 (-pos) - len)) str.reverse (c := 0)
      (i := (str.length : Int) - 1) (e := str.length) (E := str.length) (by omega) le_rfl
      (by omega)
    simp only [List.length_reverse] at h1
    simp only [Result.InBounds, Arg.bytes]
    omega

/-! ## Byte-mode `Substring` within `int` -/

def FitsInt (x : Int) : Prop := -2^31 ≤ x ∧ x < 2^31

theorem toSigned_of_fitsInt {x : Int} (h : FitsInt x) : toSigned 32 x = x :=
  toSigned_of_bounds h.1 h.2

def startOf (s : Bytes) (pos : Int) : Int := if pos > 0 then pos else s.length + pos + 1

theorem substringBytes_of_fits {str : Bytes} {pos len : Int}
    (hs : (str.length : Int) ≤ maxLength) (hpos : FitsInt pos) (hlen : FitsInt len) :
    substringBytes str pos len =
      if pos ≠ 0 ∧ 0 < startOf str pos ∧ startOf str pos ≤ str.length ∧ 0 < len then
        .view .str (startOf str pos - 1) (min len (str.length - startOf str pos + 1))
      else .empty := by
  have hp := toSigned_of_fitsInt hpos
  have hl := toSigned_of_fitsInt hlen
  unfold maxLength at hs
  unfold FitsInt at hpos hlen
  dsimp only [substringBytes]
  rw [hp, hl]
  have hfp : (if pos < 0 then toSigned 32 (str.length + pos + 1) else pos) =
      if pos = 0 then 0 else startOf str pos := by
    unfold startOf
    rcases lt_trichotomy pos 0 with hneg | rfl | hposv
    · rw [if_pos hneg, if_neg (by omega), if_neg (by omega)]
      exact toSigned_of_bounds (by omega) (by omega)
    · simp
    · rw [if_neg (by omega), if_neg (by omega), if_pos hposv]
  rw [hfp]
  by_cases hc : pos ≠ 0 ∧ 0 < startOf str pos ∧ startOf str pos ≤ str.length
  · have hmax : toSigned 32 (str.length - startOf str pos + 1) = str.length - startOf str pos + 1 :=
      toSigned_of_bounds (by omega) (by omega)
    rw [if_neg hc.1, hmax]
    by_cases hl0 : 0 < len
    · rw [if_pos ⟨hc.2.1, hc.2.2, lt_min hl0 (by omega)⟩, if_pos ⟨hc.1, hc.2.1, hc.2.2, hl0⟩]
    · rw [if_neg (fun h => hl0 (lt_of_lt_of_le h.2.2 (min_le_left _ _))),
        if_neg (fun h => hl0 h.2.2.2)]
  · by_cases h0 : pos = 0
    · subst h0
      simp
    · rw [if_neg h0, if_neg (fun h => hc ⟨h0, h.1, h.2.1⟩),
        if_neg (fun h => hc ⟨h.1, h.2.1, h.2.2.1⟩)]

theorem substringBytes_spec {str : Bytes} {pos len : Int} (pad : Bytes)
    (hs : (str.length : Int) ≤ maxLength) (hpos : FitsInt pos) (hlen : FitsInt len) :
    (substringBytes str pos len).InBounds str pad ∧
      (substringBytes str pos len).value str pad = some (substrSpec str pos len) := by
  rw [substringBytes_of_fits hs hpos hlen]
  have hspec : substrSpec str pos len =
      if pos = 0 ∨ len ≤ 0 ∨ startOf str pos < 1 ∨ startOf str pos > str.length then []
      else (str.drop (startOf str pos - 1).toNat).take len.toNat := rfl
  rw [hspec]
  by_cases hc : pos ≠ 0 ∧ 0 < startOf str pos ∧ startOf str pos ≤ str.length ∧ 0 < len
  · rw [if_pos hc, if_neg (by omega)]
    refine ⟨⟨by omega, by omega, by simp [Arg.bytes]; omega⟩, ?_⟩
    have hrest : ((str.drop (startOf str pos - 1).toNat).length : Int) =
        str.length - startOf str pos + 1 := by
      simp only [List.length_drop]; omega
    simp only [Result.value, Arg.bytes, Option.some.injEq]
    rw [List.take_eq_take_min, List.take_eq_take_min (i := len.toNat)]
    congr 1
    omega
  · rw [if_neg hc, if_pos (by omega)]
    exact ⟨trivial, rfl⟩

/-! ## `Lpad` and `Rpad` with a pad -/

theorem padBytes_eq {pad : Bytes} (hL : 0 < pad.length) (k : Nat) {i : Nat}
    (hi : i < pad.length) :
    padBytes pad k i = (List.range k).map fun j => pad.getD ((i + j) % pad.length) 0 := by
  induction k generalizing i with
  | zero => rfl
  | succ k ih =>
    rw [padBytes, ih (Nat.mod_lt _ hL), List.range_succ_eq_map, List.map_cons, List.map_map]
    congr 1
    · rw [Nat.add_zero, Nat.mod_eq_of_lt hi]
    · apply List.map_congr_left
      intro j _
      have hij : i + 1 + j = i + (j + 1) := by omega
      simp only [Function.comp_apply, Nat.mod_add_mod, hij]

theorem padBytes_zero {pad : Bytes} (hL : 0 < pad.length) (k : Nat) :
    padBytes pad k 0 = cyclic pad k := by
  rw [padBytes_eq hL k hL]
  simp [cyclic]

section Pad

variable (what : String) (place : Bytes → Bytes → Bytes)

theorem padFunction_spec {str pad : Bytes} {n : Int} (hn : n ≤ maxLength)
    (hpad : pad ≠ [] ∨ n ≤ str.length) :
    (padFunction what place str n pad).1 = none ∧
      (padFunction what place str n pad).2.InBounds str pad ∧
      (padFunction what place str n pad).2.value str pad = padSpec place str n pad := by
  by_cases hneg : n < 0
  · have hres : padFunction what place str n pad = (none, .null) := by
      simp [padFunction, hneg]
    rw [hres]
    simp [padSpec, hneg, Result.InBounds, Result.value]
  by_cases hshort : n ≤ str.length
  · have hfit : toSigned 32 n = n := by
      unfold maxLength at hn
      exact toSigned_of_bounds (by omega) (by omega)
    have hres : padFunction what place str n pad = (none, .view .str 0 n) := by
      simp [padFunction, hneg, hshort, hfit]
    rw [hres]
    refine ⟨rfl, ⟨le_rfl, by omega, by simp [Arg.bytes]; omega⟩, ?_⟩
    simp [Result.value, Arg.bytes, padSpec, hneg, hshort]
  · have hne : pad ≠ [] := hpad.resolve_right hshort
    have hL : pad.length ≠ 0 := by simpa using hne
    have hres : padFunction what place str n pad =
        (none, .fresh (place (cyclic pad (n - str.length).toNat) str)) := by
      simp [padFunction, hneg, hshort, hL, not_lt.2 hn, padBytes_zero (Nat.pos_of_ne_zero hL)]
    rw [hres]
    refine ⟨rfl, trivial, ?_⟩
    simp only [Result.value, padSpec, hneg, hshort, hne, if_false]
    congr 3
    omega

theorem padFunction_too_long {str pad : Bytes} {n : Int} (hn : n > maxLength)
    (hs : (str.length : Int) ≤ maxLength) (hpad : pad ≠ []) :
    padFunction what place str n pad = (some (errorCharacterLimitExceeded what), .null) := by
  have hL : pad.length ≠ 0 := by simpa using hpad
  simp only [padFunction, hL, or_false, hn, if_true]
  rw [if_neg (by unfold maxLength at hn; omega), if_neg (by omega)]

end Pad

/-- `substr`, `lpad` and `rpad` meet their MySQL definitions wherever their arguments are in
the code's range. UTF-8 `substr` reads only bytes of `str`. Byte-mode `substr` of a string
within the 1 GB limit, at an `int` position and length, is a view inside `str` holding
`SUBSTR(str, pos, len)`. `lpad` and `rpad` to a length within the limit, given a pad or a
length within `str`, set no error and return `LPAD`/`RPAD`, reading only their arguments; past
the limit, given a pad, they fail with the character-limit error and return NULL. -/
theorem substring_pad_spec (str pad : Bytes) (pos len n : Int) :
    (substring true str pos len).InBounds str pad ∧
    ((str.length : Int) ≤ maxLength → FitsInt pos → FitsInt len →
      (substring false str pos len).InBounds str pad ∧
        (substring false str pos len).value str pad = some (substrSpec str pos len)) ∧
    (n ≤ maxLength → (pad ≠ [] ∨ n ≤ str.length) →
      ((lpad str n pad).1 = none ∧ (lpad str n pad).2.InBounds str pad ∧
        (lpad str n pad).2.value str pad = padSpec (fun padding s => padding ++ s) str n pad) ∧
      ((rpad str n pad).1 = none ∧ (rpad str n pad).2.InBounds str pad ∧
        (rpad str n pad).2.value str pad = padSpec (fun padding s => s ++ padding) str n pad)) ∧
    (n > maxLength → (str.length : Int) ≤ maxLength → pad ≠ [] →
      lpad str n pad =
          (some "lpad() result is larger than allowed limit of 1.00 GB character data.", .null) ∧
        rpad str n pad =
          (some "rpad() result is larger than allowed limit of 1.00 GB character data.", .null)) :=
  ⟨utf8Substring_inBounds str pad pos len, fun hs hpos hlen => substringBytes_spec pad hs hpos hlen,
    fun hn hpad => ⟨padFunction_spec _ _ hn hpad, padFunction_spec _ _ hn hpad⟩,
    fun hn hs hpad => ⟨padFunction_too_long _ _ hn hs hpad, padFunction_too_long _ _ hn hs hpad⟩⟩

theorem substring_pad_spec_abc :
    (substring false [97, 98, 99] (-2) 5).value [97, 98, 99] [] = some [98, 99] ∧
      (lpad [97] 4 [120, 121]).2.value [97] [120, 121] = some [120, 121, 120, 97] := by
  obtain ⟨-, hsub, -⟩ := substring_pad_spec [97, 98, 99] [] (-2) 5 0
  obtain ⟨-, -, hlpad, -⟩ := substring_pad_spec [97] [120, 121] 0 0 4
  refine ⟨?_, ?_⟩
  · rw [(hsub (by decide) (by unfold FitsInt; norm_num) (by unfold FitsInt; norm_num)).2]
    decide
  · rw [(hlpad (by decide) (.inl (by decide))).1.2.2]
    decide

end Impala.StringFunctions
