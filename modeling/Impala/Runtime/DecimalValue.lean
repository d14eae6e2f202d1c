import Impala.Util.StringParser

/-!
Printing a decimal (runtime/decimal-value.inline.h, `DecimalValue::ToString`), and
that the parser reads back what it prints.

`ToString` fills a buffer of `'0'`s from the end: the `scale` fractional digits, the
dot, then the whole digits until the value is used up, and erases the cells it did
not reach. What it leaves is `printed`: the sign, the whole part with one `0` when it
is zero, and exactly `scale` fractional digits (`toString_eq`). `StringToDecimal` of
that text, in the storage of the precision, succeeds with the value
(`stringToDecimal_printed`).
-/

set_option autoImplicit false

namespace Impala.DecimalValue

open DecimalDigits StringParser

def fillFraction : Nat → List Char → Nat → Int → List Char × Nat × Int
  | 0, str, idx, rem => (str, idx, rem)
  | n + 1, str, idx, rem =>
    fillFraction n (str.set (idx - 1) (digitChar (rem % 10).toNat)) (idx - 1) (rem / 10)

/-- The whole-part loop of `ToString`: a digit of `rem` before `idx`; once `rem` is used
up the cells before `first` are erased, and the loop also ends at `first`. -/
def fillWhole (first : Nat) : Nat → List Char → Int → List Char
  | 0, str, _ => str
  | idx + 1, str, rem =>
    let str := str.set idx (digitChar (rem % 10).toNat)
    if rem / 10 = 0 then (if idx > first then str.drop (idx - first) else str)
    else if idx > first then fillWhole first idx str (rem / 10) else str

def toString (precision scale : Nat) (value : Int) : List Char :=
  let lastCharIdx := precision + (if scale > 0 then 1 else 0) + (if scale = precision then 1 else 0) +
    (if value < 0 then 1 else 0)
  let str := List.replicate lastCharIdx '0'
  let remainingValue := if value < 0 then -value else value
  let firstDigitIdx := if value < 0 then 1 else 0
  let (str, idx, rem) :=
    if scale > 0 then
      let (str, idx, rem) := fillFraction scale str lastCharIdx remainingValue
      (str.set (idx - 1) '.', idx - 1, rem)
    else (str, lastCharIdx, remainingValue)
  let str := fillWhole firstDigitIdx idx str rem
  if value < 0 then str.set 0 '-' else str

/-- The text of the unscaled value `n` at `scale`, negative or not: the sign, the whole
part (a single `0` when it is zero) and, for a positive scale, the dot and exactly
`scale` digits. -/
def printed (negative : Bool) (scale n : Nat) : List Char :=
  (if negative then ['-'] else []) ++ wholeDigits (n / 10 ^ scale) ++
    (if 0 < scale then '.' :: padDigits scale n else [])

/-! ### What `ToString` writes -/

theorem set_replicate_append {α : Type} {k : Nat} (a c : α) (w : List α) :
    (List.replicate (k + 1) a ++ w).set k c = List.replicate k a ++ c :: w := by
  rw [List.replicate_succ', List.append_assoc, List.singleton_append,
    List.set_append_right _ _ (by simp)]
  simp

theorem fillFraction_eq (w : List Char) :
    ∀ (j m n : Nat), fillFraction j (List.replicate (m + j) '0' ++ w) (m + j) n =
      (List.replicate m '0' ++ padDigits j n ++ w, m, ((n / 10 ^ j : Nat) : Int))
  | 0, m, n => by simp [fillFraction, padDigits]
  | j + 1, m, n => by
    rw [fillFraction, show m + (j + 1) - 1 = m + j by omega, ← Nat.add_assoc,
      set_replicate_append]
    have hmod : ((n : Int) % 10).toNat = n % 10 := by omega
    have hdiv : (n : Int) / 10 = ((n / 10 : Nat) : Int) := by omega
    rw [hmod, hdiv, fillFraction_eq (digitChar (n % 10) :: w) j m (n / 10), padDigits_succ',
      Nat.div_div_eq_div_mul, ← pow_succ']
    simp

theorem fillWhole_eq (first : Nat) :
    ∀ (k : Nat) (w : List Char) (n : Nat), 1 ≤ k → (wholeDigits n).length ≤ k →
      fillWhole first (first + k) (List.replicate (first + k) '0' ++ w) n =
        List.replicate first '0' ++ wholeDigits n ++ w
  | 0, _, _, hk, _ => absurd hk (by omega)
  | j + 1, w, n, _, hlen => by
    rw [← Nat.add_assoc, fillWhole, set_replicate_append]
    have hmod : ((n : Int) % 10).toNat = n % 10 := by omega
    have hdiv : (n : Int) / 10 = ((n / 10 : Nat) : Int) := by omega
    simp only [hmod, hdiv, Nat.cast_eq_zero]
    rcases Nat.lt_or_ge n 10 with hn | hn
    · rw [if_pos (by omega), wholeDigits_of_lt hn, Nat.mod_eq_of_lt hn]
      split_ifs with hj
      · rw [List.drop_append_of_le_length (by simp), List.drop_replicate]
        simp
      · simp [show j = 0 by omega]
    · rw [wholeDigits_of_ge hn] at hlen ⊢
      have hlen' : (wholeDigits (n / 10)).length ≤ j := by simp at hlen; omega
      have hpos := List.length_pos_of_ne_nil (wholeDigits_ne_nil (n / 10))
      rw [if_neg (by omega), if_pos (by omega),
        fillWhole_eq first j (digitChar (n % 10) :: w) (n / 10) (by omega) hlen']
      simp

theorem toString_eq {precision scale : Nat} {value : Int} (hs : scale ≤ precision)
    (hv : value.natAbs < 10 ^ precision) :
    toString precision scale value = printed (decide (value < 0)) scale value.natAbs := by
  have hrem : (if value < 0 then -value else value) = (value.natAbs : Int) := by omega
  obtain ⟨k, hk⟩ : ∃ k, k = precision - scale + if scale = precision then 1 else 0 := ⟨_, rfl⟩
  have hk1 : 1 ≤ k := by split_ifs at hk <;> omega
  have hlen : (wholeDigits (value.natAbs / 10 ^ scale)).length ≤ k := by
    rw [length_wholeDigits_le hk1, Nat.div_lt_iff_lt_mul (by positivity), ← pow_add]
    calc value.natAbs < 10 ^ precision := hv
      _ ≤ 10 ^ (k + scale) := Nat.pow_le_pow_right (by norm_num) (by split_ifs at hk <;> omega)
  obtain ⟨first, hfirst⟩ : ∃ f, f = if value < 0 then 1 else 0 := ⟨_, rfl⟩
  have hL : ((precision + if scale > 0 then 1 else 0) + if scale = precision then 1 else 0) +
      first = first + k + (if scale > 0 then 1 else 0) + scale := by
    split_ifs at hk ⊢ <;> omega
  simp only [toString, printed, hrem, ← hfirst, hL]
  rcases Nat.eq_zero_or_pos scale with rfl | hs0
  · simp only [gt_iff_lt, lt_self_iff_false, if_false, add_zero, pow_zero, Nat.div_one] at hlen ⊢
    rw [← List.append_nil (List.replicate (first + k) '0'), fillWhole_eq first k [] _ hk1 hlen]
    by_cases hneg : value < 0 <;> simp [hneg] at hfirst ⊢ <;> subst hfirst <;> simp
  · simp only [gt_iff_lt, if_pos hs0]
    have hfr := fillFraction_eq [] scale (first + k + 1) value.natAbs
    rw [List.append_nil] at hfr
    rw [hfr, List.append_nil, Nat.add_sub_cancel, set_replicate_append,
      fillWhole_eq first k _ _ hk1 hlen]
    by_cases hneg : value < 0 <;> simp [hneg] at hfirst ⊢ <;> subst hfirst <;> simp

/-! ### Reading it back -/

theorem isWhitespace_printed (negative : Bool) (scale n : Nat) :
    ∀ c ∈ printed negative scale n, isWhitespace c = false := by
  intro c hc
  simp only [printed, List.mem_append] at hc
  rcases hc with (hc | hc) | hc
  · split_ifs at hc <;> simp_all [isWhitespace]
  · exact isWhitespace_of_isDigitChar (isDigitChar_of_mem_wholeDigits hc)
  · split_ifs at hc
    · rcases List.mem_cons.1 hc with rfl | hc
      · rfl
      · exact isWhitespace_of_isDigitChar (isDigitChar_of_mem_padDigits hc)
    · simp at hc

theorem splitSign_printed (negative : Bool) (scale n : Nat) :
    splitSign (printed negative scale n) = (negative, wholeDigits (n / 10 ^ scale) ++
      (if 0 < scale then '.' :: padDigits scale n else [])) := by
  obtain ⟨c, l, hcl⟩ := List.exists_cons_of_ne_nil (wholeDigits_ne_nil (n / 10 ^ scale))
  have hcd : isDigitChar c = true := isDigitChar_of_mem_wholeDigits (hcl ▸ List.mem_cons_self)
  cases negative
  · simp only [printed, hcl]
    exact splitSign_of_isDigitChar hcd _
  · rfl

variable (T : Storage) (p : Nat) (round : Bool)

/-- A digit scan that ended without an exponent, within the precision `p`, having read
`s` digits after the dot and the value `n`. -/
def ReadBack (s n : Nat) (r : Except ParseResult (Scan × Int)) : Prop :=
  ∃ st : Scan, r = .ok (st, 0) ∧ st.totalDigitsCount ≤ p ∧ st.digitsAfterDotCount = s ∧
    st.foundValue = true ∧ st.value = n

theorem scanLoop_fraction (s n : Nat) (st : Scan) (hdot : st.foundDot = false)
    (hc : st.totalDigitsCount + s ≤ p) (hv : 0 ≤ st.value)
    (hb : st.value * 10 ^ s + (n % 10 ^ s : Nat) < 2 ^ (T.bits - 1)) :
    scanLoop T p round st (if 0 < s then '.' :: padDigits s n else []) =
      .ok ({ st with value := st.value * 10 ^ s + (n % 10 ^ s : Nat),
                     totalDigitsCount := st.totalDigitsCount + s,
                     digitsAfterDotCount := st.digitsAfterDotCount + s,
                     foundDot := decide (0 < s), foundValue := st.foundValue || decide (0 < s) },
        0) := by
  rcases Nat.eq_zero_or_pos s with rfl | hs
  · cases st
    simp_all [scanLoop]
  · rw [if_pos hs, scanLoop_dot hdot, ← List.append_nil (padDigits s n),
      scanLoop_digits T p round _ [] { st with foundDot := true }
        (fun _ => isDigitChar_of_mem_padDigits) (by simpa using hc) hv
        (by simpa [digitsValue_padDigits] using hb)]
    have hne : padDigits s n ≠ [] := List.ne_nil_of_length_pos (by simpa using hs)
    simp [scanLoop, digitsValue_padDigits, hs, hne]

section
variable {s n : Nat} (hs : s ≤ p) (hbn : (n : Int) < 2 ^ (T.bits - 1))
include hs hbn

theorem readBack_whole (hn : n < 10 ^ p) (hW0 : 0 < n / 10 ^ s) :
    ReadBack p s n (scanLoop T p round ⟨0, 0, false, false, 0, 0⟩
      (wholeDigits (n / 10 ^ s) ++ (if 0 < s then '.' :: padDigits s n else []))) := by
  have hW : n / 10 ^ s < 10 ^ (p - s) := by
    rw [Nat.div_lt_iff_lt_mul (by positivity), ← pow_add, Nat.sub_add_cancel hs]
    exact hn
  have hps : 1 ≤ p - s := by
    rcases Nat.eq_zero_or_pos (p - s) with h | h
    · rw [h, pow_zero] at hW; omega
    · exact h
  have hlen := (length_wholeDigits_le hps).2 hW
  have hWn : ((n / 10 ^ s : Nat) : Int) ≤ n := by exact_mod_cast Nat.div_le_self n _
  have hsplitn : ((n / 10 ^ s : Nat) : Int) * 10 ^ s + ((n % 10 ^ s : Nat) : Int) = n := by
    exact_mod_cast Nat.div_add_mod' n (10 ^ s)
  rw [scanLoop_digits T p round _ _ _ (fun _ => isDigitChar_of_mem_wholeDigits) (by simp; omega)
    le_rfl (by simp only [digitsValue_wholeDigits, zero_mul, zero_add]; omega),
    scanLoop_fraction T p round s n]
  · refine ⟨_, rfl, ?_, ?_, ?_, ?_⟩
    · simp; omega
    · simp
    · simp [wholeDigits_ne_nil]
    · simp only [digitsValue_wholeDigits, zero_mul, zero_add]
      exact hsplitn
  · rfl
  · simp; omega
  · simp
  · simp only [digitsValue_wholeDigits, zero_mul, zero_add, hsplitn]
    exact hbn

theorem readBack_fraction (hW0 : n / 10 ^ s = 0) :
    ReadBack p s n (scanLoop T p round
      ⟨0, ((padDigits s n).takeWhile (· == '0')).length, true,
        true || decide (((padDigits s n).takeWhile (· == '0')).length > 0), 0, 0⟩
      ((padDigits s n).dropWhile (· == '0'))) := by
  have hns : n < 10 ^ s := (Nat.div_eq_zero_iff_lt (by positivity)).1 hW0
  obtain ⟨r, hr⟩ : ∃ r, r = (padDigits s n).dropWhile (· == '0') := ⟨_, rfl⟩
  have hlen : ((padDigits s n).takeWhile (· == '0')).length + r.length = s := by
    rw [hr, ← List.length_append, List.takeWhile_append_dropWhile, length_padDigits]
  have hval : digitsValue r = n := by
    rw [hr, digitsValue_dropWhile_zero, digitsValue_padDigits, Nat.mod_eq_of_lt hns]
  have hdig : ∀ c ∈ r, isDigitChar c = true := fun c hc =>
    isDigitChar_of_mem_padDigits ((List.dropWhile_suffix _).subset (hr ▸ hc))
  rw [← hr, ← List.append_nil r, scanLoop_digits T p round r [] _ hdig (by simp; omega) le_rfl
    (by simp only [hval, zero_mul, zero_add]; exact hbn)]
  refine ⟨_, rfl, ?_, ?_, ?_, ?_⟩
  · simp; omega
  · simp; omega
  · simp
  · simp [hval]

end

theorem stringToDecimal_printed (negative : Bool) {s n : Nat} (hs : s ≤ p) (hn : n < 10 ^ p)
    (hb : (10 : Int) ^ p ≤ 2 ^ (T.bits - 1)) :
    stringToDecimal T (printed negative s n) p s round =
      (.success, if negative then T.wrap (-n) else n) := by
  have hbn : (n : Int) < 2 ^ (T.bits - 1) := lt_of_lt_of_le (by exact_mod_cast hn) hb
  simp only [stringToDecimal, trim_eq_self (isWhitespace_printed negative s n),
    splitSign_printed]
  generalize hX : scanLoop T p round _ _ = X
  obtain ⟨st, rfl, ht, hd, hf, hv⟩ : ReadBack p s n X := by
    subst hX
    rcases Nat.eq_zero_or_pos (n / 10 ^ s) with hW0 | hW0
    · rw [hW0, wholeDigits_of_lt (by norm_num), show digitChar 0 = '0' from rfl]
      rcases Nat.eq_zero_or_pos s with rfl | hs0
      · have : n = 0 := by simpa using hW0
        simp [scanLoop, ReadBack, this]
      · simp only [if_pos hs0, List.singleton_append, List.head?_cons,
          List.dropWhile_cons_of_pos (p := (· == '0')) (a := '0') rfl,
          List.dropWhile_cons_of_neg (p := (· == '0')) (a := '.') (by decide)]
        exact readBack_fraction T p round hs hbn hW0
    · obtain ⟨c, l, hcl, hc0⟩ := head_wholeDigits_ne hW0
      have hcd : isDigitChar c = true := isDigitChar_of_mem_wholeDigits (hcl ▸ List.mem_cons_self)
      have hcdot : c ≠ '.' := by rintro rfl; simp [isDigitChar] at hcd
      have hc0' : (c == '0') = false := by simpa using hc0
      have hscan := readBack_whole T p round hs hbn hn hW0
      rw [hcl] at hscan ⊢
      simp only [List.cons_append, List.head?_cons, List.dropWhile_cons_of_neg (p := (· == '0'))
        (by simpa using hc0), List.cons.injEq, hcdot, false_and, imp_false, not_false_eq_true,
        implies_true]
      simpa [hc0'] using hscan
  have hprec : ¬ ((if (st.totalDigitsCount : Int) < s then (s : Int) else st.totalDigitsCount) -
      s > (p : Int) - s) := by
    split_ifs <;> omega
  simp only [applyExponent_zero, hd, hf, hv]
  rw [if_neg hprec]
  simp

/-- A decimal of precision at most 38 in the storage `GetDecimalByteSize` chooses is
printed as `printed` and read back as itself, rounding or not. -/
theorem stringToDecimal_toString (round : Bool) {precision scale : Nat} {value : Int}
    (hp : precision ≤ 38) (hs : scale ≤ precision) (hv : |value| < 10 ^ precision) :
    stringToDecimal (Storage.ofByteSize (AggregateFunctions.getDecimalByteSize precision))
        (toString precision scale value) precision scale round = (.success, value) ∧
      toString precision scale value = printed (decide (value < 0)) scale value.natAbs := by
  have hn : value.natAbs < 10 ^ precision := by
    have : ((value.natAbs : Nat) : Int) < ((10 ^ precision : Nat) : Int) := by
      rw [Int.natCast_natAbs]; exact_mod_cast hv
    exact_mod_cast this
  have hb := Storage.pow_ten_le_ofByteSize hp
  refine ⟨?_, toString_eq hs hn⟩
  rw [toString_eq hs hn, stringToDecimal_printed _ _ _ _ hs hn hb]
  by_cases hneg : value < 0
  · have hlo : -2 ^ ((Storage.ofByteSize
        (AggregateFunctions.getDecimalByteSize precision)).bits - 1) ≤ -(value.natAbs : Int) := by
      have : (value.natAbs : Int) < 10 ^ precision := by exact_mod_cast hn
      omega
    simp only [hneg, decide_true, if_true]
    rw [Storage.wrap_of_bounds _ hlo (by omega)]
    congr 1
    omega
  · simp only [hneg, decide_false]
    congr 1
    simp only [Bool.false_eq_true, if_false]
    omega

theorem stringToDecimal_toString_neg_half :
    (2 ≤ 38 ∧ 1 ≤ 2 ∧ |(-5 : Int)| < 10 ^ 2) ∧
      stringToDecimal (Storage.ofByteSize (AggregateFunctions.getDecimalByteSize 2))
          (toString 2 1 (-5)) 2 1 true = (.success, -5) ∧
        toString 2 1 (-5) = printed true 1 5 :=
  ⟨⟨by norm_num, by norm_num, by norm_num⟩,
    stringToDecimal_toString true (by norm_num) (by norm_num) (by norm_num)⟩

end Impala.DecimalValue
