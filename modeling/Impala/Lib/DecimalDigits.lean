import Mathlib.Algebra.Order.Group.Nat
import Mathlib.Data.List.Basic
import Mathlib.Tactic.Ring
import Mathlib.Tactic.IntervalCases

/-!
Decimal digit strings: the digits of a natural number, most significant first, as a
printer writes them from the least significant end, and the value a reader
accumulates from them by `v * 10 + d`.
-/

set_option autoImplicit false

namespace Impala.DecimalDigits

def digitChar (d : Nat) : Char := Char.ofNat ('0'.toNat + d)

def charDigit (c : Char) : Nat := c.toNat - '0'.toNat

def isDigitChar (c : Char) : Bool := decide ('0' ≤ c ∧ c ≤ '9')

def wholeDigits (n : Nat) : List Char :=
  if n < 10 then [digitChar n] else wholeDigits (n / 10) ++ [digitChar (n % 10)]
termination_by n
decreasing_by omega

def padDigits : Nat → Nat → List Char
  | 0, _ => []
  | k + 1, n => digitChar (n / 10 ^ k % 10) :: padDigits k n

def digitsValue (l : List Char) : Nat := l.foldl (fun v c => v * 10 + charDigit c) 0

variable {d n k : Nat}

theorem charDigit_digitChar (h : d < 10) : charDigit (digitChar d) = d := by
  have : d ≤ 9 := by omega
  interval_cases d <;> rfl

theorem isDigitChar_digitChar (h : d < 10) : isDigitChar (digitChar d) = true := by
  have : d ≤ 9 := by omega
  interval_cases d <;> rfl

theorem digitChar_ne_zero_char (h : d < 10) (h0 : d ≠ 0) : digitChar d ≠ '0' := by
  have : d ≤ 9 := by omega
  interval_cases d <;> simp_all [digitChar]

theorem foldl_digits (l : List Char) (a : Nat) :
    l.foldl (fun v c => v * 10 + charDigit c) a = a * 10 ^ l.length + digitsValue l := by
  induction l generalizing a with
  | nil => simp [digitsValue]
  | cons c l ih =>
    simp only [List.foldl_cons, digitsValue, List.length_cons]
    rw [ih, ih (0 * 10 + charDigit c)]
    ring

@[simp]
theorem digitsValue_nil : digitsValue [] = 0 := rfl

theorem digitsValue_append (l m : List Char) :
    digitsValue (l ++ m) = digitsValue l * 10 ^ m.length + digitsValue m := by
  simp only [digitsValue, List.foldl_append]
  exact foldl_digits m _

theorem digitsValue_cons (c : Char) (l : List Char) :
    digitsValue (c :: l) = charDigit c * 10 ^ l.length + digitsValue l := by
  rw [← List.singleton_append, digitsValue_append]
  simp [digitsValue]

/-! ### The digits of a number -/

theorem wholeDigits_of_lt (h : n < 10) : wholeDigits n = [digitChar n] := by
  rw [wholeDigits, if_pos h]

theorem wholeDigits_of_ge (h : 10 ≤ n) :
    wholeDigits n = wholeDigits (n / 10) ++ [digitChar (n % 10)] := by
  rw [wholeDigits, if_neg (by omega)]

theorem wholeDigits_ne_nil (n : Nat) : wholeDigits n ≠ [] := by
  rcases Nat.lt_or_ge n 10 with h | h
  · simp [wholeDigits_of_lt h]
  · simp [wholeDigits_of_ge h]

theorem digitsValue_wholeDigits (n : Nat) : digitsValue (wholeDigits n) = n := by
  induction n using Nat.strong_induction_on with
  | _ n ih =>
    rcases Nat.lt_or_ge n 10 with h | h
    · simp [wholeDigits_of_lt h, digitsValue, charDigit_digitChar h]
    · rw [wholeDigits_of_ge h, digitsValue_append, ih (n / 10) (by omega)]
      simp [digitsValue, charDigit_digitChar (Nat.mod_lt n (by norm_num))]
      omega

theorem isDigitChar_of_mem_wholeDigits {c : Char} (h : c ∈ wholeDigits n) : isDigitChar c = true := by
  induction n using Nat.strong_induction_on generalizing c with
  | _ n ih =>
    rcases Nat.lt_or_ge n 10 with hn | hn
    · rw [wholeDigits_of_lt hn, List.mem_singleton] at h
      exact h ▸ isDigitChar_digitChar hn
    · rw [wholeDigits_of_ge hn, List.mem_append, List.mem_singleton] at h
      rcases h with h | h
      · exact ih (n / 10) (by omega) h
      · exact h ▸ isDigitChar_digitChar (Nat.mod_lt n (by norm_num))

theorem length_wholeDigits_le (hk : 1 ≤ k) : (wholeDigits n).length ≤ k ↔ n < 10 ^ k := by
  induction n using Nat.strong_induction_on generalizing k with
  | _ n ih =>
    rcases Nat.lt_or_ge n 10 with hn | hn
    · simp only [wholeDigits_of_lt hn, List.length_singleton, hk, true_iff]
      calc n < 10 := hn
        _ = 10 ^ 1 := by norm_num
        _ ≤ 10 ^ k := Nat.pow_le_pow_right (by norm_num) hk
    · rw [wholeDigits_of_ge hn, List.length_append, List.length_singleton]
      obtain ⟨k, rfl⟩ : ∃ j, k = j + 1 := ⟨k - 1, by omega⟩
      rcases Nat.eq_zero_or_pos k with rfl | hk'
      · simp only [zero_add, pow_one]
        have := wholeDigits_ne_nil (n / 10)
        constructor
        · intro h; have := List.length_pos_of_ne_nil this; omega
        · intro h; omega
      · rw [Nat.add_le_add_iff_right, ih (n / 10) (by omega) hk', pow_succ]
        omega

theorem head_wholeDigits_ne (h : 0 < n) : ∃ c l, wholeDigits n = c :: l ∧ c ≠ '0' := by
  induction n using Nat.strong_induction_on with
  | _ n ih =>
    rcases Nat.lt_or_ge n 10 with hn | hn
    · exact ⟨_, _, wholeDigits_of_lt hn, digitChar_ne_zero_char hn (by omega)⟩
    · obtain ⟨c, l, hcl, hc⟩ := ih (n / 10) (by omega) (by omega)
      exact ⟨c, l ++ [digitChar (n % 10)], by rw [wholeDigits_of_ge hn, hcl]; rfl, hc⟩

/-! ### Padded digits -/

@[simp]
theorem length_padDigits (k n : Nat) : (padDigits k n).length = k := by
  induction k with
  | zero => rfl
  | succ k ih => simp [padDigits, ih]

theorem padDigits_succ' (k n : Nat) :
    padDigits (k + 1) n = padDigits k (n / 10) ++ [digitChar (n % 10)] := by
  induction k generalizing n with
  | zero => simp [padDigits]
  | succ k ih =>
    rw [padDigits, ih, padDigits, Nat.div_div_eq_div_mul, ← pow_succ']
    rfl

theorem isDigitChar_of_mem_padDigits {c : Char} (h : c ∈ padDigits k n) : isDigitChar c = true := by
  induction k with
  | zero => simp [padDigits] at h
  | succ k ih =>
    rcases List.mem_cons.1 h with h | h
    · exact h ▸ isDigitChar_digitChar (Nat.mod_lt _ (by norm_num))
    · exact ih h

theorem digitsValue_padDigits (k n : Nat) : digitsValue (padDigits k n) = n % 10 ^ k := by
  induction k with
  | zero => simp [padDigits, Nat.mod_one]
  | succ k ih =>
    rw [padDigits, digitsValue_cons, ih, length_padDigits,
      charDigit_digitChar (Nat.mod_lt _ (by norm_num))]
    rw [pow_succ, Nat.mod_mul]
    ring

theorem digitsValue_dropWhile_zero (l : List Char) :
    digitsValue (l.dropWhile (· == '0')) = digitsValue l := by
  induction l with
  | nil => rfl
  | cons c l ih =>
    by_cases hc : c = '0'
    · subst hc
      simp [ih, digitsValue_cons, charDigit]
    · simp [hc]

end Impala.DecimalDigits
