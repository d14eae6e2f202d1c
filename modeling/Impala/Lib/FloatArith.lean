import Mathlib.Data.Int.Log
import Mathlib.Data.Rat.Floor
import Mathlib.Tactic.Ring

/-!
IEEE 754 binary floating-point arithmetic on values. A value is a NaN, a signed
infinity, or a signed finite magnitude (so the two zeros differ). Every operation
on finite values computes the exact result and rounds it to the format, to nearest
with ties to even, and to infinity past the largest finite value; the operations on
infinities and zeros follow the standard's table. A value the format represents
exactly rounds to itself.
-/

set_option autoImplicit false

namespace Impala.FloatArith

/-- A binary format: `prec` significand bits, the hidden one included, and the
exponent range of its normal numbers. -/
structure Format where
  prec : Nat
  emin : Int
  emax : Int

def binary32 : Format := ⟨24, -126, 127⟩

def binary64 : Format := ⟨53, -1022, 1023⟩

/-- The value of a floating-point number. -/
inductive Fp
  | nan
  | inf (neg : Bool)
  | finite (neg : Bool) (mag : ℚ)
  deriving DecidableEq, Repr

def roundHalfEven (x : ℚ) : Int :=
  if x - ⌊x⌋ < 1 / 2 then ⌊x⌋
  else if 1 / 2 < x - ⌊x⌋ then ⌊x⌋ + 1
  else if ⌊x⌋ % 2 = 0 then ⌊x⌋ else ⌊x⌋ + 1

def round (fmt : Format) (neg : Bool) (a : ℚ) : Fp :=
  if a = 0 then .finite neg 0
  else
    let ulp : ℚ := 2 ^ (max (Int.log 2 a) fmt.emin - fmt.prec + 1)
    let v : ℚ := roundHalfEven (a / ulp) * ulp
    if 2 ^ (fmt.emax + 1) ≤ v then .inf neg else .finite neg v

@[simp]
theorem round_zero (fmt : Format) (neg : Bool) : round fmt neg 0 = .finite neg 0 := by
  simp [round]

def ofRat (fmt : Format) (q : ℚ) : Fp := round fmt (decide (q < 0)) |q|

namespace Fp

def toRat (neg : Bool) (mag : ℚ) : ℚ := if neg then -mag else mag

def neg : Fp → Fp
  | nan => nan
  | inf s => inf (!s)
  | finite s m => finite (!s) m

def add (fmt : Format) : Fp → Fp → Fp
  | nan, _ => nan
  | _, nan => nan
  | inf s, inf t => if s = t then inf s else nan
  | inf s, finite _ _ => inf s
  | finite _ _, inf t => inf t
  | finite s a, finite t b =>
    if a = 0 ∧ b = 0 then finite (s && t) 0 else ofRat fmt (toRat s a + toRat t b)

def sub (fmt : Format) (x y : Fp) : Fp := add fmt x y.neg

def div (fmt : Format) : Fp → Fp → Fp
  | nan, _ => nan
  | _, nan => nan
  | inf _, inf _ => nan
  | inf s, finite t _ => inf (s != t)
  | finite s _, inf t => finite (s != t) 0
  | finite s a, finite t b =>
    if b = 0 then (if a = 0 then nan else inf (s != t)) else round fmt (s != t) (a / b)

def lt : Fp → Fp → Bool
  | nan, _ => false
  | _, nan => false
  | inf s, inf t => s && !t
  | inf s, finite _ _ => s
  | finite _ _, inf t => !t
  | finite s a, finite t b => decide (toRat s a < toRat t b)

def eq : Fp → Fp → Bool
  | nan, _ => false
  | _, nan => false
  | inf s, inf t => s == t
  | inf _, finite _ _ => false
  | finite _ _, inf _ => false
  | finite s a, finite t b => decide (toRat s a = toRat t b)

def le (x y : Fp) : Bool := lt x y || eq x y

def max (x y : Fp) : Fp := if lt x y then y else x

def min (x y : Fp) : Fp := if lt y x then y else x

def cast (fmt : Format) : Fp → Fp
  | nan => nan
  | inf s => inf s
  | finite s m => round fmt s m

end Fp

/-! ### Exact values -/

/-- `a` is a value of the format: a significand of `prec` bits times a power of two
the format reaches, below the overflow threshold. -/
def Representable (fmt : Format) (a : ℚ) : Prop :=
  ∃ (m : Nat) (e : Int), a = m * 2 ^ e ∧ m < 2 ^ fmt.prec ∧ fmt.emin - fmt.prec + 1 ≤ e ∧
    a < 2 ^ (fmt.emax + 1)

theorem roundHalfEven_intCast (n : Int) : roundHalfEven n = n := by
  simp [roundHalfEven]

theorem round_of_representable (fmt : Format) (neg : Bool) {a : ℚ}
    (ha : Representable fmt a) : round fmt neg a = .finite neg a := by
  obtain ⟨m, e, rfl, hm, he, hmax⟩ := ha
  unfold round
  by_cases h0 : (m : ℚ) * 2 ^ e = 0
  · rw [if_pos h0, h0]
  rw [if_neg h0]
  have hm0 : 0 < (m : ℚ) := by
    rcases Nat.eq_zero_or_pos m with h | h
    · simp [h] at h0
    · exact_mod_cast h
  have ha0 : 0 < (m : ℚ) * 2 ^ e := mul_pos hm0 (zpow_pos (by norm_num) e)
  have hlog : Int.log 2 ((m : ℚ) * 2 ^ e) < e + fmt.prec := by
    have hlt : (m : ℚ) * 2 ^ e < 2 ^ (e + fmt.prec) := by
      rw [zpow_add₀ (by norm_num), mul_comm, zpow_natCast]
      exact mul_lt_mul_of_pos_left (by exact_mod_cast hm) (zpow_pos (by norm_num) e)
    exact (Int.lt_zpow_iff_log_lt (by norm_num) ha0).1 (by exact_mod_cast hlt)
  set k := e - (max (Int.log 2 ((m : ℚ) * 2 ^ e)) fmt.emin - fmt.prec + 1) with hk
  have hk0 : 0 ≤ k := by omega
  have hdiv : (m : ℚ) * 2 ^ e / 2 ^ (max (Int.log 2 ((m : ℚ) * 2 ^ e)) fmt.emin - fmt.prec + 1) =
      ((m * 2 ^ k.toNat : Int) : ℚ) := by
    rw [mul_div_assoc, ← zpow_sub₀ (by norm_num), ← hk]
    push_cast
    rw [← zpow_natCast, Int.toNat_of_nonneg hk0]
  dsimp only
  rw [hdiv, roundHalfEven_intCast, ← hdiv, div_mul_cancel₀ _ (zpow_pos (by norm_num) _).ne',
    if_neg (not_le.2 hmax)]

theorem round_natCast (fmt : Format) (neg : Bool) {n : Nat} (hn : n < 2 ^ fmt.prec)
    (he : fmt.emin - fmt.prec + 1 ≤ 0) (hmax : (n : ℚ) < 2 ^ (fmt.emax + 1)) :
    round fmt neg n = .finite neg n :=
  round_of_representable fmt neg ⟨n, 0, by simp, hn, he, hmax⟩

theorem representable_one_sub {fmt : Format} {a : ℚ} (ha : Representable fmt a)
    (h1 : 1 / 2 ≤ a) (h2 : a < 1) : Representable fmt (1 - a) := by
  obtain ⟨m, e, rfl, hm, he, hmax⟩ := ha
  have hm0 : 0 < m := by
    rcases Nat.eq_zero_or_pos m with h | h
    · subst h; norm_num at h1
    · exact h
  have he0 : e < 0 := by
    by_contra h
    have h1e : (1 : ℚ) ≤ 2 ^ e := one_le_zpow₀ (by norm_num) (not_lt.1 h)
    have : (1 : ℚ) ≤ m * 2 ^ e := by
      calc (1 : ℚ) = 1 * 1 := by ring
        _ ≤ m * 2 ^ e := mul_le_mul (by exact_mod_cast hm0) h1e zero_le_one (by positivity)
    linarith
  obtain ⟨n, hn⟩ : ∃ n : Nat, e = -(n : Int) := ⟨(-e).toNat, by omega⟩
  subst hn
  have h2e : (2 : ℚ) ^ (-(n : Int)) = 1 / 2 ^ n := by
    rw [zpow_neg, zpow_natCast, one_div]
  rw [h2e] at h1 h2 hmax
  have hpos : (0 : ℚ) < 2 ^ n := by positivity
  have hmn : m < 2 ^ n := by
    have : (m : ℚ) < 2 ^ n := by
      rw [mul_one_div, div_lt_one hpos] at h2
      exact h2
    exact_mod_cast this
  have hmn2 : 2 ^ n ≤ 2 * m := by
    have : (2 : ℚ) ^ n ≤ 2 * m := by
      rw [mul_one_div, le_div_iff₀ hpos] at h1
      linarith
    exact_mod_cast this
  refine ⟨2 ^ n - m, -(n : Int), ?_, by omega, he, ?_⟩
  · rw [h2e, Nat.cast_sub hmn.le]
    push_cast
    field_simp
  · rw [h2e]
    calc 1 - (m : ℚ) * (1 / 2 ^ n) ≤ m * (1 / 2 ^ n) := by linarith
      _ < 2 ^ (fmt.emax + 1) := hmax

end Impala.FloatArith
