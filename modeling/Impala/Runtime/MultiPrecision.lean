import Impala.Exprs.DecimalAggregates
import Mathlib.Data.Nat.Digits.Lemmas

/-!
The 256-bit integers of runtime/multi-precision.h, and `ConvertToInt128`: an `int256_t`
brought down to 128 bits through its digits in base `INT64_MAX`, least significant first,
with an overflow flag against a maximum. The products, the partial sums and the scale are
`AsUnsigned` and wrap at 128 bits.

The scale is exact for three digits, and so is the conversion of a value below
`INT64_MAX^3` (`convertToInt128_of_lt`). At the fourth digit the scale has wrapped to a
value below the maximum, and values just past `INT64_MAX^3` come back small, with no
overflow (`convertToInt128_base_cube_add`).
-/

set_option autoImplicit false

namespace Impala.MultiPrecision

open MachineInt AggregateFunctions

/-- `int256_t` arithmetic: a signed magnitude, unchecked, so a result keeps its sign and
the low 256 bits of its magnitude. -/
def int256 (v : Int) : Int :=
  let m : Int := (v.natAbs % 2 ^ 256 : Nat)
  if v < 0 then -m else m

theorem int256_of_abs_lt {v : Int} (h : |v| < 2 ^ 256) : int256 v = v := by
  have hm : v.natAbs % 2 ^ 256 = v.natAbs :=
    Nat.mod_eq_of_lt (by have := Int.natCast_natAbs v ▸ h; exact_mod_cast this)
  simp only [int256, hm, Int.natCast_natAbs]
  split_ifs with hv
  · rw [abs_of_neg hv, neg_neg]
  · exact abs_of_nonneg (not_lt.1 hv)

def base : Nat := 2 ^ 63 - 1

/-- The variables of the loop of `ConvertToInt128`. -/
structure Conversion where
  result : Int
  scale : Int
  overflow : Bool

def convertStep (maxValue : Int) (c : Conversion) (v : Nat) : Conversion :=
  let overflow := c.overflow || decide ((v : Int) > maxValue.tdiv c.scale)
  let n := int128 (v * c.scale)
  let overflow := overflow || decide (c.result > int128 (maxValue - n))
  ⟨int128 (c.result + n), int128 (c.scale * base), overflow⟩

/-- `ConvertToInt128(x, max_value, overflow)`: the loop `while (x != 0)` takes the digits
of `|x|` in base `INT64_MAX`, and the result is negated back at the end. -/
def convertToInt128 (x maxValue : Int) (overflow : Bool) : Int × Bool :=
  let c := (Nat.digits base x.natAbs).foldl (convertStep maxValue) ⟨0, 1, overflow⟩
  (if x < 0 then int128 (-c.result) else c.result, c.overflow)

theorem one_lt_base : 1 < base := by decide

theorem base_pow_pos (k : Nat) : (0 : Int) < (base : Int) ^ k :=
  pow_pos (by exact_mod_cast Nat.zero_lt_of_lt one_lt_base) k

theorem base_pow_lt {k : Nat} (hk : k ≤ 2) : (base : Int) ^ k < 2 ^ 127 := by
  interval_cases k <;> norm_num [base]

/-- What the loop holds after the `k` digits of value `acc`: the scale is `INT64_MAX^k`
in 128 bits, the flag is set exactly when `acc` is past the maximum (or was set on entry),
and up to the maximum the result is `acc`. -/
structure Converted (maxValue : Int) (overflow : Bool) (k : Nat) (acc : Int) (c : Conversion) :
    Prop where
  scale_eq : c.scale = int128 (base ^ k)
  overflow_eq : c.overflow = (overflow || decide (maxValue < acc))
  result_eq : acc ≤ maxValue → c.result = acc

section Loop

variable {maxValue : Int} (hmax0 : 0 ≤ maxValue) (hmax : maxValue < 2 ^ 127)
include hmax0 hmax

omit hmax in
theorem converted_init (overflow : Bool) : Converted maxValue overflow 0 0 ⟨0, 1, overflow⟩ :=
  ⟨by rw [pow_zero]; exact (int128_of_abs_lt (by norm_num)).symm, by simp [not_lt.2 hmax0],
    fun _ => rfl⟩

theorem convertStep_converted {overflow : Bool} {k : Nat} {acc : Int} {c : Conversion}
    (v : Nat) (hk : k ≤ 2) (hacc : 0 ≤ acc) (h : Converted maxValue overflow k acc c) :
    Converted maxValue overflow (k + 1) (acc + v * base ^ k) (convertStep maxValue c v) := by
  have hpos := base_pow_pos k
  have hscale : c.scale = base ^ k := by
    rw [h.scale_eq, int128_of_abs_lt (by rw [abs_of_pos hpos]; exact base_pow_lt hk)]
  have hn : 0 ≤ (v : Int) * base ^ k := mul_nonneg (Nat.cast_nonneg v) hpos.le
  refine ⟨by simp only [convertStep, hscale, pow_succ], ?_, fun hle => ?_⟩
  · by_cases hacc' : acc ≤ maxValue
    · have hdiv : (v : Int) > maxValue.tdiv (base ^ k) ↔ maxValue < v * base ^ k := by
        rw [Int.tdiv_eq_ediv_of_nonneg hmax0, gt_iff_lt, Int.ediv_lt_iff_lt_mul hpos]
      by_cases hv : maxValue < v * base ^ k
      · have hgt : maxValue < acc + v * base ^ k := by omega
        simp only [convertStep, hscale, hdiv.2 hv, decide_true, Bool.or_true, Bool.true_or,
          decide_eq_true hgt]
      · have hprod : int128 (v * base ^ k) = v * base ^ k :=
          int128_of_abs_lt (by rw [abs_of_nonneg hn]; omega)
        have hroom : int128 (maxValue - v * base ^ k) = maxValue - v * base ^ k :=
          int128_of_abs_lt (by rw [abs_lt]; constructor <;> omega)
        have hiff : acc > maxValue - v * base ^ k ↔ maxValue < acc + v * base ^ k := by omega
        have hold : c.overflow = overflow := by
          rw [h.overflow_eq, decide_eq_false (not_lt.2 hacc'), Bool.or_false]
        simp only [convertStep, hscale, hprod, hroom, hold, h.result_eq hacc', hdiv, hv,
          decide_false, Bool.or_false, hiff]
    · have hset : c.overflow = true := by
        rw [h.overflow_eq, decide_eq_true (not_le.1 hacc'), Bool.or_true]
      have hgt : maxValue < acc + v * base ^ k := by omega
      simp only [convertStep, hset, Bool.true_or, decide_eq_true hgt, Bool.or_true]
  · have hacc' : acc ≤ maxValue := by omega
    have hprod : int128 (v * base ^ k) = v * base ^ k :=
      int128_of_abs_lt (by rw [abs_of_nonneg hn]; omega)
    simp only [convertStep, hscale, hprod, h.result_eq hacc']
    exact int128_of_abs_lt (by rw [abs_of_nonneg (by omega)]; omega)

theorem foldl_convertStep_converted {overflow : Bool} (l : List Nat) :
    ∀ {k : Nat} {acc : Int} {c : Conversion}, k + l.length ≤ 3 → 0 ≤ acc →
      Converted maxValue overflow k acc c →
      Converted maxValue overflow (k + l.length)
        (acc + base ^ k * Nat.ofDigits (base : Int) l) (l.foldl (convertStep maxValue) c) := by
  induction l with
  | nil => intro k acc c _ _ h; simpa [Nat.ofDigits] using h
  | cons v l ih =>
    intro k acc c hk hacc h
    have hstep := convertStep_converted hmax0 hmax v (by simp at hk; omega) hacc h
    have hrun := ih (by simp at hk; omega) (by positivity) hstep
    have hval : acc + v * base ^ k + base ^ (k + 1) * Nat.ofDigits (base : Int) l =
        acc + base ^ k * Nat.ofDigits (base : Int) (v :: l) := by
      simp only [Nat.ofDigits, pow_succ]
      ring
    have hlen : k + 1 + l.length = k + (l.length + 1) := by omega
    rw [List.foldl_cons, List.length_cons, ← hlen, ← hval]
    exact hrun

theorem convertToInt128_of_lt {x : Int} (overflow : Bool) (hx : x.natAbs < base ^ 3) :
    (convertToInt128 x maxValue overflow).2 = (overflow || decide (maxValue < |x|)) ∧
      (|x| ≤ maxValue → (convertToInt128 x maxValue overflow).1 = x) := by
  have hlen : (Nat.digits base x.natAbs).length ≤ 3 :=
    (Nat.digits_length_le_iff one_lt_base _).2 hx
  have hrun := foldl_convertStep_converted hmax0 hmax (Nat.digits base x.natAbs)
    (by omega) le_rfl (converted_init hmax0 overflow)
  have hval : (0 : Int) + base ^ 0 * Nat.ofDigits (base : Int) (Nat.digits base x.natAbs) =
      |x| := by
    rw [pow_zero, one_mul, zero_add, ← Nat.coe_ofDigits, Nat.ofDigits_digits, Int.natCast_natAbs]
  rw [hval] at hrun
  refine ⟨hrun.overflow_eq, fun hle => ?_⟩
  simp only [convertToInt128, hrun.result_eq hle]
  split_ifs with hneg
  · rw [abs_of_neg hneg, neg_neg]
    exact int128_of_abs_lt (lt_of_le_of_lt hle hmax)
  · exact abs_of_nonneg (not_lt.1 hneg)

end Loop

theorem int128_base_cube : int128 (base ^ 3) = 2 ^ 126 + 3 * 2 ^ 63 - 1 := by decide

theorem convertToInt128_base_cube_add (overflow : Bool) {v : Nat}
    (hv : (v : Int) ≤ maxUnscaledDecimal16 - int128 (base ^ 3)) :
    convertToInt128 ((base ^ 3 + v : Nat) : Int) maxUnscaledDecimal16 overflow =
      (int128 (base ^ 3) + v, overflow) := by
  have hW := int128_base_cube
  have hmax0 : (0 : Int) ≤ maxUnscaledDecimal16 := by decide
  have hmax := maxUnscaledDecimal16_lt
  have hv2 : v < base ^ 2 := by
    have : maxUnscaledDecimal16 - int128 (base ^ 3) < (base : Int) ^ 2 := by
      rw [hW]; norm_num [maxUnscaledDecimal16, base]
    exact_mod_cast lt_of_le_of_lt hv this
  have hlen : (Nat.digits base v).length ≤ 2 := (Nat.digits_length_le_iff one_lt_base _).2 hv2
  have hdigits : Nat.digits base (base ^ 3 + v) =
      (Nat.digits base v ++ List.replicate (3 - (Nat.digits base v).length) 0) ++ [1] := by
    rw [List.append_assoc, ← Nat.digits_of_lt base 1 one_ne_zero one_lt_base,
      ← List.append_assoc, Nat.digits_append_zeroes_append_digits one_lt_base one_pos,
      Nat.add_sub_cancel' (by omega), mul_one, add_comm]
  have hrun := foldl_convertStep_converted hmax0 hmax
    (Nat.digits base v ++ List.replicate (3 - (Nat.digits base v).length) 0)
    (by simp; omega) le_rfl (converted_init hmax0 overflow)
  have hval : (0 : Int) + base ^ 0 * Nat.ofDigits (base : Int)
      (Nat.digits base v ++ List.replicate (3 - (Nat.digits base v).length) 0) = v := by
    rw [pow_zero, one_mul, zero_add, ← Nat.coe_ofDigits, Nat.ofDigits_append_replicate_zero,
      Nat.ofDigits_digits]
  have hlen3 : 0 + (Nat.digits base v ++
      List.replicate (3 - (Nat.digits base v).length) 0).length = 3 := by simp; omega
  rw [hval, hlen3] at hrun
  simp only [convertToInt128, Int.natAbs_natCast, hdigits]
  rw [List.foldl_append]
  generalize (Nat.digits base v ++ List.replicate (3 - (Nat.digits base v).length) 0).foldl
    (convertStep maxUnscaledDecimal16) ⟨0, 1, overflow⟩ = c at hrun ⊢
  have hle : (v : Int) ≤ maxUnscaledDecimal16 := by rw [hW] at hv; omega
  have hdiv : maxUnscaledDecimal16.tdiv (int128 (base ^ 3)) = 1 := by rw [hW]; decide
  have hroom : int128 (maxUnscaledDecimal16 - int128 (base ^ 3)) =
      maxUnscaledDecimal16 - int128 (base ^ 3) := by rw [hW]; decide
  have hscale : int128 (int128 (base ^ 3)) = int128 (base ^ 3) :=
    int128_of_abs_lt (by rw [hW]; norm_num)
  have hsum : int128 (v + int128 (base ^ 3)) = int128 (base ^ 3) + v := by
    have hW0 : 0 ≤ int128 (base ^ 3) := by rw [hW]; norm_num
    rw [add_comm, int128_of_abs_lt (by rw [abs_of_nonneg (by omega)]; omega)]
  simp only [List.foldl_cons, List.foldl_nil, convertStep, hrun.scale_eq, hrun.overflow_eq,
    hrun.result_eq hle, Nat.cast_one, one_mul, hscale, hdiv, hroom, gt_iff_lt, lt_irrefl, decide_false,
    Bool.or_false, not_lt.2 hv, not_lt.2 hle, hsum, if_neg (not_lt.2 (Int.natCast_nonneg _))]

end Impala.MultiPrecision
