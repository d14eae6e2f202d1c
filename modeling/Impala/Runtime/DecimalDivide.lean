import Impala.Runtime.DecimalMultiply
import Mathlib.Data.Int.Bitwise

/-!
Decimal division (runtime/decimal-value.inline.h, `DecimalValue::Divide` with
`detail::MaxBitsRequiredAfterScaling`) as `DECIMAL_ARITHMETIC_OP_CHECK_NAN`
(exprs/decimal-operators-ir.cc) runs it: in the storage of the largest of the operand and
result sizes, with `is_nan` for a zero divisor.

In 128 bits the dividend is scaled up in 256 bits, overflow is declared from a bit count
when the scale is past 38 digits, and the quotient is brought back by `ConvertToInt128`;
in 32 and 64 bits the dividend is scaled in the storage itself.
-/

set_option autoImplicit false

namespace Impala.DecimalValue

open MachineInt DecimalUtil AggregateFunctions TypesUtil MultiPrecision IntRounding

def maxBitsRequiredAfterScaling (num : Int) (scaleBy : Nat) : Nat :=
  (128 - countLeadingZeros 128 |num|) + maxBitsRequiredIncreaseAfterScaling scaleBy

/-- `DecimalValue<T>::Divide<RESULT_T>(this_scale, other, other_scale, result_precision,
result_scale, round, is_nan, overflow)`, with `T` and `RESULT_T` the one storage `R` the
operator chose: the quotient, `is_nan` and `overflow`. -/
def divide (R : Storage) (x : Int) (thisScale : Nat) (y : Int) (otherScale : Nat)
    (resultPrecision resultScale : Nat) (round isNan overflow : Bool) : Int × Bool × Bool :=
  if y = 0 then (0, true, overflow)
  else
    let scaleBy := resultScale + otherScale - thisScale
    if R = .int128 then
      let ovf := decide (scaleBy > 38) && decide (maxBitsRequiredAfterScaling x scaleBy > 255)
      let x' := int256 (x * getScaleMultiplier .int256 scaleBy)
      let (r, overflow) := convertToInt128 (x'.tdiv y) maxUnscaledDecimal16 (overflow || ovf)
      let r := if round ∧ |2 * x'.tmod y| ≥ |y| then r + (Int.xor (sign x) (sign y) + 1) else r
      (r, isNan, overflow || decide (resultPrecision = 38 ∧ |r| > maxUnscaledDecimal16))
    else
      let x' := R.wrap (x * getScaleMultiplier R scaleBy)
      let r := x'.tdiv y
      let r := if round ∧ |2 * x'.tmod y| ≥ |y| then r + sign r else r
      (R.wrap r, isNan, overflow)

/-- `DecimalOperators::Divide_DecimalVal_DecimalVal`: the storage is the largest of the
operands' and the result's, `round` is `DECIMAL_V2`, and both flags start clear. -/
def divideDecimalVal (decimalV2 : Bool) (t1 t2 : DecimalType) (x y : Int) :
    Int × Bool × Bool :=
  let t := resultType decimalV2 .divide t1 t2
  let maxSize := max (max (getDecimalByteSize t1.precision) (getDecimalByteSize t2.precision))
    (getDecimalByteSize t.precision)
  divide (Storage.ofByteSize maxSize) x t1.scale y t2.scale t.precision t.scale decimalV2
    false false

/-- The quotient at `resultScale` of `x` at `xScale` by `y` at `yScale`, rounded half away
from zero or truncated: what `Divide` is meant to return for a divisor other than zero. -/
def exactDivide (round : Bool) (x : Int) (xScale : Nat) (y : Int) (yScale resultScale : Nat) :
    Int :=
  roundOrTruncate round ((x : ℚ) / 10 ^ xScale / ((y : ℚ) / 10 ^ yScale) * 10 ^ resultScale)

theorem exactDivide_eq (round : Bool) (x : Int) {xScale : Nat} {y : Int} (hy : y ≠ 0)
    {yScale resultScale : Nat} (h : xScale ≤ resultScale + yScale) :
    exactDivide round x xScale y yScale resultScale =
      roundOrTruncate round (((x * 10 ^ (resultScale + yScale - xScale) : ℤ) : ℚ) / y) := by
  have hsplit : (10 : ℚ) ^ (resultScale + yScale) =
      10 ^ xScale * 10 ^ (resultScale + yScale - xScale) := by
    rw [← pow_add, Nat.add_sub_cancel' h]
  have hy' : (y : ℚ) ≠ 0 := by exact_mod_cast hy
  rw [exactDivide]
  congr 1
  rw [Int.cast_mul, Int.cast_pow, Int.cast_ofNat]
  field_simp
  rw [mul_assoc (x : ℚ), ← pow_add, add_comm yScale, hsplit]
  ring

theorem divide_int128_of_le {x y : Int} {thisScale otherScale resultScale : Nat}
    (resultPrecision : Nat) (round isNan overflow : Bool) (hy : y ≠ 0) (hx : |x| < 2 ^ 127)
    (hs : resultScale + otherScale - thisScale ≤ 38) :
    divide .int128 x thisScale y otherScale resultPrecision resultScale round isNan overflow =
      let x' := x * 10 ^ (resultScale + otherScale - thisScale)
      let c := convertToInt128 (x'.tdiv y) maxUnscaledDecimal16 overflow
      let r := if round ∧ |2 * x'.tmod y| ≥ |y| then c.1 + (Int.xor (sign x) (sign y) + 1)
        else c.1
      (r, isNan, c.2 || decide (resultPrecision = 38 ∧ |r| > maxUnscaledDecimal16)) := by
  have hscale : getScaleMultiplier .int256 (resultScale + otherScale - thisScale) =
      10 ^ (resultScale + otherScale - thisScale) :=
    getScaleMultiplier_of_lt (by simp only [Storage.scaleUpperBound]; omega)
  have hx' : int256 (x * 10 ^ (resultScale + otherScale - thisScale)) =
      x * 10 ^ (resultScale + otherScale - thisScale) := by
    apply int256_of_abs_lt
    rw [abs_mul, abs_pow, abs_of_pos (by norm_num : (0 : Int) < 10)]
    calc |x| * 10 ^ (resultScale + otherScale - thisScale) < 2 ^ 127 * 10 ^ 38 :=
          mul_lt_mul_of_lt_of_le_of_nonneg_of_pos hx (pow_le_pow_right₀ (by norm_num) hs)
            (by positivity) (by positivity)
      _ ≤ 2 ^ 256 := by norm_num
  simp only [divide, hy, if_false, if_true, hscale, hx', not_lt.2 hs, gt_iff_lt, decide_false,
    Bool.false_and, Bool.or_false]

theorem divide_base_cube_add {x y : Int} {thisScale otherScale resultScale : Nat} {v : Nat}
    (hy : y ≠ 0) (hx : |x| < 2 ^ 127) (hs : resultScale + otherScale - thisScale ≤ 38)
    (hq : (x * 10 ^ (resultScale + otherScale - thisScale)).tdiv y = ((base ^ 3 + v : Nat) : Int))
    (hexact : (x * 10 ^ (resultScale + otherScale - thisScale)).tmod y = 0)
    (hv : (v : Int) ≤ maxUnscaledDecimal16 - int128 (base ^ 3)) (round : Bool) :
    divide .int128 x thisScale y otherScale 38 resultScale round false false =
      (int128 (base ^ 3) + v, false, false) := by
  have hy0 : ¬ |y| ≤ |2 * 0| := by simpa using hy
  have hle : ¬ |int128 (base ^ 3) + v| > maxUnscaledDecimal16 := by
    have hW0 : 0 ≤ int128 (base ^ 3) := by rw [int128_base_cube]; norm_num
    rw [abs_of_nonneg (by omega)]
    omega
  rw [divide_int128_of_le 38 round false false hy hx hs]
  simp only [hq, hexact, convertToInt128_base_cube_add false hv, ge_iff_le, hy0, and_false,
    if_false, hle, decide_false, Bool.or_false]

def baseCubeDividend : Nat := base ^ 3 / 10 ^ 37 + 1

theorem divideDecimalVal_misses_overflow :
    (|(baseCubeDividend : Int)| < 10 ^ decimal38x0.precision ∧
      |(10 : Int)| < 10 ^ decimal38x19.precision) ∧
    divideDecimalVal false decimal38x0 decimal38x19 baseCubeDividend 10 =
      (int128 (base ^ 3) + (baseCubeDividend * 10 ^ 37 - base ^ 3 : Nat), false, false) ∧
    exactDivide false baseCubeDividend decimal38x0.scale 10 decimal38x19.scale
      (resultType false .divide decimal38x0 decimal38x19).scale =
        (baseCubeDividend * 10 ^ 37 : Nat) ∧
    maxUnscaledDecimal16 < (baseCubeDividend * 10 ^ 37 : Nat) := by
  have hT : (resultType false .divide decimal38x0 decimal38x19).precision = 38 ∧
      (resultType false .divide decimal38x0 decimal38x19).scale = 19 := by decide
  have hq : ((baseCubeDividend : Int) * 10 ^ (19 + 19 - 0)).tdiv 10 =
      ((base ^ 3 + (baseCubeDividend * 10 ^ 37 - base ^ 3) : Nat) : Int) := by decide
  have hexact : ((baseCubeDividend : Int) * 10 ^ (19 + 19 - 0)).tmod 10 = 0 := by decide
  have hv : ((baseCubeDividend * 10 ^ 37 - base ^ 3 : Nat) : Int) ≤
      maxUnscaledDecimal16 - int128 (base ^ 3) := by
    rw [int128_base_cube]
    decide
  refine ⟨⟨by decide, by decide⟩, ?_, ?_, by decide⟩
  · simp only [divideDecimalVal, hT.1, hT.2]
    exact divide_base_cube_add (by decide) (by decide) (by decide) hq hexact hv false
  · rw [hT.2, exactDivide_eq false _ (by decide) (by decide),
      show decimal38x19.scale = 19 from rfl, show decimal38x0.scale = 0 from rfl]
    have hcast : (((baseCubeDividend * 10 ^ (19 + 19 - 0) : ℤ)) : ℚ) / ((10 : ℤ) : ℚ) =
        ((baseCubeDividend * 10 ^ 37 : Nat) : ℤ) := by
      push_cast
      ring
    rw [hcast, roundOrTruncate_intCast]

end Impala.DecimalValue
