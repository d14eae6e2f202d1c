import Impala.Util.DecimalUtil

/-!
Casts to decimals (exprs/decimal-operators-ir.cc, runtime/decimal-value.inline.h):
`IntToDecimalVal` through `DecimalValue<T>::FromInt`, and `ScaleDecimalValue` through the
conversions `ToDecimal4`, `ToDecimal8`, `ToDecimal16` and `DecimalValue<T>::ScaleTo`.

`FromInt` tests `abs(d)` of its `int64_t` argument against `10^(precision - scale)`. The
absolute value of `INT64_MIN` is no `int64_t`: two's complement gives `INT64_MIN` back, which
is below every bound, so the cast of `INT64_MIN` reports no overflow
(`intToDecimalVal_int64_min`). Every other `int64_t` is cast exactly
(`intToDecimalVal_eq`), and `ScaleDecimalValue` rescales every value of its type exactly,
truncating (`scaleDecimalValue_eq`).
-/

set_option autoImplicit false

namespace Impala

open MachineInt

namespace Storage

/-- `abs` on a value of the type: `std::abs`, or the `abs` of multi-precision.h on
`int128_t`. Two's complement: the least value is its own absolute value. -/
def abs (T : Storage) (v : Int) : Int := T.wrap |v|

def maxValue (T : Storage) : Int := 2 ^ (T.bits - 1) - 1

end Storage

/-- `MultiplyByScale<T>(v, scale, may_overflow)`: `SafeMultiply`, a multiplication in the
unsigned type. -/
def DecimalUtil.multiplyByScale (T : Storage) (v : Int) (scale : Nat) : Int :=
  T.wrap (v * DecimalUtil.getScaleMultiplier T scale)

namespace DecimalValue

/-- `DecimalValue<T>::FromInt(precision, scale, d, &overflow)`: the value, and whether it set
`overflow`. `d` is converted to `T` for `MultiplyByScale`. -/
def fromInt (T : Storage) (precision scale : Nat) (d : Int) : Int × Bool :=
  let maxValue := DecimalUtil.getScaleMultiplier T (precision - scale)
  if Storage.int64.abs d ≥ maxValue then (0, true)
  else (DecimalUtil.multiplyByScale T (T.wrap d) scale, false)

/-- `DecimalValue<T>::ScaleTo(src_scale, dst_scale, dst_precision, round, &overflow)`: the
value, and whether it set `overflow`. -/
def scaleTo (T : Storage) (value : Int) (srcScale dstScale dstPrecision : Nat) (round : Bool) :
    Int × Bool :=
  let deltaScale : Int := (srcScale : Int) - dstScale
  let maxValue := DecimalUtil.getScaleMultiplier T dstPrecision
  if deltaScale ≥ 0 then
    let result :=
      if deltaScale ≠ 0 then DecimalUtil.scaleDownAndRound T value deltaScale.toNat round
      else value
    (result, T.abs result ≥ maxValue)
  else
    let mult := DecimalUtil.getScaleMultiplier T (-deltaScale).toNat
    (T.wrap (value * mult), T.abs value ≥ maxValue.tdiv mult)

end DecimalValue

/-- `ToDecimal4`, `ToDecimal8` and `ToDecimal16` of a value of type `src`, to type `dst`: the
value, and whether it set `overflow`. Only a narrower type checks, against its maximum. -/
def toDecimal (src dst : Storage) (v : Int) : Int × Bool :=
  if dst.bits < src.bits then (dst.wrap v, src.abs v > dst.maxValue) else (v, false)

namespace DecimalOperators

open AggregateFunctions

/-- `DecimalOperators::IntToDecimalVal(ctx, precision, scale, val)`: the value, or none where
it returns NULL on overflow. -/
def intToDecimalVal (precision scale : Nat) (val : Int) : Option Int :=
  let r := DecimalValue.fromInt (Storage.ofByteSize (getDecimalByteSize precision)) precision
    scale val
  if r.2 then none else some r.1

/-- `DecimalOperators::ScaleDecimalValue(ctx, val, val_scale, output_precision, output_scale)`
for `val` of type `src`: the value, or none where it returns NULL on overflow. -/
def scaleDecimalValue (src : Storage) (val : Int) (valScale outputPrecision outputScale : Nat) :
    Option Int :=
  let dst := Storage.ofByteSize (getDecimalByteSize outputPrecision)
  let r : Int × Bool :=
    if src.bits < dst.bits then
      let c := toDecimal src dst val
      let s := DecimalValue.scaleTo dst c.1 valScale outputScale outputPrecision false
      (s.1, c.2 || s.2)
    else
      let s := DecimalValue.scaleTo src val valScale outputScale outputPrecision false
      let c := toDecimal src dst s.1
      (c.1, s.2 || c.2)
  if r.2 then none else some r.1

end DecimalOperators

/-! ## Values in range -/

namespace Storage

theorem wrap_of_abs_lt {T : Storage} {v : Int} (h : |v| < 2 ^ (T.bits - 1)) : T.wrap v = v :=
  T.wrap_of_bounds (by linarith [neg_abs_le v]) (lt_of_le_of_lt (le_abs_self v) h)

theorem abs_of_lt {T : Storage} {v : Int} (h : |v| < 2 ^ (T.bits - 1)) : T.abs v = |v| :=
  wrap_of_abs_lt (by rwa [abs_abs])

theorem two_pow_le_of_bits_le {T U : Storage} (h : T.bits ≤ U.bits) :
    (2 : Int) ^ (T.bits - 1) ≤ 2 ^ (U.bits - 1) :=
  pow_le_pow_right₀ (by norm_num) (by omega)

theorem scaleUpperBound_le_of_bits_le {T U : Storage} (h : T.bits ≤ U.bits) :
    T.scaleUpperBound ≤ U.scaleUpperBound := by
  cases T <;> cases U <;> simp_all [bits, scaleUpperBound]

theorem abs_int64_min : int64.abs (-2 ^ 63) = -2 ^ 63 := by
  rw [abs, wrap, abs_neg, abs_of_nonneg (by norm_num)]
  exact toSigned_of_wrap (by norm_num) (by norm_num)

end Storage

namespace DecimalUtil

theorem neg_one_le_getScaleMultiplier (T : Storage) (scale : Nat) :
    -1 ≤ getScaleMultiplier T scale := by
  unfold getScaleMultiplier
  split_ifs
  · linarith [pow_pos (by norm_num : (0 : Int) < 10) scale]
  · exact le_rfl

theorem scaleDownAndRound_false {T : Storage} {deltaScale : Nat} (hlt : deltaScale < T.scaleUpperBound)
    (value : Int) : scaleDownAndRound T value deltaScale false = value.tdiv (10 ^ deltaScale) := by
  rw [scaleDownAndRound, getScaleMultiplier_of_lt hlt, if_pos (by positivity)]
  simp

end DecimalUtil

/-- The value `x` of scale `srcScale` at scale `dstScale`, truncated toward zero. -/
def rescale (x : Int) (srcScale dstScale : Nat) : Int :=
  if srcScale ≤ dstScale then x * 10 ^ (dstScale - srcScale) else x.tdiv (10 ^ (srcScale - dstScale))

theorem abs_tdiv_le (x : Int) (k : Nat) : |x.tdiv (10 ^ k)| ≤ |x| := by
  rw [Int.abs_eq_natAbs, Int.abs_eq_natAbs, Int.natAbs_tdiv]
  exact_mod_cast Nat.div_le_self _ _

theorem pow_tdiv_pow {p k : Nat} (hk : k ≤ p) : ((10 : Int) ^ p).tdiv (10 ^ k) = 10 ^ (p - k) := by
  rw [Int.tdiv_eq_ediv_of_nonneg (by positivity), show p = (p - k) + k by omega, pow_add,
    Nat.add_sub_cancel, Int.mul_ediv_cancel _ (by positivity)]

namespace DecimalValue

open DecimalUtil

section ScaleTo

variable {T : Storage} {value : Int} {srcScale dstScale dstPrecision : Nat}

theorem scaleTo_spec (hv : |value| < 2 ^ (T.bits - 1)) (hp : dstPrecision < T.scaleUpperBound)
    (hpow : (10 : Int) ^ dstPrecision ≤ 2 ^ (T.bits - 1))
    (hdown : srcScale - dstScale < T.scaleUpperBound) (hup : dstScale - srcScale ≤ dstPrecision) :
    (scaleTo T value srcScale dstScale dstPrecision false).2 =
        decide (10 ^ dstPrecision ≤ |rescale value srcScale dstScale|) ∧
      ((scaleTo T value srcScale dstScale dstPrecision false).2 = false →
        (scaleTo T value srcScale dstScale dstPrecision false).1 = rescale value srcScale dstScale) := by
  have hmax : getScaleMultiplier T dstPrecision = 10 ^ dstPrecision := getScaleMultiplier_of_lt hp
  by_cases hle : dstScale ≤ srcScale
  · have hresult : (if ((srcScale : Int) - dstScale) ≠ 0 then
        scaleDownAndRound T value ((srcScale : Int) - dstScale).toNat false else value) =
        rescale value srcScale dstScale := by
      unfold rescale
      split_ifs with hne hle'
      · omega
      · rw [show ((srcScale : Int) - dstScale).toNat = srcScale - dstScale by omega]
        exact scaleDownAndRound_false hdown value
      · rw [show dstScale - srcScale = 0 by omega, pow_zero, mul_one]
      · omega
    have hbound : |rescale value srcScale dstScale| < 2 ^ (T.bits - 1) := by
      unfold rescale
      split_ifs with hle'
      · rwa [show dstScale - srcScale = 0 by omega, pow_zero, mul_one]
      · exact lt_of_le_of_lt (abs_tdiv_le value _) hv
    have hpos : (srcScale : Int) - dstScale ≥ 0 := by omega
    simp only [scaleTo, if_pos hpos, hresult, hmax, Storage.abs_of_lt hbound, ge_iff_le]
    exact ⟨trivial, fun _ => trivial⟩
  · have hk : dstScale - srcScale ≤ dstPrecision := hup
    have hrescale : rescale value srcScale dstScale = value * 10 ^ (dstScale - srcScale) := by
      rw [rescale, if_pos (by omega)]
    have hmult : getScaleMultiplier T (-((srcScale : Int) - dstScale)).toNat =
        10 ^ (dstScale - srcScale) := by
      rw [show (-((srcScale : Int) - dstScale)).toNat = dstScale - srcScale by omega]
      exact getScaleMultiplier_of_lt (by omega)
    have hpos : ¬ ((srcScale : Int) - dstScale ≥ 0) := by omega
    have hiff : 10 ^ (dstPrecision - (dstScale - srcScale)) ≤ |value| ↔
        10 ^ dstPrecision ≤ |value * 10 ^ (dstScale - srcScale)| := by
      rw [abs_mul, abs_of_pos (by positivity : (0 : Int) < 10 ^ (dstScale - srcScale)),
        show dstPrecision = (dstPrecision - (dstScale - srcScale)) + (dstScale - srcScale) by omega,
        pow_add, Nat.add_sub_cancel]
      exact (mul_le_mul_iff_of_pos_right (by positivity)).symm
    simp only [scaleTo, if_neg hpos, hmult, hmax, pow_tdiv_pow hk, Storage.abs_of_lt hv, ge_iff_le,
      hrescale]
    refine ⟨by simp [hiff], fun hno => ?_⟩
    have hlt : |value * 10 ^ (dstScale - srcScale)| < 10 ^ dstPrecision := by
      simp only [decide_eq_false_iff_not, hiff] at hno
      exact lt_of_not_ge hno
    exact Storage.wrap_of_abs_lt (lt_of_lt_of_le hlt hpow)

end ScaleTo

theorem fromInt_eq {T : Storage} {precision scale : Nat} {d : Int} (hs : scale ≤ precision)
    (hp : precision < T.scaleUpperBound) (hpow : (10 : Int) ^ precision ≤ 2 ^ (T.bits - 1))
    (hd : |d| < 2 ^ 63) :
    fromInt T precision scale d =
      if 10 ^ (precision - scale) ≤ |d| then (0, true) else (d * 10 ^ scale, false) := by
  have habs : Storage.int64.abs d = |d| := Storage.abs_of_lt hd
  rw [fromInt, getScaleMultiplier_of_lt (by omega), habs]
  split_ifs with hover
  · rfl
  · have hsplit : (10 : Int) ^ precision = 10 ^ (precision - scale) * 10 ^ scale := by
      rw [← pow_add, Nat.sub_add_cancel hs]
    have hprod : |d * 10 ^ scale| < 10 ^ precision := by
      rw [abs_mul, abs_of_pos (by positivity : (0 : Int) < 10 ^ scale), hsplit]
      exact mul_lt_mul_of_pos_right (lt_of_not_ge hover) (by positivity)
    have hd' : |d| < 2 ^ (T.bits - 1) := by
      have : (10 : Int) ^ (precision - scale) ≤ 10 ^ precision :=
        pow_le_pow_right₀ (by norm_num) (by omega)
      linarith [lt_of_not_ge hover]
    rw [multiplyByScale, Storage.wrap_of_abs_lt hd', getScaleMultiplier_of_lt (by omega),
      Storage.wrap_of_abs_lt (lt_of_lt_of_le hprod hpow)]

end DecimalValue

theorem toDecimal_of_lt {src dst : Storage} {v : Int} (hsrc : |v| < 2 ^ (src.bits - 1))
    (hdst : |v| < 2 ^ (dst.bits - 1)) : toDecimal src dst v = (v, false) := by
  unfold toDecimal
  split_ifs
  · rw [Storage.wrap_of_abs_lt hdst, Storage.abs_of_lt hsrc, Storage.maxValue]
    simp only [Prod.mk.injEq, true_and, decide_eq_false_iff_not, not_lt]
    omega
  · rfl

namespace DecimalOperators

open AggregateFunctions

theorem intToDecimalVal_eq {precision scale : Nat} {d : Int} (hs : scale ≤ precision)
    (hp : precision ≤ 38) (hd : |d| < 2 ^ 63) :
    intToDecimalVal precision scale d =
      if 10 ^ (precision - scale) ≤ |d| then none else some (d * 10 ^ scale) := by
  rw [intToDecimalVal, DecimalValue.fromInt_eq hs (Storage.lt_scaleUpperBound_ofByteSize hp)
    (Storage.pow_ten_le_ofByteSize hp) hd]
  by_cases hover : 10 ^ (precision - scale) ≤ |d| <;> simp [hover]

/-- `abs(INT64_MIN)` is `INT64_MIN`, below every bound: the cast of `INT64_MIN` to a decimal
type of at most 18 integer digits reports no overflow, although `|INT64_MIN| = 2^63` has more
digits. -/
theorem intToDecimalVal_int64_min {precision scale : Nat} (hdigits : precision - scale ≤ 18) :
    (10 : Int) ^ (precision - scale) ≤ |(-2 ^ 63 : Int)| ∧
      ∃ v, intToDecimalVal precision scale (-2 ^ 63) = some v := by
  refine ⟨?_, ?_⟩
  · calc (10 : Int) ^ (precision - scale) ≤ 10 ^ 18 := pow_le_pow_right₀ (by norm_num) hdigits
      _ ≤ |(-2 ^ 63 : Int)| := by norm_num
  · have hbelow : ¬ Storage.int64.abs (-2 ^ 63) ≥ DecimalUtil.getScaleMultiplier
        (Storage.ofByteSize (getDecimalByteSize precision)) (precision - scale) := by
      rw [Storage.abs_int64_min]
      have := DecimalUtil.neg_one_le_getScaleMultiplier
        (Storage.ofByteSize (getDecimalByteSize precision)) (precision - scale)
      omega
    simp only [intToDecimalVal, DecimalValue.fromInt, if_neg hbelow, Bool.false_eq_true, if_false,
      Option.some.injEq, exists_eq']

theorem intToDecimalVal_int64_min_nine :
    (10 : Int) ^ (9 - 0) ≤ |(-2 ^ 63 : Int)| ∧ ∃ v, intToDecimalVal 9 0 (-2 ^ 63) = some v :=
  intToDecimalVal_int64_min (by norm_num)

example : intToDecimalVal 9 0 (-2 ^ 63) = some 0 := by decide

theorem scaleDecimalValue_eq {p1 s1 p2 s2 : Nat} (hs1 : s1 ≤ p1) (hp1 : p1 ≤ 38) (hs2 : s2 ≤ p2)
    (hp2 : p2 ≤ 38) {x : Int} (hx : |x| < 10 ^ p1) :
    scaleDecimalValue (Storage.ofByteSize (getDecimalByteSize p1)) x s1 p2 s2 =
      if 10 ^ p2 ≤ |rescale x s1 s2| then none else some (rescale x s1 s2) := by
  unfold scaleDecimalValue
  set src := Storage.ofByteSize (getDecimalByteSize p1)
  set dst := Storage.ofByteSize (getDecimalByteSize p2)
  have hxsrc : |x| < 2 ^ (src.bits - 1) := lt_of_lt_of_le hx (Storage.pow_ten_le_ofByteSize hp1)
  have hp1src : p1 < src.scaleUpperBound := Storage.lt_scaleUpperBound_ofByteSize hp1
  have hp2dst : p2 < dst.scaleUpperBound := Storage.lt_scaleUpperBound_ofByteSize hp2
  have hpow2 : (10 : Int) ^ p2 ≤ 2 ^ (dst.bits - 1) := Storage.pow_ten_le_ofByteSize hp2
  by_cases hwide : src.bits < dst.bits
  · have hxdst : |x| < 2 ^ (dst.bits - 1) :=
      lt_of_lt_of_le hxsrc (Storage.two_pow_le_of_bits_le hwide.le)
    obtain ⟨hover, hval⟩ := @DecimalValue.scaleTo_spec dst x s1 s2 p2 hxdst
      hp2dst hpow2
      (by have := Storage.scaleUpperBound_le_of_bits_le hwide.le; omega) (by omega)
    simp only [if_pos hwide, toDecimal_of_lt hxsrc hxdst, Bool.false_or]
    by_cases hbig : 10 ^ p2 ≤ |rescale x s1 s2|
    · have : (DecimalValue.scaleTo dst x s1 s2 p2 false).2 = true := by simpa [hbig] using hover
      simp [this, hbig]
    · have hno : (DecimalValue.scaleTo dst x s1 s2 p2 false).2 = false := by simpa [hbig] using hover
      simp [hno, hbig, hval hno]
  · have hle : dst.bits ≤ src.bits := by omega
    obtain ⟨hover, hval⟩ := @DecimalValue.scaleTo_spec src x s1 s2 p2 hxsrc
      (by have := Storage.scaleUpperBound_le_of_bits_le hle; omega)
      (hpow2.trans (Storage.two_pow_le_of_bits_le hle)) (by omega) (by omega)
    simp only [if_neg hwide]
    by_cases hbig : 10 ^ p2 ≤ |rescale x s1 s2|
    · have : (DecimalValue.scaleTo src x s1 s2 p2 false).2 = true := by simpa [hbig] using hover
      simp [this, hbig]
    · have hno : (DecimalValue.scaleTo src x s1 s2 p2 false).2 = false := by simpa [hbig] using hover
      have hsmall : |rescale x s1 s2| < 10 ^ p2 := lt_of_not_ge hbig
      rw [hval hno, toDecimal_of_lt
        (lt_of_lt_of_le hsmall (hpow2.trans (Storage.two_pow_le_of_bits_le hle)))
        (lt_of_lt_of_le hsmall hpow2)]
      simp [hno, hbig]

end DecimalOperators

end Impala
