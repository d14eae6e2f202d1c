import Impala.Runtime.DecimalAdd
import Impala.Runtime.MultiPrecision

/-!
Comparison and remainder of decimals of different scales (runtime/decimal-value.inline.h,
`DecimalValue::Compare`, `Mod` and `AdjustToSameScale`), in the storage the operators run
them in: `Compare` in the decimals' own, `Mod` in the largest of the operands' and the
result's (`DECIMAL_ARITHMETIC_OP_CHECK_NAN`, exprs/decimal-operators-ir.cc).

`Compare` aligns the operands one type wider than their storage, and `Mod` picks the type it
aligns them in from the leading-zero estimate of `MinLeadingZeros`. For every scale and value
a storage holds the aligned operands fit whichever type is picked, so `Compare` returns the
sign of the difference and `Mod` the remainder of the aligned operands, on every branch.
-/

set_option autoImplicit false

namespace Impala.DecimalValue

open MachineInt DecimalUtil AggregateFunctions MultiPrecision

/-- `ColumnType::MAX_DECIMAL4_PRECISION`, `MAX_DECIMAL8_PRECISION` and `MAX_PRECISION`: the
digits a decimal of the storage holds, one less than the length of its table of powers. -/
def maxDigits (T : Storage) : Nat := T.scaleUpperBound - 1

def compareAligned (x y : Int) : Int := if x = y then 0 else if x < y then -1 else 1

/-- `Decimal4Value::Compare` and `Decimal8Value::Compare`: the operands aligned by
`AdjustToSameScale` in the wider type `W`. -/
def compareIn (W : Storage) (x : Int) (thisScale : Nat) (y : Int) (otherScale : Nat) : Int :=
  let (x, y) := adjustToSameScale W x thisScale y otherScale
  compareAligned x y

/-- `Decimal16Value::Compare`: the operands converted to `int256_t`, and the one of smaller
scale multiplied up there by `MultiplyByScale`. -/
def compare16 (x : Int) (thisScale : Nat) (y : Int) (otherScale : Nat) : Int :=
  let deltaScale : Int := (thisScale : Int) - otherScale
  let (x, y) :=
    if deltaScale > 0 then (x, int256 (y * getScaleMultiplier .int256 deltaScale.toNat))
    else if deltaScale < 0 then (int256 (x * getScaleMultiplier .int256 (-deltaScale).toNat), y)
    else (x, y)
  compareAligned x y

def compare : Storage → Int → Nat → Int → Nat → Int
  | .int32 => compareIn .int64
  | .int64 => compareIn .int128
  | _ => compare16

def modIn (W : Storage) (x : Int) (thisScale : Nat) (y : Int) (otherScale : Nat) : Int :=
  let (x, y) := adjustToSameScale W x thisScale y otherScale
  x.tmod y

/-- The `int256_t` branch of `Mod`: the operand of smaller scale multiplied up in 256 bits,
and the remainder brought back by `ConvertToInt128`. -/
def mod256 (x : Int) (thisScale : Nat) (y : Int) (otherScale : Nat) : Int :=
  let (x, y) :=
    if thisScale < otherScale then (int256 (x * getScaleMultiplier .int256 (otherScale - thisScale)), y)
    else (x, int256 (y * getScaleMultiplier .int256 (thisScale - otherScale)))
  (convertToInt128 (x.tmod y) maxUnscaledDecimal16 false).1

/-- `DecimalValue<T>::Mod<RESULT_T>(this_scale, other, other_scale, result_precision,
result_scale, round, is_nan, overflow)` with `T` and `RESULT_T` the one storage `R` the
operator chose: the remainder, and `is_nan`. -/
def mod (R : Storage) (x : Int) (thisScale : Nat) (y : Int) (otherScale : Nat) : Int × Bool :=
  if y = 0 then (0, true)
  else
    let r := match R with
      | .int32 => modIn .int64 x thisScale y otherScale
      | .int64 =>
        if minLeadingZeros 64 x thisScale y otherScale ≥ 2 then modIn .int64 x thisScale y otherScale
        else modIn .int128 x thisScale y otherScale
      | _ =>
        if minLeadingZeros 128 x thisScale y otherScale ≥ 2 then
          modIn .int128 x thisScale y otherScale
        else mod256 x thisScale y otherScale
    (R.wrap r, false)

def exactCompare (x : Int) (xScale : Nat) (y : Int) (yScale : Nat) : Int :=
  let d : ℚ := (x : ℚ) / 10 ^ xScale - (y : ℚ) / 10 ^ yScale
  if d = 0 then 0 else if d < 0 then -1 else 1

/-- The remainder, with the sign of the dividend, of the operands aligned to the larger
scale: what `Mod` is meant to return for a divisor other than zero. -/
def exactMod (x : Int) (xScale : Nat) (y : Int) (yScale : Nat) : Int :=
  (alignScales x xScale y yScale).1.tmod (alignScales x xScale y yScale).2

/-! ### The exact results -/

theorem sub_eq_alignScales (x : Int) (xScale : Nat) (y : Int) (yScale : Nat) :
    (x : ℚ) / 10 ^ xScale - (y : ℚ) / 10 ^ yScale =
      (((alignScales x xScale y yScale).1 - (alignScales x xScale y yScale).2 : ℤ) : ℚ) /
        10 ^ max xScale yScale := by
  have hx : (10 : ℚ) ^ max xScale yScale = 10 ^ xScale * 10 ^ (max xScale yScale - xScale) := by
    rw [← pow_add, Nat.add_sub_cancel' (le_max_left _ _)]
  have hy : (10 : ℚ) ^ max xScale yScale = 10 ^ yScale * 10 ^ (max xScale yScale - yScale) := by
    rw [← pow_add, Nat.add_sub_cancel' (le_max_right _ _)]
  simp only [alignScales]
  push_cast
  rw [sub_div]
  congr 1
  · rw [hx, mul_div_mul_right _ _ (by positivity)]
  · rw [hy, mul_div_mul_right _ _ (by positivity)]

theorem compareAligned_alignScales (x : Int) (xScale : Nat) (y : Int) (yScale : Nat) :
    compareAligned (alignScales x xScale y yScale).1 (alignScales x xScale y yScale).2 =
      exactCompare x xScale y yScale := by
  have hpos : (0 : ℚ) < 10 ^ max xScale yScale := by positivity
  unfold compareAligned exactCompare
  dsimp only
  rw [sub_eq_alignScales]
  generalize (alignScales x xScale y yScale).1 = a
  generalize (alignScales x xScale y yScale).2 = b
  rcases lt_trichotomy a b with hab | rfl | hab
  · have hq : ((a - b : ℤ) : ℚ) / 10 ^ max xScale yScale < 0 :=
      div_neg_of_neg_of_pos (by exact_mod_cast sub_neg.2 hab) hpos
    rw [if_neg hab.ne, if_pos hab, if_neg hq.ne, if_pos hq]
  · simp
  · have hq : 0 < ((a - b : ℤ) : ℚ) / 10 ^ max xScale yScale :=
      div_pos (by exact_mod_cast sub_pos.2 hab) hpos
    rw [if_neg hab.ne', if_neg (not_lt.2 hab.le), if_neg hq.ne', if_neg (not_lt.2 hq.le)]

theorem abs_tmod_le {a b : Int} (hb : b ≠ 0) : |a.tmod b| ≤ |a| ∧ |a.tmod b| < |b| := by
  have h := Int.natAbs_tmod a b
  have hlt : a.natAbs % b.natAbs < b.natAbs := Nat.mod_lt _ (by omega)
  have hle : a.natAbs % b.natAbs ≤ a.natAbs := Nat.mod_le _ _
  constructor <;> rw [Int.abs_eq_natAbs, Int.abs_eq_natAbs, h] <;> omega

theorem abs_exactMod_lt {B x y : Int} (hx : |x| < B) (hy : |y| < B) (hy0 : y ≠ 0)
    (xScale yScale : Nat) : |exactMod x xScale y yScale| < B := by
  unfold exactMod alignScales
  dsimp only
  rcases le_total xScale yScale with hle | hle
  · rw [max_eq_right hle, Nat.sub_self, pow_zero, mul_one]
    exact lt_of_lt_of_le (abs_tmod_le hy0).2 hy.le
  · rw [max_eq_left hle, Nat.sub_self, pow_zero, mul_one]
    have hy' : y * 10 ^ (xScale - yScale) ≠ 0 := mul_ne_zero hy0 (by positivity)
    exact lt_of_le_of_lt (abs_tmod_le hy').1 hx

theorem abs_alignScales_lt {p : Nat} {x y : Int} {xScale yScale : Nat} (hx : |x| < 10 ^ p)
    (hy : |y| < 10 ^ p) (hxs : xScale ≤ p) (hys : yScale ≤ p) :
    |(alignScales x xScale y yScale).1| < 10 ^ (2 * p) ∧
      |(alignScales x xScale y yScale).2| < 10 ^ (2 * p) := by
  have hmono : ∀ k, k ≤ p → (10 : Int) ^ (p - k + max xScale yScale) ≤ 10 ^ (2 * p) :=
    fun k _ => pow_le_pow_right₀ (by norm_num) (by omega)
  exact ⟨lt_of_lt_of_le (abs_mul_pow_ten_lt hx hxs (le_max_left _ _)) (hmono _ hxs),
    lt_of_lt_of_le (abs_mul_pow_ten_lt hy hys (le_max_right _ _)) (hmono _ hys)⟩

theorem minLeadingZeros_abs (w : Nat) (x : Int) (xScale : Nat) (y : Int) (yScale : Nat) :
    minLeadingZeros w |x| xScale |y| yScale = minLeadingZeros w x xScale y yScale := by
  simp only [minLeadingZeros, abs_abs]

theorem alignScales_fit {W : Storage} {p : Nat} (hW : (10 : Int) ^ (2 * p) ≤ 2 ^ (W.bits - 1))
    {x y : Int} {xScale yScale : Nat} (hx : |x| < 10 ^ p) (hy : |y| < 10 ^ p) (hxs : xScale ≤ p)
    (hys : yScale ≤ p) :
    |(alignScales x xScale y yScale).1| < 2 ^ (W.bits - 1) ∧
      |(alignScales x xScale y yScale).2| < 2 ^ (W.bits - 1) :=
  have h := abs_alignScales_lt hx hy hxs hys
  ⟨lt_of_lt_of_le h.1 hW, lt_of_lt_of_le h.2 hW⟩

/-! ### The branches -/

section Branches

variable {W : Storage} {x y : Int} {xScale yScale : Nat}

theorem compareIn_eq (hd : ((xScale : Int) - yScale).natAbs < W.scaleUpperBound)
    (hfit : |(alignScales x xScale y yScale).1| < 2 ^ (W.bits - 1) ∧
      |(alignScales x xScale y yScale).2| < 2 ^ (W.bits - 1)) :
    compareIn W x xScale y yScale = exactCompare x xScale y yScale := by
  rw [compareIn, adjustToSameScale_eq hd hfit]
  exact compareAligned_alignScales x xScale y yScale

theorem modIn_eq (hd : ((xScale : Int) - yScale).natAbs < W.scaleUpperBound)
    (hfit : |(alignScales x xScale y yScale).1| < 2 ^ (W.bits - 1) ∧
      |(alignScales x xScale y yScale).2| < 2 ^ (W.bits - 1)) :
    modIn W x xScale y yScale = exactMod x xScale y yScale := by
  rw [modIn, adjustToSameScale_eq hd hfit]
  rfl

theorem int256_mul_scale {v : Int} (hv : |v| < 10 ^ 38) {k : Nat} (hk : k ≤ 38) :
    int256 (v * getScaleMultiplier .int256 k) = v * 10 ^ k := by
  rw [getScaleMultiplier_of_lt (by simp only [Storage.scaleUpperBound]; omega)]
  apply int256_of_abs_lt
  rw [abs_mul, abs_pow, abs_of_pos (by norm_num : (0 : Int) < 10)]
  calc |v| * 10 ^ k < 10 ^ 38 * 10 ^ 38 :=
        mul_lt_mul_of_lt_of_le_of_nonneg_of_pos hv (pow_le_pow_right₀ (by norm_num) hk)
          (by positivity) (by positivity)
    _ ≤ 2 ^ 256 := by norm_num

variable (hx : |x| < 10 ^ 38) (hy : |y| < 10 ^ 38) (hxs : xScale ≤ 38) (hys : yScale ≤ 38)
include hx hy hxs hys

theorem compare16_eq : compare16 x xScale y yScale = exactCompare x xScale y yScale := by
  rw [← compareAligned_alignScales]
  unfold compare16 alignScales
  dsimp only
  rcases lt_trichotomy xScale yScale with hlt | rfl | hgt
  · have hneg : (-((xScale : Int) - yScale)).toNat = yScale - xScale := by omega
    rw [if_neg (by omega), if_pos (by omega), hneg, int256_mul_scale hx (by omega),
      max_eq_right hlt.le, Nat.sub_self, pow_zero, mul_one]
  · simp
  · have hpos : ((xScale : Int) - yScale).toNat = xScale - yScale := by omega
    rw [if_pos (by omega), hpos, int256_mul_scale hy (by omega), max_eq_left hgt.le, Nat.sub_self,
      pow_zero, mul_one]

theorem mod256_eq (hy0 : y ≠ 0) : mod256 x xScale y yScale = exactMod x xScale y yScale := by
  have hr := abs_exactMod_lt hx hy hy0 xScale yScale
  have hmax0 : (0 : Int) ≤ maxUnscaledDecimal16 := by decide
  have hconv : ∀ r : Int, |r| < 10 ^ 38 →
      (convertToInt128 r maxUnscaledDecimal16 false).1 = r := by
    intro r hr
    have hbase : r.natAbs < base ^ 3 := by
      have : (r.natAbs : Int) < 10 ^ 38 := by rwa [Int.natCast_natAbs]
      have h38 : (10 : Nat) ^ 38 < base ^ 3 := by decide
      omega
    exact (convertToInt128_of_lt hmax0 maxUnscaledDecimal16_lt false hbase).2
      (by unfold maxUnscaledDecimal16; omega)
  unfold mod256
  dsimp only
  rw [← hconv _ hr]
  unfold exactMod alignScales
  dsimp only
  by_cases hlt : xScale < yScale
  · rw [if_pos hlt, int256_mul_scale hx (by omega), max_eq_right hlt.le, Nat.sub_self, pow_zero,
      mul_one]
  · rw [if_neg hlt, int256_mul_scale hy (by omega), max_eq_left (not_lt.1 hlt), Nat.sub_self,
      pow_zero, mul_one]

end Branches

/-! ### Every storage of a decimal -/

/-- For every scale and value a decimal's storage holds, `Compare` returns the sign of the
difference, and `Mod` sets `is_nan` exactly for a zero divisor and otherwise returns the
remainder of the aligned operands, with the sign of the dividend, on whichever branch. -/
theorem compare_mod_exact {T : Storage} (hT : T ≠ .int256) {x y : Int} {xScale yScale : Nat}
    (hxs : xScale ≤ maxDigits T) (hys : yScale ≤ maxDigits T)
    (hx : |x| < 10 ^ maxDigits T) (hy : |y| < 10 ^ maxDigits T) :
    compare T x xScale y yScale = exactCompare x xScale y yScale ∧
      mod T x xScale y yScale =
        if y = 0 then (0, true) else (exactMod x xScale y yScale, false) := by
  have hwrap : y ≠ 0 → T.wrap (exactMod x xScale y yScale) = exactMod x xScale y yScale := by
    intro hy0
    have hT' : (10 : Int) ^ maxDigits T ≤ 2 ^ (T.bits - 1) := by
      cases T with
      | int256 => exact absurd rfl hT
      | _ => norm_num [maxDigits, Storage.scaleUpperBound, Storage.bits]
    obtain ⟨h1, h2⟩ := abs_lt.1 (lt_of_lt_of_le (abs_exactMod_lt hx hy hy0 xScale yScale) hT')
    exact T.wrap_of_bounds h1.le h2
  have hmod : ∀ r : Int, (y ≠ 0 → r = exactMod x xScale y yScale) →
      (if y = 0 then ((0 : Int), true) else (T.wrap r, false)) =
        if y = 0 then (0, true) else (exactMod x xScale y yScale, false) := by
    intro r hr
    split_ifs with hy0
    · rfl
    · rw [hr hy0, hwrap hy0]
  cases T with
  | int32 =>
    simp only [maxDigits, Storage.scaleUpperBound, Nat.reduceSub] at hxs hys hx hy
    have hd : ((xScale : Int) - yScale).natAbs < Storage.int64.scaleUpperBound := by
      simp only [Storage.scaleUpperBound]; omega
    have hfit := alignScales_fit (W := .int64) (by norm_num [Storage.bits]) hx hy hxs hys
    exact ⟨compareIn_eq hd hfit, hmod _ fun _ => modIn_eq hd hfit⟩
  | int64 =>
    simp only [maxDigits, Storage.scaleUpperBound, Nat.reduceSub] at hxs hys hx hy
    have hd64 : ((xScale : Int) - yScale).natAbs < Storage.int64.scaleUpperBound := by
      simp only [Storage.scaleUpperBound]; omega
    have hd128 : ((xScale : Int) - yScale).natAbs < Storage.int128.scaleUpperBound := by
      simp only [Storage.scaleUpperBound]; omega
    have hfit128 := alignScales_fit (W := .int128) (by norm_num [Storage.bits]) hx hy hxs hys
    refine ⟨compareIn_eq hd128 hfit128, hmod _ fun _ => ?_⟩
    dsimp only
    split_ifs with hlz
    · have hlz' : ((2 : Nat) : Int) ≤ minLeadingZeros 64 |x| xScale |y| yScale := by
        rw [minLeadingZeros_abs]; exact hlz
      obtain ⟨h1, h2⟩ := alignScales_lt_of_minLeadingZeros (by omega) (by omega) (by norm_num) hlz'
      have h62 : (2 : Int) ^ (64 - 2) ≤ 2 ^ (Storage.int64.bits - 1) := by
        norm_num [Storage.bits]
      exact modIn_eq hd64 ⟨lt_of_lt_of_le h1 h62, lt_of_lt_of_le h2 h62⟩
    · exact modIn_eq hd128 hfit128
  | int128 =>
    simp only [maxDigits, Storage.scaleUpperBound, Nat.reduceSub] at hxs hys hx hy
    have hd128 : ((xScale : Int) - yScale).natAbs < Storage.int128.scaleUpperBound := by
      simp only [Storage.scaleUpperBound]; omega
    refine ⟨compare16_eq hx hy hxs hys, hmod _ fun hy0 => ?_⟩
    dsimp only
    split_ifs with hlz
    · have hlz' : ((2 : Nat) : Int) ≤ minLeadingZeros 128 |x| xScale |y| yScale := by
        rw [minLeadingZeros_abs]; exact hlz
      obtain ⟨h1, h2⟩ := alignScales_lt_of_minLeadingZeros (by omega) (by omega) (by norm_num) hlz'
      have h126 : (2 : Int) ^ (128 - 2) ≤ 2 ^ (Storage.int128.bits - 1) := by
        norm_num [Storage.bits]
      exact modIn_eq hd128 ⟨lt_of_lt_of_le h1 h126, lt_of_lt_of_le h2 h126⟩
    · exact mod256_eq hx hy hxs hys hy0
  | int256 => exact absurd rfl hT

theorem compare_mod_exact_decimal16_extremes :
    Storage.int128 ≠ .int256 ∧ 38 ≤ maxDigits .int128 ∧ 0 ≤ maxDigits .int128 ∧
      |(10 ^ 38 - 1 : Int)| < 10 ^ maxDigits .int128 ∧ |(-7 : Int)| < 10 ^ maxDigits .int128 ∧
      compare .int128 (10 ^ 38 - 1) 38 (-7) 0 = exactCompare (10 ^ 38 - 1) 38 (-7) 0 ∧
      mod .int128 (10 ^ 38 - 1) 38 (-7) 0 = (exactMod (10 ^ 38 - 1) 38 (-7) 0, false) :=
  have h := @compare_mod_exact .int128 (by decide) (10 ^ 38 - 1) (-7) 38 0
    (by decide) (by decide) (by decide) (by decide)
  ⟨by decide, by decide, by decide, by decide, by decide, h.1, by rw [h.2]; rfl⟩

end Impala.DecimalValue
