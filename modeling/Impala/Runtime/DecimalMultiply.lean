import Impala.Runtime.DecimalAdd
import Impala.Runtime.MultiPrecision

/-!
Decimal multiplication (runtime/decimal-value.inline.h, `DecimalValue::Multiply`) as
`DECIMAL_ARITHMETIC_OP` runs it in the storage of the frontend's result type.

At the maximum precision `Multiply` sends a product to 256 bits on a conservative count
of leading zeros, tests overflow by a division when no scale is dropped, and brings a
scaled-down 256-bit product back with `ConvertToInt128`. Whatever the path, the result is
the rounded (or truncated) product, and overflow is reported exactly when it passes 38
nines, as long as that product is below `INT64_MAX^3`, where `ConvertToInt128` is exact
(`multiplyDecimalVal_spec`). Past it the conversion can miss the overflow.
-/

set_option autoImplicit false

namespace Impala.DecimalValue

open MachineInt DecimalUtil AggregateFunctions TypesUtil MultiPrecision IntRounding

/-- `DecimalValue<T>::Multiply<RESULT_T>(this_scale, other, other_scale, result_precision,
result_scale, round, overflow)`, with the operands already in the result's storage `R`. -/
def multiply (R : Storage) (x : Int) (thisScale : Nat) (y : Int) (otherScale : Nat)
    (resultPrecision resultScale : Nat) (round overflow : Bool) : Int × Bool :=
  if x = 0 ∨ y = 0 then (0, overflow)
  else
    let deltaScale : Int := thisScale + otherScale - resultScale
    let (needsInt256, overflow) : Bool × Bool :=
      if resultPrecision = 38 then
        let totalLeadingZeros := countLeadingZeros 128 |x| + countLeadingZeros 128 |y|
        let needsInt256 := decide (totalLeadingZeros ≤ 128)
        if needsInt256 ∧ deltaScale = 0 then
          if |x| > maxUnscaledDecimal16.tdiv |y| then (needsInt256, true) else (false, overflow)
        else (needsInt256, overflow)
      else (false, overflow)
    if needsInt256 then
      if deltaScale = 0 then (0, overflow)
      else
        let intermediateResult :=
          scaleDownAndRound .int256 (int256 (x * y)) deltaScale.toNat round
        convertToInt128 intermediateResult maxUnscaledDecimal16 overflow
    else if deltaScale = 0 then
      let result := R.wrap (x * y)
      (result, overflow || decide (resultPrecision = 38 ∧ |result| > maxUnscaledDecimal16))
    else if deltaScale ≤ 38 then
      (scaleDownAndRound R (R.wrap (x * y)) deltaScale.toNat round, overflow)
    else (0, overflow)

def multiplyDecimalVal (decimalV2 : Bool) (t1 t2 : DecimalType) (x y : Int) : Int × Bool :=
  let t := resultType decimalV2 .multiply t1 t2
  multiply (Storage.ofByteSize (getDecimalByteSize t.precision)) x t1.scale y t2.scale
    t.precision t.scale decimalV2 false

/-- The product at `resultScale` of `x` at `xScale` and `y` at `yScale`, rounded half away
from zero or truncated: what `Multiply` is meant to return. -/
def exactMultiply (round : Bool) (x : Int) (xScale : Nat) (y : Int) (yScale resultScale : Nat) :
    Int :=
  roundOrTruncate round ((x : ℚ) / 10 ^ xScale * ((y : ℚ) / 10 ^ yScale) * 10 ^ resultScale)

theorem exactMultiply_eq (round : Bool) (x : Int) (xScale : Nat) (y : Int)
    {yScale resultScale : Nat} (h : resultScale ≤ xScale + yScale) :
    exactMultiply round x xScale y yScale resultScale =
      roundOrTruncate round (((x * y : ℤ) : ℚ) / 10 ^ (xScale + yScale - resultScale)) := by
  have hsplit : (10 : ℚ) ^ (xScale + yScale) =
      10 ^ resultScale * 10 ^ (xScale + yScale - resultScale) := by
    rw [← pow_add, Nat.add_sub_cancel' h]
  rw [exactMultiply]
  congr 1
  rw [eq_div_iff (by positivity), Int.cast_mul]
  field_simp
  rw [mul_assoc ((x : ℚ) * y), ← hsplit, pow_add]
  ring

/-! ### The tests `Multiply` makes -/

theorem abs_mul_lt_of_countLeadingZeros {x y : Int}
    (h : 128 < countLeadingZeros 128 |x| + countLeadingZeros 128 |y|) : |x * y| < 2 ^ 127 := by
  simp only [countLeadingZeros] at h
  have hx : ((|x|.toNat : Nat) : Int) < 2 ^ |x|.toNat.size := by exact_mod_cast Nat.lt_size_self _
  have hy : ((|y|.toNat : Nat) : Int) < 2 ^ |y|.toNat.size := by exact_mod_cast Nat.lt_size_self _
  have hsum : |x|.toNat.size + |y|.toNat.size ≤ 127 := by omega
  rw [abs_mul, ← Int.toNat_of_nonneg (abs_nonneg x), ← Int.toNat_of_nonneg (abs_nonneg y)]
  calc ((|x|.toNat : Nat) : Int) * (|y|.toNat : Nat)
      < 2 ^ |x|.toNat.size * 2 ^ |y|.toNat.size :=
        mul_lt_mul'' hx hy (by positivity) (by positivity)
    _ = 2 ^ (|x|.toNat.size + |y|.toNat.size) := (pow_add _ _ _).symm
    _ ≤ 2 ^ 127 := pow_le_pow_right₀ (by norm_num) hsum

theorem gt_tdiv_abs_iff {x y : Int} (hy : y ≠ 0) :
    |x| > maxUnscaledDecimal16.tdiv |y| ↔ maxUnscaledDecimal16 < |x * y| := by
  rw [Int.tdiv_eq_ediv_of_nonneg (by decide), gt_iff_lt,
    Int.ediv_lt_iff_lt_mul (abs_pos.2 hy), abs_mul]

theorem multiply_of_int256 (R : Storage) {x y : Int} {thisScale otherScale resultScale : Nat}
    (round overflow : Bool) (hxy : x ≠ 0 ∧ y ≠ 0) (hx : |x| < 2 ^ 128) (hy : |y| < 2 ^ 128)
    (hlz : countLeadingZeros 128 |x| + countLeadingZeros 128 |y| ≤ 128)
    (hd : resultScale < thisScale + otherScale) :
    multiply R x thisScale y otherScale 38 resultScale round overflow =
      convertToInt128 (scaleDownAndRound .int256 (x * y) (thisScale + otherScale - resultScale)
        round) maxUnscaledDecimal16 overflow := by
  have hne : ((thisScale : Int) + otherScale - resultScale) ≠ 0 := by omega
  have hnat : ((thisScale : Int) + otherScale - resultScale).toNat =
      thisScale + otherScale - resultScale := by omega
  have hprod : int256 (x * y) = x * y := by
    apply int256_of_abs_lt
    rw [abs_mul]
    calc |x| * |y| < 2 ^ 128 * 2 ^ 128 := mul_lt_mul'' hx hy (abs_nonneg _) (abs_nonneg _)
      _ = 2 ^ 256 := by norm_num
  simp only [multiply, not_or.2 hxy, if_false, if_true, hlz, decide_true, hne, and_false,
    hnat, hprod]

/-- What the frontend's types give `Multiply`: the operands are 128-bit values, the scale
dropped is within the 256-bit table, the maximum precision is held in 128 bits, and below
it no scale is dropped and the product fits both the storage and the decimal range. -/
structure MultiplyFits (R : Storage) (x : Int) (thisScale : Nat) (y : Int) (otherScale : Nat)
    (resultPrecision resultScale : Nat) : Prop where
  operands : |x| < 2 ^ 127 ∧ |y| < 2 ^ 127
  scale_le : resultScale ≤ thisScale + otherScale
  delta_lt : thisScale + otherScale - resultScale < Storage.int256.scaleUpperBound
  storage : resultPrecision = 38 → R = .int128
  small : resultPrecision ≠ 38 → resultScale = thisScale + otherScale ∧
    |x * y| ≤ maxUnscaledDecimal16 ∧ |x * y| < 2 ^ (R.bits - 1)

theorem abs_roundOrTruncate_div_le (round : Bool) {v : Int} (hv : |v| < 2 ^ 127) {d : Nat}
    (hd : 0 < d) : |roundOrTruncate round ((v : ℚ) / 10 ^ d)| ≤ maxUnscaledDecimal16 := by
  have hK : |(v : ℚ) / 10 ^ d| ≤ ((2 ^ 124 : ℤ) : ℚ) := by
    have hv' : |(v : ℚ)| < 2 ^ 127 := by exact_mod_cast hv
    have h10 : (10 : ℚ) ≤ 10 ^ d := le_self_pow₀ (by norm_num) hd.ne'
    rw [abs_div, abs_of_pos (by positivity : (0 : ℚ) < 10 ^ d), div_le_iff₀ (by positivity)]
    push_cast
    calc |(v : ℚ)| ≤ 2 ^ 127 := hv'.le
      _ ≤ 2 ^ 124 * 10 := by norm_num
      _ ≤ 2 ^ 124 * 10 ^ d := by gcongr
  calc |roundOrTruncate round ((v : ℚ) / 10 ^ d)| ≤ 2 ^ 124 := abs_roundOrTruncate_le round hK
    _ ≤ maxUnscaledDecimal16 := by norm_num [maxUnscaledDecimal16]

theorem roundOrTruncate_div_eq_zero (round : Bool) {v : Int} (hv : |v| < 2 ^ 127) {d : Nat}
    (hd : 38 < d) : roundOrTruncate round ((v : ℚ) / 10 ^ d) = 0 := by
  apply roundOrTruncate_eq_zero
  have hv' : |(v : ℚ)| < 2 ^ 127 := by exact_mod_cast hv
  have h10 : (10 : ℚ) ^ 39 ≤ 10 ^ d := pow_le_pow_right₀ (by norm_num) hd
  rw [abs_div, abs_of_pos (by positivity : (0 : ℚ) < 10 ^ d), div_lt_iff₀ (by positivity)]
  calc |(v : ℚ)| < 2 ^ 127 := hv'
    _ ≤ 1 / 2 * 10 ^ 39 := by norm_num
    _ ≤ 1 / 2 * 10 ^ d := by gcongr

theorem multiply_spec (round : Bool) {R : Storage} {x y : Int}
    {thisScale otherScale resultPrecision resultScale : Nat}
    (hfits : MultiplyFits R x thisScale y otherScale resultPrecision resultScale)
    (hr : |exactMultiply round x thisScale y otherScale resultScale| < base ^ 3) :
    (multiply R x thisScale y otherScale resultPrecision resultScale round false).2 =
        decide (maxUnscaledDecimal16 < |exactMultiply round x thisScale y otherScale resultScale|) ∧
      (|exactMultiply round x thisScale y otherScale resultScale| ≤ maxUnscaledDecimal16 →
        (multiply R x thisScale y otherScale resultPrecision resultScale round false).1 =
          exactMultiply round x thisScale y otherScale resultScale) := by
  have hmax := maxUnscaledDecimal16_lt
  have hmax0 : (0 : Int) ≤ maxUnscaledDecimal16 := by decide
  rw [exactMultiply_eq round x thisScale y hfits.scale_le] at hr ⊢
  obtain ⟨d, hd⟩ : ∃ d, thisScale + otherScale - resultScale = d := ⟨_, rfl⟩
  have hdelta : (thisScale : Int) + otherScale - resultScale = d := by
    have := hfits.scale_le; omega
  have hdnat : ((thisScale : Int) + otherScale - resultScale).toNat = d := by omega
  rw [hd] at hr ⊢
  by_cases hz : x = 0 ∨ y = 0
  · have h0 : x * y = 0 := by rcases hz with rfl | rfl <;> simp
    simp [multiply, hz, h0, hmax0]
  have hxy := not_or.1 hz
  by_cases hp : resultPrecision = 38
  · subst hp
    rw [hfits.storage rfl]
    by_cases hlz : countLeadingZeros 128 |x| + countLeadingZeros 128 |y| ≤ 128
    · rcases Nat.eq_zero_or_pos d with rfl | hd0
      · simp only [multiply, hz, if_false, if_true, hdelta, hlz, decide_true, Nat.cast_zero,
          and_self, pow_zero, div_one, roundOrTruncate_intCast]
        by_cases hdiv : |x| > maxUnscaledDecimal16.tdiv |y|
        · have hbig := (gt_tdiv_abs_iff hxy.2).1 hdiv
          simp only [hdiv, if_true, decide_eq_true hbig]
          exact ⟨trivial, fun h => absurd h (not_le.2 hbig)⟩
        · have hle := not_lt.1 (mt (gt_tdiv_abs_iff hxy.2).2 hdiv)
          have hwrap : Storage.int128.wrap (x * y) = x * y :=
            Storage.wrap_of_bounds _ (by simp only [Storage.bits]; rw [abs_le] at hle; omega)
              (by simp only [Storage.bits]; rw [abs_le] at hle; omega)
          simp only [hdiv, if_false, hwrap, Bool.false_eq_true, true_and, gt_iff_lt,
            not_lt.2 hle, decide_false, Bool.or_false]
          exact fun _ => trivial
      · rw [multiply_of_int256 .int128 round false hxy (by linarith [hfits.operands.1])
            (by linarith [hfits.operands.2]) hlz (by omega), hd,
          scaleDownAndRound_eq hd0 (by have := hfits.delta_lt; omega) (x * y) round]
        have hnat : (roundOrTruncate round (((x * y : ℤ) : ℚ) / 10 ^ d)).natAbs < base ^ 3 := by
          have : ((roundOrTruncate round (((x * y : ℤ) : ℚ) / 10 ^ d)).natAbs : Int) <
              ((base ^ 3 : Nat) : Int) := by
            rw [Int.natCast_natAbs, Nat.cast_pow]; exact hr
          exact_mod_cast this
        have h := convertToInt128_of_lt (by decide) hmax false hnat
        rw [Bool.false_or] at h
        exact h
    · have hfit := abs_mul_lt_of_countLeadingZeros (not_le.1 hlz)
      have hwrap : Storage.int128.wrap (x * y) = x * y := by
        rw [abs_lt] at hfit
        exact Storage.wrap_of_bounds _ (by simp only [Storage.bits]; omega)
          (by simp only [Storage.bits]; omega)
      simp only [multiply, hz, if_false, if_true, hdelta, hlz, decide_false, hwrap,
        Bool.false_eq_true, false_and, if_false, Nat.cast_eq_zero, Nat.cast_le_ofNat,
        Int.toNat_natCast]
      rcases Nat.eq_zero_or_pos d with rfl | hd0
      · simp only [if_true, true_and, gt_iff_lt, Bool.false_or, pow_zero, div_one,
          roundOrTruncate_intCast]
        exact fun _ => trivial
      rw [if_neg hd0.ne']
      by_cases hd38 : d ≤ 38
      · have hle := abs_roundOrTruncate_div_le round hfit hd0
        rw [if_pos hd38, scaleDownAndRound_eq hd0 (by simp only [Storage.scaleUpperBound]; omega)]
        exact ⟨(decide_eq_false (not_lt.2 hle)).symm, fun _ => rfl⟩
      · rw [if_neg hd38, roundOrTruncate_div_eq_zero round hfit (by omega)]
        simp [hmax0]
  · obtain ⟨hs0, hle, hfit⟩ := hfits.small hp
    have hd0 : d = 0 := by omega
    subst hd0
    have hwrap : R.wrap (x * y) = x * y := by
      rw [abs_lt] at hfit
      exact R.wrap_of_bounds (by omega) hfit.2
    simp only [multiply, hz, if_false, hp, hdelta, hwrap, Nat.cast_zero, pow_zero, div_one,
      roundOrTruncate_intCast, Bool.false_eq_true, if_true, false_and, decide_false,
      Bool.or_false, not_lt.2 hle]
    exact ⟨trivial, fun _ => trivial⟩

theorem multiplyFits_resultType (decimalV2 : Bool) (t1 t2 : DecimalType) {x y : Int}
    (hx : |x| < 10 ^ t1.precision) (hy : |y| < 10 ^ t2.precision) :
    MultiplyFits
      (Storage.ofByteSize (getDecimalByteSize (resultType decimalV2 .multiply t1 t2).precision))
      x t1.scale y t2.scale (resultType decimalV2 .multiply t1 t2).precision
      (resultType decimalV2 .multiply t1 t2).scale := by
  have hp1 := t1.precision_le
  have hp2 := t2.precision_le
  have hs1 := t1.scale_le
  have hs2 := t2.scale_le
  simp only [maxPrecision] at hp1 hp2
  have hs := resultType_multiply_scale_le decimalV2 t1 t2
  have hlt := resultType_multiply_of_lt decimalV2 t1 t2
  obtain ⟨t, ht⟩ : ∃ t, resultType decimalV2 .multiply t1 t2 = t := ⟨_, rfl⟩
  rw [ht] at hs hlt ⊢
  have h38 : (10 : Int) ^ 38 < 2 ^ 127 := by norm_num
  have hx' : |x| < 2 ^ 127 := lt_of_lt_of_le hx (by
    calc (10 : Int) ^ t1.precision ≤ 10 ^ 38 := pow_le_pow_right₀ (by norm_num) hp1
      _ ≤ 2 ^ 127 := h38.le)
  have hy' : |y| < 2 ^ 127 := lt_of_lt_of_le hy (by
    calc (10 : Int) ^ t2.precision ≤ 10 ^ 38 := pow_le_pow_right₀ (by norm_num) hp2
      _ ≤ 2 ^ 127 := h38.le)
  refine ⟨⟨hx', hy'⟩, hs, by simp only [Storage.scaleUpperBound]; omega, fun h => by rw [h]; rfl,
    fun hp => ?_⟩
  have htp := t.precision_le
  simp only [maxPrecision] at htp hlt
  obtain ⟨hscale, hprec⟩ := hlt (by omega)
  have hprod : |x * y| < 10 ^ t.precision := by
    rw [abs_mul]
    calc |x| * |y| < 10 ^ t1.precision * 10 ^ t2.precision :=
          mul_lt_mul'' hx hy (abs_nonneg _) (abs_nonneg _)
      _ = 10 ^ (t1.precision + t2.precision) := (pow_add _ _ _).symm
      _ ≤ 10 ^ t.precision := pow_le_pow_right₀ (by norm_num) hprec
  have hstore := Storage.pow_ten_le_ofByteSize (p := t.precision) (by omega)
  have h37 : (10 : Int) ^ t.precision ≤ 10 ^ 37 := pow_le_pow_right₀ (by norm_num) (by omega)
  have h37' : (10 : Int) ^ 37 < 10 ^ 38 := by norm_num
  refine ⟨hscale, ?_, by omega⟩
  simp only [maxUnscaledDecimal16]
  omega

theorem multiplyDecimalVal_spec (decimalV2 : Bool) (t1 t2 : DecimalType) {x y : Int}
    (hx : |x| < 10 ^ t1.precision) (hy : |y| < 10 ^ t2.precision)
    (hr : |exactMultiply decimalV2 x t1.scale y t2.scale
      (resultType decimalV2 .multiply t1 t2).scale| < base ^ 3) :
    (multiplyDecimalVal decimalV2 t1 t2 x y).2 = decide (maxUnscaledDecimal16 <
        |exactMultiply decimalV2 x t1.scale y t2.scale (resultType decimalV2 .multiply t1 t2).scale|) ∧
      (|exactMultiply decimalV2 x t1.scale y t2.scale (resultType decimalV2 .multiply t1 t2).scale| ≤
          maxUnscaledDecimal16 →
        (multiplyDecimalVal decimalV2 t1 t2 x y).1 =
          exactMultiply decimalV2 x t1.scale y t2.scale (resultType decimalV2 .multiply t1 t2).scale) :=
  multiply_spec decimalV2 (multiplyFits_resultType decimalV2 t1 t2 hx hy) hr

/-! ### Past `INT64_MAX^3` -/

theorem exactMultiply_base_cube (round : Bool) {thisScale otherScale resultScale : Nat}
    (hd : thisScale + otherScale = resultScale + 1) :
    exactMultiply round (10 * base) thisScale (base ^ 2) otherScale resultScale = base ^ 3 := by
  have hq : (((10 * base * base ^ 2 : Int)) : ℚ) / 10 ^ 1 = ((base ^ 3 : Int) : ℚ) := by
    push_cast
    ring
  rw [exactMultiply_eq _ _ _ _ (by omega), show thisScale + otherScale - resultScale = 1 by omega,
    hq, roundOrTruncate_intCast]

theorem multiply_base_cube (R : Storage) (round : Bool) {thisScale otherScale resultScale : Nat}
    (hd : thisScale + otherScale = resultScale + 1) :
    multiply R (10 * base) thisScale (base ^ 2) otherScale 38 resultScale round false =
      (int128 (base ^ 3), false) := by
  have hx : |(10 * base : Int)| = ((10 * base : Nat) : Int) := by
    push_cast
    exact abs_of_nonneg (by positivity)
  have hy : |(base ^ 2 : Int)| = ((base ^ 2 : Nat) : Int) := by
    push_cast
    exact abs_of_nonneg (by positivity)
  have hlz : countLeadingZeros 128 |(10 * base : Int)| + countLeadingZeros 128 |(base ^ 2 : Int)|
      ≤ 128 := by
    have h1 : 66 < (10 * base).size := Nat.lt_size.2 (by norm_num [base])
    have h2 : 125 < (base ^ 2).size := Nat.lt_size.2 (by norm_num [base])
    simp only [countLeadingZeros, hx, hy, Int.toNat_natCast]
    omega
  have hv : ((0 : Nat) : Int) ≤ maxUnscaledDecimal16 - int128 (base ^ 3) := by
    rw [int128_base_cube]
    norm_num [maxUnscaledDecimal16]
  have hconv := convertToInt128_base_cube_add false hv
  rw [show (((base ^ 3 + 0 : Nat)) : Int) = base ^ 3 by push_cast; ring, Nat.cast_zero,
    add_zero] at hconv
  rw [multiply_of_int256 R round false ⟨by norm_num [base], by norm_num [base]⟩
      (by rw [hx]; norm_num [base]) (by rw [hy]; norm_num [base]) hlz (by omega),
    scaleDownAndRound_eq (by omega) (by simp only [Storage.scaleUpperBound]; omega),
    ← exactMultiply_eq round _ _ _ (by omega), exactMultiply_base_cube round hd, hconv]

def decimal38x20 : DecimalType :=
  ⟨38, 20, decimal38x0.one_le_precision, decimal38x0.precision_le, by decide⟩

def decimal38x19 : DecimalType :=
  ⟨38, 19, decimal38x0.one_le_precision, decimal38x0.precision_le, by decide⟩

def decimal38x7 : DecimalType :=
  ⟨38, 7, decimal38x0.one_le_precision, decimal38x0.precision_le, by decide⟩

theorem multiplyDecimalVal_misses_overflow :
    (|(10 * base : Int)| < 10 ^ decimal38x20.precision ∧
      |(base ^ 2 : Int)| < 10 ^ decimal38x19.precision) ∧
    (multiplyDecimalVal false decimal38x20 decimal38x19 (10 * base) (base ^ 2) =
        (int128 (base ^ 3), false) ∧
      exactMultiply false (10 * base) decimal38x20.scale (base ^ 2) decimal38x19.scale
        (resultType false .multiply decimal38x20 decimal38x19).scale = base ^ 3) ∧
    (multiplyDecimalVal true decimal38x7 decimal38x0 (10 * base) (base ^ 2) =
        (int128 (base ^ 3), false) ∧
      exactMultiply true (10 * base) decimal38x7.scale (base ^ 2) decimal38x0.scale
        (resultType true .multiply decimal38x7 decimal38x0).scale = base ^ 3) ∧
    maxUnscaledDecimal16 < base ^ 3 := by
  refine ⟨⟨by norm_num [base, decimal38x20], by norm_num [base, decimal38x19]⟩, ⟨?_, ?_⟩,
    ⟨?_, ?_⟩, by norm_num [maxUnscaledDecimal16, base]⟩
  · have hT : (resultType false .multiply decimal38x20 decimal38x19).precision = 38 ∧
        (resultType false .multiply decimal38x20 decimal38x19).scale = 38 := by decide
    simp only [multiplyDecimalVal, hT.1, hT.2]
    exact multiply_base_cube _ false (by decide)
  · apply exactMultiply_base_cube
    decide
  · have hT : (resultType true .multiply decimal38x7 decimal38x0).precision = 38 ∧
        (resultType true .multiply decimal38x7 decimal38x0).scale = 6 := by decide
    simp only [multiplyDecimalVal, hT.1, hT.2]
    exact multiply_base_cube _ true (by decide)
  · apply exactMultiply_base_cube
    decide

end Impala.DecimalValue
