import Impala.Util.DecimalUtil
import Impala.Analysis.TypesUtil
import Mathlib.Data.Nat.Size
import Mathlib.Tactic.LinearCombination

/-!
Decimal addition and subtraction (runtime/decimal-value.inline.h, `DecimalValue::Add`
with `detail::MinLeadingZeros`, `SeparateFractional`, `AddLarge` and `SubtractLarge`),
as `DECIMAL_ARITHMETIC_OP` (exprs/decimal-operators-ir.cc) runs it in the storage of the
result type the frontend chose.

Operations the source makes through `ArithmeticUtil::AsUnsigned` or `SafeMultiply` wrap
at 128 bits; its plain signed operations, whose overflow would be undefined, are exact.
-/

set_option autoImplicit false

namespace Impala.DecimalValue

open MachineInt DecimalUtil AggregateFunctions TypesUtil

def floorLog2PlusOne : List Nat :=
  [0, 4, 7, 10, 14, 17, 20, 24, 27, 30,
   34, 37, 40, 44, 47, 50, 54, 57, 60, 64,
   67, 70, 74, 77, 80, 84, 87, 90, 94, 97,
   100, 103, 107, 110, 113, 117, 120, 123, 127, 130,
   133, 137, 140, 143, 147, 150, 153, 157, 160, 163,
   167, 170, 173, 177, 180, 183, 187, 190, 193, 196,
   200, 203, 206, 210, 213, 216, 220, 223, 226, 230,
   233, 236, 240, 243, 246, 250, 253]

def maxBitsRequiredIncreaseAfterScaling (scaleBy : Nat) : Nat := floorLog2PlusOne.getD scaleBy 0

def minLeadingZerosAfterScaling (numLz : Int) (scaleBy : Nat) : Int :=
  numLz - maxBitsRequiredIncreaseAfterScaling scaleBy

def countLeadingZeros (w : Nat) (v : Int) : Nat := w - v.toNat.size

/-- `detail::MinLeadingZeros<T>(x, x_scale, y, y_scale)`: the fewest leading zeros of
either operand once the one of smaller scale is scaled up. -/
def minLeadingZeros (w : Nat) (x : Int) (xScale : Nat) (y : Int) (yScale : Nat) : Int :=
  let xLz : Int := countLeadingZeros w |x|
  let yLz : Int := countLeadingZeros w |y|
  if xScale < yScale then min (minLeadingZerosAfterScaling xLz (yScale - xScale)) yLz
  else if xScale > yScale then min xLz (minLeadingZerosAfterScaling yLz (xScale - yScale))
  else min xLz yLz

def adjustToSameScale (R : Storage) (x : Int) (xScale : Nat) (y : Int) (yScale : Nat) :
    Int × Int :=
  let scaleFactor := getScaleMultiplier R ((xScale : Int) - yScale).natAbs
  if xScale = yScale then (x, y)
  else if xScale > yScale then (x, R.wrap (y * scaleFactor))
  else (R.wrap (x * scaleFactor), y)

/-- `detail::SeparateFractional`: the whole parts, and the fractional parts at the larger
scale. -/
def separateFractional (x : Int) (xScale : Nat) (y : Int) (yScale : Nat) :
    Int × Int × Int × Int :=
  let m := getScaleMultiplier .int128
  let xLeft := x.tdiv (m xScale)
  let yLeft := y.tdiv (m yScale)
  let xRight := x.tmod (m xScale)
  let yRight := y.tmod (m yScale)
  if xScale < yScale then (xLeft, xRight * m (yScale - xScale), yLeft, yRight)
  else (xLeft, xRight, yLeft, yRight * m (xScale - yScale))

/-- `detail::AddLarge` of two non-negative values: whole and fractional parts added
apart, with a carry, and the overflow flag it sets. -/
def addLarge (x : Int) (xScale : Nat) (y : Int) (yScale : Nat) (resultScale : Nat)
    (round overflow : Bool) : Int × Bool :=
  let (xLeft, xRight, yLeft, yRight) := separateFractional x xScale y yScale
  let maxScale := max xScale yScale
  let resultScaleDecrease := maxScale - resultScale
  let scaleMax := getScaleMultiplier .int128 maxScale
  let (carryToLeft, right) : Int × Int :=
    if xRight ≥ scaleMax - yRight then (1, xRight - scaleMax + yRight)
    else (0, xRight + yRight)
  let right :=
    if resultScaleDecrease > 0 then scaleDownAndRound .int128 right resultScaleDecrease round
    else right
  let overflow := overflow || decide (xLeft > maxUnscaledDecimal16 - yLeft - carryToLeft)
  let left := int128 (int128 (xLeft + yLeft) + carryToLeft)
  let mult := getScaleMultiplier .int128 resultScale
  let overflow :=
    if !overflow && decide (left > (maxUnscaledDecimal16 - right).tdiv mult) then true
    else overflow
  (int128 (int128 (left * mult) + right), overflow)

/-- `detail::SubtractLarge` of two values of opposite signs: the fractional part is
given the sign of the whole part before it is scaled down. -/
def subtractLarge (x : Int) (xScale : Nat) (y : Int) (yScale : Nat) (resultScale : Nat)
    (round overflow : Bool) : Int × Bool :=
  let (xLeft, xRight, yLeft, yRight) := separateFractional x xScale y yScale
  let maxScale := max xScale yScale
  let resultScaleDecrease := maxScale - resultScale
  let scaleMax := getScaleMultiplier .int128 maxScale
  let (left, right) : Int × Int :=
    let left := xLeft + yLeft
    let right := xRight + yRight
    if left < 0 ∧ right > 0 then (left + 1, right - scaleMax)
    else if left > 0 ∧ right < 0 then (left - 1, right + scaleMax)
    else (left, right)
  let right :=
    if resultScaleDecrease > 0 then scaleDownAndRound .int128 right resultScaleDecrease round
    else right
  let mult := getScaleMultiplier .int128 resultScale
  let overflow := if |left| > (maxUnscaledDecimal16 - |right|).tdiv mult then true else overflow
  (int128 (left * mult) + right, overflow)

/-- `DecimalValue<T>::Add<RESULT_T>(this_scale, other, other_scale, result_precision,
result_scale, round, overflow)`, with `T` the result's storage `R`. -/
def add (R : Storage) (x : Int) (thisScale : Nat) (y : Int) (otherScale : Nat)
    (resultPrecision resultScale : Nat) (round overflow : Bool) : Int × Bool :=
  if R.bits < 128 ∨ resultPrecision < 38 then
    let (x, y) := adjustToSameScale R x thisScale y otherScale
    (x + y, overflow)
  else
    let minLz := minLeadingZeros 128 |x| thisScale |y| otherScale
    let resultScaleDecrease := max (thisScale - resultScale) (otherScale - resultScale)
    if minLz ≥ 3 then
      let (x, y) := adjustToSameScale R x thisScale y otherScale
      let x := x + y
      let x := if resultScaleDecrease > 0 then scaleDownAndRound R x resultScaleDecrease round
        else x
      (x, overflow)
    else if x ≥ 0 ∧ y ≥ 0 then addLarge x thisScale y otherScale resultScale round overflow
    else if x ≤ 0 ∧ y ≤ 0 then
      let r := addLarge (-x) thisScale (-y) otherScale resultScale round overflow
      (-r.1, r.2)
    else subtractLarge x thisScale y otherScale resultScale round overflow

def subtract (R : Storage) (x : Int) (thisScale : Nat) (y : Int) (otherScale : Nat)
    (resultPrecision resultScale : Nat) (round overflow : Bool) : Int × Bool :=
  add R x thisScale (-y) otherScale resultPrecision resultScale round overflow

/-- `DecimalOperators::Add_DecimalVal_DecimalVal`, on operands of types `t1` and `t2`
already in the result's storage: the result type is the frontend's, `round` is
`DECIMAL_V2`, and the overflow flag starts clear. -/
def addDecimalVal (decimalV2 : Bool) (t1 t2 : DecimalType) (x y : Int) : Int × Bool :=
  let t := resultType decimalV2 .add t1 t2
  add (Storage.ofByteSize (getDecimalByteSize t.precision)) x t1.scale y t2.scale
    t.precision t.scale decimalV2 false

def subtractDecimalVal (decimalV2 : Bool) (t1 t2 : DecimalType) (x y : Int) : Int × Bool :=
  let t := resultType decimalV2 .subtract t1 t2
  subtract (Storage.ofByteSize (getDecimalByteSize t.precision)) x t1.scale y t2.scale
    t.precision t.scale decimalV2 false

open IntRounding

/-- The sum at `resultScale` of `x` at `xScale` and `y` at `yScale`, rounded half away
from zero or truncated: what `Add` is meant to return. -/
def exactAdd (round : Bool) (x : Int) (xScale : Nat) (y : Int) (yScale resultScale : Nat) :
    Int :=
  roundOrTruncate round (((x : ℚ) / 10 ^ xScale + (y : ℚ) / 10 ^ yScale) * 10 ^ resultScale)

/-- The difference at `resultScale`, rounded half away from zero or truncated. -/
def exactSubtract (round : Bool) (x : Int) (xScale : Nat) (y : Int) (yScale resultScale : Nat) :
    Int :=
  roundOrTruncate round (((x : ℚ) / 10 ^ xScale - (y : ℚ) / 10 ^ yScale) * 10 ^ resultScale)

theorem exactSubtract_eq (round : Bool) (x : Int) (xScale : Nat) (y : Int)
    (yScale resultScale : Nat) :
    exactSubtract round x xScale y yScale resultScale =
      exactAdd round x xScale (-y) yScale resultScale := by
  simp only [exactSubtract, exactAdd, Int.cast_neg, neg_div, sub_eq_add_neg]

theorem getScaleMultiplier_int128 {k : Nat} (hk : k ≤ 38) :
    getScaleMultiplier .int128 k = 10 ^ k :=
  getScaleMultiplier_of_lt (by simp only [Storage.scaleUpperBound]; omega)

/-! ### The leading-zero estimate -/

theorem pow_ten_le_maxBits : ∀ k < 77, 10 ^ k ≤ 2 ^ maxBitsRequiredIncreaseAfterScaling k := by
  decide

theorem mul_pow_ten_lt_of_le_minLeadingZeros {w : Nat} {v : Int} (hv : 0 ≤ v) {k b : Nat}
    (hk : k < 77) (hb : 1 ≤ b)
    (h : (b : Int) ≤ minLeadingZerosAfterScaling (countLeadingZeros w v) k) :
    v * 10 ^ k < 2 ^ (w - b) := by
  simp only [minLeadingZerosAfterScaling, countLeadingZeros] at h
  have hsize : v.toNat.size + maxBitsRequiredIncreaseAfterScaling k ≤ w - b := by omega
  have hn : (v.toNat : Int) < 2 ^ v.toNat.size := by exact_mod_cast Nat.lt_size_self _
  have hpow : (10 : Int) ^ k ≤ 2 ^ maxBitsRequiredIncreaseAfterScaling k := by
    exact_mod_cast pow_ten_le_maxBits k hk
  calc v * 10 ^ k = (v.toNat : Int) * 10 ^ k := by rw [Int.toNat_of_nonneg hv]
    _ < 2 ^ v.toNat.size * 2 ^ maxBitsRequiredIncreaseAfterScaling k :=
      mul_lt_mul_of_lt_of_le_of_nonneg_of_pos hn hpow (by positivity) (by positivity)
    _ = 2 ^ (v.toNat.size + maxBitsRequiredIncreaseAfterScaling k) := by rw [pow_add]
    _ ≤ 2 ^ (w - b) := pow_le_pow_right₀ (by norm_num) hsize

def alignScales (x : Int) (xScale : Nat) (y : Int) (yScale : Nat) : Int × Int :=
  (x * 10 ^ (max xScale yScale - xScale), y * 10 ^ (max xScale yScale - yScale))

theorem alignScales_lt_of_minLeadingZeros {w b : Nat} {x y : Int} {xScale yScale : Nat}
    (hx : xScale < 77) (hy : yScale < 77) (hb : 1 ≤ b)
    (h : (b : Int) ≤ minLeadingZeros w |x| xScale |y| yScale) :
    |(alignScales x xScale y yScale).1| < 2 ^ (w - b) ∧
      |(alignScales x xScale y yScale).2| < 2 ^ (w - b) := by
  have key : ∀ (v : Int) (k : Nat), k < 77 →
      (b : Int) ≤ minLeadingZerosAfterScaling (countLeadingZeros w |v|) k →
        |v * 10 ^ k| < 2 ^ (w - b) := by
    intro v k hk h
    rw [abs_mul, abs_pow, abs_of_pos (by norm_num : (0 : Int) < 10)]
    exact mul_pow_ten_lt_of_le_minLeadingZeros (abs_nonneg v) hk hb h
  have key0 : ∀ v : Int, (b : Int) ≤ (countLeadingZeros w |v| : Int) → |v * 10 ^ 0| < 2 ^ (w - b) :=
    fun v h => key v 0 (by norm_num) (by
      simpa [minLeadingZerosAfterScaling, maxBitsRequiredIncreaseAfterScaling, floorLog2PlusOne]
        using h)
  simp only [minLeadingZeros, abs_abs] at h
  simp only [alignScales]
  rcases lt_trichotomy xScale yScale with hlt | heq | hgt
  · rw [if_pos hlt] at h
    rw [max_eq_right hlt.le, Nat.sub_self]
    exact ⟨key x _ (by omega) (le_min_iff.1 h).1, key0 y (le_min_iff.1 h).2⟩
  · subst heq
    rw [if_neg (lt_irrefl _), if_neg (lt_irrefl _)] at h
    rw [max_self, Nat.sub_self]
    exact ⟨key0 x (le_min_iff.1 h).1, key0 y (le_min_iff.1 h).2⟩
  · rw [if_neg (by omega), if_pos hgt] at h
    rw [max_eq_left hgt.le, Nat.sub_self]
    exact ⟨key0 x (le_min_iff.1 h).1, key y _ (by omega) (le_min_iff.1 h).2⟩

theorem adjustToSameScale_eq {R : Storage} {x y : Int} {xScale yScale : Nat}
    (hd : ((xScale : Int) - yScale).natAbs < R.scaleUpperBound)
    (hfit : |(alignScales x xScale y yScale).1| < 2 ^ (R.bits - 1) ∧
      |(alignScales x xScale y yScale).2| < 2 ^ (R.bits - 1)) :
    adjustToSameScale R x xScale y yScale = alignScales x xScale y yScale := by
  simp only [alignScales] at hfit ⊢
  obtain ⟨hx1, hx2⟩ := abs_lt.1 hfit.1
  obtain ⟨hy1, hy2⟩ := abs_lt.1 hfit.2
  rw [adjustToSameScale, getScaleMultiplier_of_lt hd]
  rcases lt_trichotomy xScale yScale with hlt | rfl | hgt
  · rw [max_eq_right hlt.le] at hx1 hx2 ⊢
    rw [if_neg hlt.ne, if_neg (by omega), show ((xScale : Int) - yScale).natAbs = yScale - xScale
      by omega, R.wrap_of_bounds hx1.le hx2]
    simp
  · simp
  · rw [max_eq_left hgt.le] at hy1 hy2 ⊢
    rw [if_neg hgt.ne', if_pos hgt, show ((xScale : Int) - yScale).natAbs = xScale - yScale
      by omega, R.wrap_of_bounds hy1.le hy2]
    simp

theorem exact_eq_alignScales (x y : Int) (xScale yScale scale : Nat)
    (hs : scale ≤ max xScale yScale) :
    ((x : ℚ) / 10 ^ xScale + (y : ℚ) / 10 ^ yScale) * 10 ^ scale =
      (((alignScales x xScale y yScale).1 + (alignScales x xScale y yScale).2 : ℤ) : ℚ) /
        10 ^ (max xScale yScale - scale) := by
  have hsplit : ∀ k : Nat, k ≤ max xScale yScale →
      (10 : ℚ) ^ max xScale yScale = 10 ^ k * 10 ^ (max xScale yScale - k) := fun k hk => by
    rw [← pow_add, Nat.add_sub_cancel' hk]
  have hx := hsplit xScale (le_max_left _ _)
  have hy := hsplit yScale (le_max_right _ _)
  have hm := hsplit scale hs
  simp only [alignScales]
  push_cast
  rw [eq_div_iff (by positivity)]
  calc ((x : ℚ) / 10 ^ xScale + y / 10 ^ yScale) * 10 ^ scale * 10 ^ (max xScale yScale - scale)
      = ((x : ℚ) / 10 ^ xScale + y / 10 ^ yScale) * 10 ^ max xScale yScale := by
        rw [hm]; ring
    _ = x * 10 ^ (max xScale yScale - xScale) + y * 10 ^ (max xScale yScale - yScale) := by
        rw [add_mul]
        congr 1
        · rw [hx]; field_simp
        · rw [hy]; field_simp

/-! ### Whole and fractional parts -/

theorem tmod_pow_ten (v : Int) (k : Nat) :
    |v.tmod (10 ^ k)| < 10 ^ k ∧ (0 ≤ v → 0 ≤ v.tmod (10 ^ k)) ∧
      (v ≤ 0 → v.tmod (10 ^ k) ≤ 0) := by
  have hpos : (0 : Int) < 10 ^ k := by positivity
  rcases le_or_gt 0 v with hv | hv
  · rw [Int.tmod_eq_emod_of_nonneg hv]
    have h1 := Int.emod_nonneg v hpos.ne'
    have h2 := Int.emod_lt_of_pos v hpos
    refine ⟨by rw [abs_of_nonneg h1]; exact h2, fun _ => h1, fun h => ?_⟩
    rw [le_antisymm h hv, Int.zero_emod]
  · have hneg : v.tmod (10 ^ k) = -((-v) % 10 ^ k) := by
      rw [← Int.tmod_eq_emod_of_nonneg (by omega), Int.neg_tmod, neg_neg]
    have h1 := Int.emod_nonneg (-v) hpos.ne'
    have h2 := Int.emod_lt_of_pos (-v) hpos
    rw [hneg]
    exact ⟨by rw [abs_neg, abs_of_nonneg h1]; exact h2, fun h => absurd h (by omega),
      fun _ => by omega⟩

/-- `l` and `r` are the whole part of `v`, of scale `k`, and its fractional part at the
scale `m`: `v` at scale `m` is `l * 10^m + r`, and both have the sign of `v`. -/
structure Parts (v : Int) (k m : Nat) (l r : Int) : Prop where
  eq : v * 10 ^ (m - k) = l * 10 ^ m + r
  abs_lt : |r| < 10 ^ m
  nonneg : 0 ≤ v → 0 ≤ l ∧ 0 ≤ r
  nonpos : v ≤ 0 → l ≤ 0 ∧ r ≤ 0

theorem parts_tdiv_tmod (v : Int) {k m : Nat} (hkm : k ≤ m) :
    Parts v k m (v.tdiv (10 ^ k)) (v.tmod (10 ^ k) * 10 ^ (m - k)) := by
  obtain ⟨hlt, hnn, hnp⟩ := tmod_pow_ten v k
  have hm : (10 : Int) ^ m = 10 ^ k * 10 ^ (m - k) := by rw [← pow_add, Nat.add_sub_cancel' hkm]
  have hpos : (0 : Int) < 10 ^ (m - k) := by positivity
  refine ⟨?_, ?_, fun hv => ⟨Int.tdiv_nonneg hv (by positivity), ?_⟩, fun hv => ⟨?_, ?_⟩⟩
  · conv_lhs => rw [← Int.tdiv_mul_add_tmod v (10 ^ k)]
    rw [hm]
    ring
  · rw [abs_mul, abs_of_pos hpos, hm]
    exact mul_lt_mul_of_pos_right hlt hpos
  · exact mul_nonneg (hnn hv) hpos.le
  · have := Int.tdiv_nonneg (a := -v) (by omega) (b := 10 ^ k) (by positivity)
    rw [Int.neg_tdiv] at this
    omega
  · exact mul_nonpos_of_nonpos_of_nonneg (hnp hv) hpos.le

theorem separateFractional_parts {x y : Int} {xScale yScale : Nat} (hx : xScale ≤ 38)
    (hy : yScale ≤ 38) :
    Parts x xScale (max xScale yScale) (separateFractional x xScale y yScale).1
        (separateFractional x xScale y yScale).2.1 ∧
      Parts y yScale (max xScale yScale) (separateFractional x xScale y yScale).2.2.1
        (separateFractional x xScale y yScale).2.2.2 := by
  have hm : ∀ k, k ≤ 38 → getScaleMultiplier .int128 k = 10 ^ k := fun k hk =>
    getScaleMultiplier_of_lt (by simp only [Storage.scaleUpperBound]; omega)
  have hxm := parts_tdiv_tmod x (le_max_left xScale yScale)
  have hym := parts_tdiv_tmod y (le_max_right xScale yScale)
  simp only [separateFractional, hm xScale hx, hm yScale hy]
  split_ifs with h
  · rw [max_eq_right h.le] at hxm hym ⊢
    rw [Nat.sub_self, pow_zero, mul_one] at hym
    rw [hm _ (by omega)]
    exact ⟨hxm, hym⟩
  · rw [max_eq_left (by omega)] at hxm hym ⊢
    rw [Nat.sub_self, pow_zero, mul_one] at hxm
    rw [hm _ (by omega)]
    exact ⟨hxm, hym⟩

theorem exactAdd_eq_parts (round : Bool) {x y : Int} {xScale yScale resultScale : Nat}
    (hs : resultScale ≤ max xScale yScale) {L R : Int}
    (hsum : (alignScales x xScale y yScale).1 + (alignScales x xScale y yScale).2 =
      L * 10 ^ max xScale yScale + R)
    (hsign : 0 ≤ L ∧ 0 ≤ R ∨ L ≤ 0 ∧ R ≤ 0) :
    exactAdd round x xScale y yScale resultScale = L * 10 ^ resultScale +
      roundOrTruncate round ((R : ℚ) / 10 ^ (max xScale yScale - resultScale)) := by
  have hm : (10 : Int) ^ max xScale yScale =
      10 ^ resultScale * ((10 ^ (max xScale yScale - resultScale) : ℕ) : Int) := by
    push_cast
    rw [← pow_add, Nat.add_sub_cancel' hs]
  have hD : ((10 ^ (max xScale yScale - resultScale) : ℕ) : ℚ) =
      10 ^ (max xScale yScale - resultScale) := by push_cast; rfl
  rw [exactAdd, exact_eq_alignScales _ _ _ _ _ hs, hsum, hm, ← hD,
    roundOrTruncate_mul_add_div round (by positivity) (by positivity) hsign]

theorem gt_tdiv_iff {a b mult : Int} (hmult : 0 < mult) (hb : b ≤ maxUnscaledDecimal16) :
    a > (maxUnscaledDecimal16 - b).tdiv mult ↔ maxUnscaledDecimal16 < a * mult + b := by
  rw [Int.tdiv_eq_ediv_of_nonneg (by omega), gt_iff_lt, Int.ediv_lt_iff_lt_mul hmult]
  omega

theorem addLarge_spec (round : Bool) {x y : Int} {xScale yScale resultScale : Nat}
    (hx : 0 ≤ x) (hy : 0 ≤ y) (hxs : xScale ≤ 38) (hys : yScale ≤ 38)
    (hs : resultScale ≤ max xScale yScale) :
    (addLarge x xScale y yScale resultScale round false).2 =
        decide (maxUnscaledDecimal16 < exactAdd round x xScale y yScale resultScale) ∧
      (exactAdd round x xScale y yScale resultScale ≤ maxUnscaledDecimal16 →
        (addLarge x xScale y yScale resultScale round false).1 =
          exactAdd round x xScale y yScale resultScale) := by
  have hm38 : max xScale yScale ≤ 38 := max_le hxs hys
  obtain ⟨hxp, hyp⟩ := separateFractional_parts (x := x) (y := y) hxs hys
  generalize hsf : separateFractional x xScale y yScale = sf at hxp hyp
  obtain ⟨xL, xR, yL, yR⟩ := sf
  dsimp only at hxp hyp
  obtain ⟨hxL, hxR⟩ := hxp.nonneg hx
  obtain ⟨hyL, hyR⟩ := hyp.nonneg hy
  have hxR' := hxp.abs_lt
  have hyR' := hyp.abs_lt
  rw [abs_of_nonneg hxR] at hxR'
  rw [abs_of_nonneg hyR] at hyR'
  obtain ⟨carry, right0, hcr⟩ : ∃ c r, (if xR ≥ 10 ^ max xScale yScale - yR then
      ((1 : Int), xR - 10 ^ max xScale yScale + yR) else (0, xR + yR)) = (c, r) := ⟨_, _, rfl⟩
  have hc : xR + yR = carry * 10 ^ max xScale yScale + right0 ∧ 0 ≤ right0 ∧
      right0 < 10 ^ max xScale yScale ∧ 0 ≤ carry ∧ carry ≤ 1 := by
    split_ifs at hcr <;> obtain ⟨rfl, rfl⟩ := Prod.mk.inj hcr <;> omega
  have hsum : (alignScales x xScale y yScale).1 + (alignScales x xScale y yScale).2 =
      (xL + yL + carry) * 10 ^ max xScale yScale + right0 := by
    simp only [alignScales]
    rw [hxp.eq, hyp.eq]
    linear_combination hc.1
  rw [exactAdd_eq_parts round hs hsum (.inl ⟨by omega, hc.2.1⟩)]
  obtain ⟨right, hright⟩ : ∃ r, roundOrTruncate round
      ((right0 : ℚ) / 10 ^ (max xScale yScale - resultScale)) = r := ⟨_, rfl⟩
  rw [hright]
  have hmem : 0 ≤ right ∧ right ≤ 10 ^ resultScale := by
    rw [← hright]
    apply roundOrTruncate_mem_of_nonneg round (by have := hc.2.1; positivity)
    rw [div_le_iff₀ (by positivity)]
    have : right0 ≤ 10 ^ resultScale * 10 ^ (max xScale yScale - resultScale) := by
      rw [← pow_add, Nat.add_sub_cancel' hs]
      exact hc.2.2.1.le
    exact_mod_cast this
  have hrightMax : right ≤ maxUnscaledDecimal16 := by
    rcases Nat.lt_or_ge resultScale 38 with h38 | h38
    · calc right ≤ 10 ^ resultScale := hmem.2
        _ ≤ 10 ^ 37 := pow_le_pow_right₀ (by norm_num) (by omega)
        _ ≤ maxUnscaledDecimal16 := by norm_num [maxUnscaledDecimal16]
    · rw [show max xScale yScale - resultScale = 0 by omega, pow_zero, div_one,
        roundOrTruncate_intCast] at hright
      have : right0 < 10 ^ 38 := lt_of_lt_of_le hc.2.2.1 (pow_le_pow_right₀ (by norm_num) hm38)
      simp only [maxUnscaledDecimal16]
      omega
  unfold addLarge
  rw [hsf]
  simp only [getScaleMultiplier_int128 hm38, getScaleMultiplier_int128 (hs.trans hm38)]
  rw [hcr]
  dsimp only
  rw [scaleDownAndRound_ite_eq (T := .int128) (by simp only [Storage.scaleUpperBound]; omega),
    hright]
  have hpow : (0 : Int) < 10 ^ resultScale := by positivity
  have hmax := maxUnscaledDecimal16_lt
  by_cases hL : xL + yL + carry ≤ maxUnscaledDecimal16
  · have hleft : int128 (int128 (xL + yL) + carry) = xL + yL + carry := by
      rw [int128_of_abs_lt (x := xL + yL) (by rw [abs_lt]; constructor <;> omega),
        int128_of_abs_lt (by rw [abs_lt]; constructor <;> omega)]
    have hno : ¬ xL > maxUnscaledDecimal16 - yL - carry := by omega
    simp only [hleft, hno, decide_false, Bool.false_or, Bool.not_false, Bool.true_and,
      decide_eq_true_eq, gt_tdiv_iff hpow hrightMax]
    refine ⟨by split_ifs <;> simp_all, fun hr => ?_⟩
    have hLs : 0 ≤ (xL + yL + carry) * 10 ^ resultScale := mul_nonneg (by omega) hpow.le
    rw [int128_of_abs_lt (x := (xL + yL + carry) * 10 ^ resultScale)
      (by rw [abs_lt]; constructor <;> omega),
      int128_of_abs_lt (by rw [abs_lt]; constructor <;> omega)]
  · have hyes : xL > maxUnscaledDecimal16 - yL - carry := by omega
    have hbig : maxUnscaledDecimal16 < (xL + yL + carry) * 10 ^ resultScale + right := by
      nlinarith
    simp only [hyes, decide_true, Bool.or_true, Bool.not_true, Bool.false_and,
      Bool.false_eq_true, if_false, hbig]
    exact ⟨trivial, fun h => absurd h (not_le.2 hbig)⟩

theorem subtractLarge_spec (round : Bool) {x y : Int} {xScale yScale resultScale : Nat}
    (hxy : 0 < x ∧ y < 0 ∨ x < 0 ∧ 0 < y) (hxs : xScale ≤ 38) (hys : yScale ≤ 38)
    (hs : resultScale ≤ max xScale yScale) :
    (subtractLarge x xScale y yScale resultScale round false).2 =
        decide (maxUnscaledDecimal16 < |exactAdd round x xScale y yScale resultScale|) ∧
      (|exactAdd round x xScale y yScale resultScale| ≤ maxUnscaledDecimal16 →
        (subtractLarge x xScale y yScale resultScale round false).1 =
          exactAdd round x xScale y yScale resultScale) := by
  have hm38 : max xScale yScale ≤ 38 := max_le hxs hys
  obtain ⟨hxp, hyp⟩ := separateFractional_parts (x := x) (y := y) hxs hys
  generalize hsf : separateFractional x xScale y yScale = sf at hxp hyp
  obtain ⟨xL, xR, yL, yR⟩ := sf
  dsimp only at hxp hyp
  have hR : |xR + yR| < 10 ^ max xScale yScale := by
    have h1 := abs_lt.1 hxp.abs_lt
    have h2 := abs_lt.1 hyp.abs_lt
    rw [abs_lt]
    rcases hxy with ⟨hx, hy⟩ | ⟨hx, hy⟩
    · have := (hxp.nonneg hx.le).2
      have := (hyp.nonpos hy.le).2
      constructor <;> omega
    · have := (hxp.nonpos hx.le).2
      have := (hyp.nonneg hy.le).2
      constructor <;> omega
  obtain ⟨left, right, hlr⟩ : ∃ l r, (if xL + yL < 0 ∧ xR + yR > 0 then
      (xL + yL + 1, xR + yR - 10 ^ max xScale yScale)
    else if xL + yL > 0 ∧ xR + yR < 0 then (xL + yL - 1, xR + yR + 10 ^ max xScale yScale)
    else (xL + yL, xR + yR)) = (l, r) := ⟨_, _, rfl⟩
  have hadj : left * 10 ^ max xScale yScale + right =
      (xL + yL) * 10 ^ max xScale yScale + (xR + yR) ∧ |right| < 10 ^ max xScale yScale ∧
      (0 ≤ left ∧ 0 ≤ right ∨ left ≤ 0 ∧ right ≤ 0) := by
    rw [abs_lt] at hR ⊢
    split_ifs at hlr <;> obtain ⟨rfl, rfl⟩ := Prod.mk.inj hlr <;>
      refine ⟨by ring, ?_, ?_⟩ <;> omega
  have hsum : (alignScales x xScale y yScale).1 + (alignScales x xScale y yScale).2 =
      left * 10 ^ max xScale yScale + right := by
    simp only [alignScales]
    rw [hxp.eq, hyp.eq, hadj.1]
    ring
  rw [exactAdd_eq_parts round hs hsum hadj.2.2]
  obtain ⟨right', hright⟩ : ∃ r, roundOrTruncate round
      ((right : ℚ) / 10 ^ (max xScale yScale - resultScale)) = r := ⟨_, rfl⟩
  rw [hright]
  have hpow : (0 : Int) < 10 ^ resultScale := by positivity
  have hsign : 0 ≤ left ∧ 0 ≤ right' ∨ left ≤ 0 ∧ right' ≤ 0 := by
    rcases hadj.2.2 with ⟨hl, hr⟩ | ⟨hl, hr⟩
    · exact .inl ⟨hl, hright ▸ roundOrTruncate_nonneg round
        (div_nonneg (by exact_mod_cast hr) (by positivity))⟩
    · exact .inr ⟨hl, hright ▸ roundOrTruncate_nonpos round
        (div_nonpos_of_nonpos_of_nonneg (by exact_mod_cast hr) (by positivity))⟩
  have hle : |right'| ≤ 10 ^ resultScale := by
    rw [← hright]
    apply abs_roundOrTruncate_le
    rw [abs_div, abs_of_pos (by positivity : (0 : ℚ) < 10 ^ (max xScale yScale - resultScale)),
      div_le_iff₀ (by positivity)]
    have : |right| ≤ 10 ^ resultScale * 10 ^ (max xScale yScale - resultScale) := by
      rw [← pow_add, Nat.add_sub_cancel' hs]
      exact hadj.2.1.le
    exact_mod_cast this
  have hrightMax : |right'| ≤ maxUnscaledDecimal16 := by
    rcases Nat.lt_or_ge resultScale 38 with h38 | h38
    · calc |right'| ≤ 10 ^ resultScale := hle
        _ ≤ 10 ^ 37 := pow_le_pow_right₀ (by norm_num) (by omega)
        _ ≤ maxUnscaledDecimal16 := by norm_num [maxUnscaledDecimal16]
    · rw [show max xScale yScale - resultScale = 0 by omega, pow_zero, div_one,
        roundOrTruncate_intCast] at hright
      have : |right| < 10 ^ 38 := lt_of_lt_of_le hadj.2.1 (pow_le_pow_right₀ (by norm_num) hm38)
      simp only [maxUnscaledDecimal16]
      rw [← hright]
      omega
  have habs : |left * 10 ^ resultScale + right'| = |left| * 10 ^ resultScale + |right'| := by
    rcases hsign with ⟨hl, hr⟩ | ⟨hl, hr⟩
    · rw [abs_of_nonneg (add_nonneg (mul_nonneg hl hpow.le) hr), abs_of_nonneg hl,
        abs_of_nonneg hr]
    · rw [abs_of_nonpos (add_nonpos (mul_nonpos_of_nonpos_of_nonneg hl hpow.le) hr),
        abs_of_nonpos hl, abs_of_nonpos hr]
      ring
  unfold subtractLarge
  rw [hsf]
  simp only [getScaleMultiplier_int128 hm38, getScaleMultiplier_int128 (hs.trans hm38)]
  rw [hlr]
  dsimp only
  rw [scaleDownAndRound_ite_eq (T := .int128) (by simp only [Storage.scaleUpperBound]; omega),
    hright, habs]
  simp only [gt_tdiv_iff hpow hrightMax]
  refine ⟨by split_ifs <;> simp_all, fun hr => ?_⟩
  have hmax := maxUnscaledDecimal16_lt
  have hprod : |left * 10 ^ resultScale| < 2 ^ 127 := by
    rw [abs_mul, abs_of_pos hpow]
    have := abs_nonneg right'
    omega
  rw [int128_of_abs_lt hprod]

theorem exactAdd_of_scale_eq (round : Bool) (x : Int) (xScale : Nat) (y : Int) (yScale : Nat) :
    exactAdd round x xScale y yScale (max xScale yScale) =
      (alignScales x xScale y yScale).1 + (alignScales x xScale y yScale).2 := by
  rw [exactAdd, exact_eq_alignScales _ _ _ _ _ le_rfl, Nat.sub_self, pow_zero, div_one,
    roundOrTruncate_intCast]

theorem exactAdd_neg (round : Bool) (x : Int) (xScale : Nat) (y : Int) (yScale scale : Nat) :
    exactAdd round (-x) xScale (-y) yScale scale = -exactAdd round x xScale y yScale scale := by
  rw [exactAdd, exactAdd, ← roundOrTruncate_neg]
  congr 1
  push_cast
  ring

theorem exactAdd_nonneg (round : Bool) {x y : Int} (hx : 0 ≤ x) (hy : 0 ≤ y)
    (xScale yScale scale : Nat) : 0 ≤ exactAdd round x xScale y yScale scale :=
  roundOrTruncate_nonneg round (by positivity)

theorem abs_mul_pow_ten_lt {v : Int} {p k m : Nat} (hv : |v| < 10 ^ p) (hk : k ≤ p)
    (hkm : k ≤ m) : |v * 10 ^ (m - k)| < 10 ^ (p - k + m) := by
  rw [abs_mul, abs_pow, abs_of_pos (by norm_num : (0 : Int) < 10),
    show p - k + m = p + (m - k) by omega, pow_add]
  exact mul_lt_mul_of_pos_right hv (by positivity)

theorem addDecimalVal_spec (decimalV2 : Bool) (t1 t2 : DecimalType) {x y : Int}
    (hx : |x| < 10 ^ t1.precision) (hy : |y| < 10 ^ t2.precision) :
    (addDecimalVal decimalV2 t1 t2 x y).2 = decide (maxUnscaledDecimal16 <
        |exactAdd decimalV2 x t1.scale y t2.scale (resultType decimalV2 .add t1 t2).scale|) ∧
      (|exactAdd decimalV2 x t1.scale y t2.scale (resultType decimalV2 .add t1 t2).scale| ≤
          maxUnscaledDecimal16 →
        (addDecimalVal decimalV2 t1 t2 x y).1 =
          exactAdd decimalV2 x t1.scale y t2.scale (resultType decimalV2 .add t1 t2).scale) := by
  have hs := resultType_add_scale_le decimalV2 t1 t2
  have hp1 := t1.precision_le
  have hp2 := t2.precision_le
  have hs1 := t1.scale_le
  have hs2 := t2.scale_le
  simp only [maxPrecision] at hp1 hp2
  obtain ⟨t, ht⟩ : ∃ t, resultType decimalV2 .add t1 t2 = t := ⟨_, rfl⟩
  rw [ht] at hs ⊢
  have htp := t.precision_le
  simp only [maxPrecision] at htp
  simp only [addDecimalVal, ht, add]
  by_cases hsmall : (Storage.ofByteSize (getDecimalByteSize t.precision)).bits < 128 ∨
      t.precision < 38
  · rw [if_pos hsmall]
    have hlt : t.precision < 38 :=
      hsmall.elim (fun h => by have := Storage.le_of_bits_ofByteSize_lt h; omega) id
    obtain ⟨hscale, hprec⟩ := resultType_add_of_lt decimalV2 t1 t2 (by rw [ht]; exact hlt)
    rw [ht] at hscale hprec
    have hX := abs_mul_pow_ten_lt hx hs1 (le_max_left t1.scale t2.scale)
    have hY := abs_mul_pow_ten_lt hy hs2 (le_max_right t1.scale t2.scale)
    have hXp : (10 : Int) ^ (t1.precision - t1.scale + max t1.scale t2.scale) ≤
        10 ^ (t.precision - 1) := pow_le_pow_right₀ (by norm_num) (by omega)
    have hYp : (10 : Int) ^ (t2.precision - t2.scale + max t1.scale t2.scale) ≤
        10 ^ (t.precision - 1) := pow_le_pow_right₀ (by norm_num) (by omega)
    have hstore := Storage.pow_ten_le_ofByteSize (p := t.precision) (by omega)
    have hpow : (10 : Int) ^ (t.precision - 1) * 10 = 10 ^ t.precision := by
      rw [← pow_succ, Nat.sub_add_cancel t.one_le_precision]
    have hpowle : (10 : Int) ^ t.precision ≤ 10 ^ 37 := pow_le_pow_right₀ (by norm_num) (by omega)
    have hpos : (0 : Int) < 10 ^ (t.precision - 1) := by positivity
    rw [adjustToSameScale_eq (by
        have := Storage.lt_scaleUpperBound_ofByteSize (p := t.precision) (by omega); omega)
      ⟨by simp only [alignScales]; omega, by simp only [alignScales]; omega⟩, hscale,
      exactAdd_of_scale_eq]
    have hsum : |(alignScales x t1.scale y t2.scale).1 + (alignScales x t1.scale y t2.scale).2| ≤
        maxUnscaledDecimal16 := by
      simp only [alignScales, maxUnscaledDecimal16] at hX hY ⊢
      rw [abs_le]
      rw [abs_lt] at hX hY
      have : (10 : Int) ^ 37 < 10 ^ 38 := by norm_num
      constructor <;> omega
    exact ⟨(decide_eq_false (not_lt.2 hsum)).symm, fun _ => rfl⟩
  · rw [if_neg hsmall]
    have h38 : t.precision = 38 := by
      rw [not_or] at hsmall
      omega
    have hR : Storage.ofByteSize (getDecimalByteSize t.precision) = .int128 := by
      rw [h38]
      rfl
    rw [hR]
    have hdec : max (t1.scale - t.scale) (t2.scale - t.scale) =
        max t1.scale t2.scale - t.scale := by omega
    by_cases hlz : minLeadingZeros 128 |x| t1.scale |y| t2.scale ≥ 3
    · rw [if_pos hlz]
      obtain ⟨hX, hY⟩ := alignScales_lt_of_minLeadingZeros (w := 128) (b := 3) (by omega) (by omega)
        (by norm_num) hlz
      rw [show 128 - 3 = 125 from rfl] at hX hY
      have h125 : (2 : Int) ^ 125 < 2 ^ (Storage.int128.bits - 1) := by
        simp only [Storage.bits]; norm_num
      rw [adjustToSameScale_eq (by simp only [Storage.scaleUpperBound]; omega)
        ⟨by omega, by omega⟩]
      dsimp only
      rw [hdec, scaleDownAndRound_ite_eq (by simp only [Storage.scaleUpperBound]; omega),
        ← exact_eq_alignScales _ _ _ _ _ hs]
      have hbound : |exactAdd decimalV2 x t1.scale y t2.scale t.scale| ≤ maxUnscaledDecimal16 := by
        have hsumq : |((((alignScales x t1.scale y t2.scale).1 +
            (alignScales x t1.scale y t2.scale).2 : ℤ) : ℚ) /
              10 ^ (max t1.scale t2.scale - t.scale))| ≤
            |(alignScales x t1.scale y t2.scale).1 + (alignScales x t1.scale y t2.scale).2| := by
          rw [abs_div, abs_of_pos (by positivity : (0 : ℚ) < 10 ^ _)]
          push_cast
          exact div_le_self (abs_nonneg _) (one_le_pow₀ (by norm_num))
        have := abs_roundOrTruncate_le decimalV2 hsumq
        rw [exactAdd, exact_eq_alignScales _ _ _ _ _ hs]
        have hmax : (2 : Int) ^ 126 ≤ maxUnscaledDecimal16 := by
          simp only [maxUnscaledDecimal16]; norm_num
        have := abs_add_le (alignScales x t1.scale y t2.scale).1
          (alignScales x t1.scale y t2.scale).2
        omega
      exact ⟨(decide_eq_false (not_lt.2 hbound)).symm, fun _ => rfl⟩
    rw [if_neg hlz]
    by_cases hpos : x ≥ 0 ∧ y ≥ 0
    · rw [if_pos hpos, abs_of_nonneg (exactAdd_nonneg _ hpos.1 hpos.2 _ _ _)]
      exact addLarge_spec decimalV2 hpos.1 hpos.2 (by omega) (by omega) hs
    rw [if_neg hpos]
    by_cases hneg : x ≤ 0 ∧ y ≤ 0
    · rw [if_pos hneg]
      obtain ⟨h1, h2⟩ := addLarge_spec decimalV2 (x := -x) (y := -y) (by omega) (by omega)
        (by omega) (by omega) hs
      rw [exactAdd_neg] at h1 h2
      have hnn : 0 ≤ -exactAdd decimalV2 x t1.scale y t2.scale t.scale := by
        rw [← exactAdd_neg]; exact exactAdd_nonneg _ (by omega) (by omega) _ _ _
      rw [abs_of_nonpos (by omega)]
      refine ⟨h1, fun h => ?_⟩
      rw [h2 h]
      ring
    · rw [if_neg hneg]
      exact subtractLarge_spec decimalV2 (by omega) (by omega) (by omega) hs

theorem subtractDecimalVal_eq (decimalV2 : Bool) (t1 t2 : DecimalType) (x y : Int) :
    subtractDecimalVal decimalV2 t1 t2 x y = addDecimalVal decimalV2 t1 t2 x (-y) := by
  simp only [subtractDecimalVal, addDecimalVal, subtract, resultType_subtract]

/-- Decimal addition and subtraction, as the operators run them, are exact: overflow is
reported exactly when the rounded (`DECIMAL_V2`) or truncated (V1) result passes 38 nines
in magnitude, and otherwise the result is returned. -/
theorem addDecimalVal_subtractDecimalVal_exact (decimalV2 : Bool) (t1 t2 : DecimalType)
    {x y : Int} (hx : |x| < 10 ^ t1.precision) (hy : |y| < 10 ^ t2.precision) :
    ((addDecimalVal decimalV2 t1 t2 x y).2 = decide (maxUnscaledDecimal16 <
        |exactAdd decimalV2 x t1.scale y t2.scale (resultType decimalV2 .add t1 t2).scale|) ∧
      (|exactAdd decimalV2 x t1.scale y t2.scale (resultType decimalV2 .add t1 t2).scale| ≤
          maxUnscaledDecimal16 →
        (addDecimalVal decimalV2 t1 t2 x y).1 =
          exactAdd decimalV2 x t1.scale y t2.scale (resultType decimalV2 .add t1 t2).scale)) ∧
    ((subtractDecimalVal decimalV2 t1 t2 x y).2 = decide (maxUnscaledDecimal16 <
        |exactSubtract decimalV2 x t1.scale y t2.scale
          (resultType decimalV2 .subtract t1 t2).scale|) ∧
      (|exactSubtract decimalV2 x t1.scale y t2.scale
          (resultType decimalV2 .subtract t1 t2).scale| ≤ maxUnscaledDecimal16 →
        (subtractDecimalVal decimalV2 t1 t2 x y).1 =
          exactSubtract decimalV2 x t1.scale y t2.scale
            (resultType decimalV2 .subtract t1 t2).scale)) := by
  refine ⟨addDecimalVal_spec decimalV2 t1 t2 hx hy, ?_⟩
  rw [subtractDecimalVal_eq, exactSubtract_eq, resultType_subtract]
  exact addDecimalVal_spec decimalV2 t1 t2 hx (by rwa [abs_neg])

def decimal38x0 : DecimalType := ⟨38, 0, by decide, by decide, by decide⟩

def decimal38x38 : DecimalType := ⟨38, 38, by decide, by decide, by decide⟩

theorem addDecimalVal_subtractDecimalVal_exact_max :
    (|(10 ^ 38 - 1 : Int)| < 10 ^ decimal38x0.precision ∧ |(1 : Int)| < 10 ^ decimal38x38.precision) ∧
    (((addDecimalVal true decimal38x0 decimal38x38 (10 ^ 38 - 1) 1).2 =
        decide (maxUnscaledDecimal16 < |exactAdd true (10 ^ 38 - 1) 0 1 38
          (resultType true .add decimal38x0 decimal38x38).scale|) ∧
      (|exactAdd true (10 ^ 38 - 1) 0 1 38 (resultType true .add decimal38x0 decimal38x38).scale| ≤
          maxUnscaledDecimal16 →
        (addDecimalVal true decimal38x0 decimal38x38 (10 ^ 38 - 1) 1).1 =
          exactAdd true (10 ^ 38 - 1) 0 1 38 (resultType true .add decimal38x0 decimal38x38).scale)) ∧
    ((subtractDecimalVal true decimal38x0 decimal38x38 (10 ^ 38 - 1) 1).2 =
        decide (maxUnscaledDecimal16 < |exactSubtract true (10 ^ 38 - 1) 0 1 38
          (resultType true .subtract decimal38x0 decimal38x38).scale|) ∧
      (|exactSubtract true (10 ^ 38 - 1) 0 1 38
          (resultType true .subtract decimal38x0 decimal38x38).scale| ≤ maxUnscaledDecimal16 →
        (subtractDecimalVal true decimal38x0 decimal38x38 (10 ^ 38 - 1) 1).1 =
          exactSubtract true (10 ^ 38 - 1) 0 1 38
            (resultType true .subtract decimal38x0 decimal38x38).scale))) :=
  ⟨⟨by norm_num [decimal38x0], by norm_num [decimal38x38]⟩,
    addDecimalVal_subtractDecimalVal_exact true decimal38x0 decimal38x38
      (by norm_num [decimal38x0]) (by norm_num [decimal38x38])⟩

end Impala.DecimalValue
