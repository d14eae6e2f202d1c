import Impala.Exprs.DecimalAggregates
import Impala.Lib.IntRounding

/-!
The integer storage of decimals and the helpers of `DecimalUtil` (util/decimal-util.h,
runtime/multi-precision.h): the scale multipliers, which are `-1` past the table of
their type, `Sign`, and `ScaleDownAndRound`. Division and remainder are C++'s, which
truncate toward zero (`Int.tdiv`, `Int.tmod`).
-/

set_option autoImplicit false

namespace Impala

open MachineInt

/-- The integer type an unscaled decimal value is held in. -/
inductive Storage where
  | int32
  | int64
  | int128
  | int256
  deriving DecidableEq, Repr

namespace Storage

def bits : Storage → Nat
  | int32 => 32
  | int64 => 64
  | int128 => 128
  | int256 => 256

def scaleUpperBound : Storage → Nat
  | int32 => 10
  | int64 => 19
  | int128 => 39
  | int256 => 77

/-- `DecimalValue<int32_t>`, `<int64_t>` or `<int128_t>` for a byte size of
`ColumnType::GetDecimalByteSize`. -/
def ofByteSize : Nat → Storage
  | 4 => int32
  | 8 => int64
  | _ => int128

def wrap (T : Storage) (v : Int) : Int := toSigned T.bits v

theorem bits_eq (T : Storage) : T.bits = (T.bits - 1) + 1 := by cases T <;> rfl

theorem wrap_of_bounds (T : Storage) {v : Int} (h1 : -2 ^ (T.bits - 1) ≤ v)
    (h2 : v < 2 ^ (T.bits - 1)) : T.wrap v = v := by
  unfold wrap
  rw [bits_eq T]
  exact toSigned_of_bounds h1 h2

theorem pow_ten_le_ofByteSize {p : Nat} (hp : p ≤ 38) :
    (10 : Int) ^ p ≤ 2 ^ ((ofByteSize (AggregateFunctions.getDecimalByteSize p)).bits - 1) := by
  unfold AggregateFunctions.getDecimalByteSize
  split_ifs with h9 h18
  · calc (10 : Int) ^ p ≤ 10 ^ 9 := pow_le_pow_right₀ (by norm_num) h9
      _ ≤ 2 ^ (int32.bits - 1) := by decide
  · calc (10 : Int) ^ p ≤ 10 ^ 18 := pow_le_pow_right₀ (by norm_num) h18
      _ ≤ 2 ^ (int64.bits - 1) := by decide
  · calc (10 : Int) ^ p ≤ 10 ^ 38 := pow_le_pow_right₀ (by norm_num) hp
      _ ≤ 2 ^ (int128.bits - 1) := by decide

theorem lt_scaleUpperBound_ofByteSize {p : Nat} (hp : p ≤ 38) :
    p < (ofByteSize (AggregateFunctions.getDecimalByteSize p)).scaleUpperBound := by
  unfold AggregateFunctions.getDecimalByteSize
  split_ifs <;> simp only [ofByteSize, scaleUpperBound] <;> omega

theorem le_of_bits_ofByteSize_lt {p : Nat}
    (h : (ofByteSize (AggregateFunctions.getDecimalByteSize p)).bits < 128) : p ≤ 18 := by
  unfold AggregateFunctions.getDecimalByteSize at h
  split_ifs at h <;> simp only [ofByteSize, bits] at h <;> omega

end Storage

namespace DecimalUtil

def getScaleMultiplier (T : Storage) (scale : Nat) : Int :=
  if scale < T.scaleUpperBound then 10 ^ scale else -1

def sign (value : Int) : Int := if value < 0 then -1 else 1

/-- `ScaleDownAndRound<T>(value, delta_scale, round)`: the quotient by `10^delta_scale`,
truncated, and with `round` moved away from zero when the remainder is at least half
the divisor. -/
def scaleDownAndRound (T : Storage) (value : Int) (deltaScale : Nat) (round : Bool) : Int :=
  let divisor := getScaleMultiplier T deltaScale
  if divisor > 0 then
    let result := value.tdiv divisor
    if round ∧ |value.tmod divisor| ≥ divisor / 2 then result + sign value else result
  else 0

theorem getScaleMultiplier_of_lt {T : Storage} {scale : Nat} (h : scale < T.scaleUpperBound) :
    getScaleMultiplier T scale = 10 ^ scale := if_pos h

open IntRounding in
theorem scaleDownAndRound_eq {T : Storage} {deltaScale : Nat} (hd : 0 < deltaScale)
    (hlt : deltaScale < T.scaleUpperBound) (value : Int) (round : Bool) :
    scaleDownAndRound T value deltaScale round =
      roundOrTruncate round ((value : ℚ) / 10 ^ deltaScale) := by
  have hpos : (0 : Int) < 10 ^ deltaScale := by positivity
  have hcast : ((10 : ℚ) ^ deltaScale) = ((10 ^ deltaScale : Nat) : ℚ) := by push_cast; rfl
  have hcast' : ((10 ^ deltaScale : Nat) : Int) = 10 ^ deltaScale := by push_cast; rfl
  have heven : (10 : Int) ^ deltaScale % 2 = 0 := by
    obtain ⟨k, rfl⟩ : ∃ k, deltaScale = k + 1 := ⟨deltaScale - 1, by omega⟩
    rw [pow_succ]
    omega
  rw [scaleDownAndRound, getScaleMultiplier_of_lt hlt, if_pos hpos, hcast]
  cases round
  · simp only [Bool.false_eq_true, false_and, if_false, roundOrTruncate]
    rw [truncate_div value (by positivity), hcast']
  · simp only [true_and, roundOrTruncate, if_true]
    rw [roundHalfAway_div value (by positivity), hcast', sign]
    split_ifs <;> omega

open IntRounding in
theorem scaleDownAndRound_ite_eq {T : Storage} {deltaScale : Nat}
    (hlt : deltaScale < T.scaleUpperBound) (value : Int) (round : Bool) :
    (if deltaScale > 0 then scaleDownAndRound T value deltaScale round else value) =
      roundOrTruncate round ((value : ℚ) / 10 ^ deltaScale) := by
  split_ifs with hd
  · exact scaleDownAndRound_eq hd hlt value round
  · rw [show deltaScale = 0 by omega, pow_zero, div_one, roundOrTruncate_intCast]

end DecimalUtil

end Impala
