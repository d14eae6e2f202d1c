import Mathlib.Tactic.NormNum

/-!
Fixed-width two's complement integers as `Int`. A `w`-bit result is the value of
the low `w` bits, `Int.bmod x (2^w)`; inside `[-2^(w-1), 2^(w-1))` it is `x`.
-/

set_option autoImplicit false

namespace Impala.MachineInt

def toSigned (w : Nat) (x : Int) : Int := Int.bmod x (2^w)

theorem half_two_pow (w : Nat) : ((2^(w+1) : Nat) : Int) / 2 = 2^w := by
  push_cast; rw [pow_succ]; omega

theorem half_two_pow_succ (w : Nat) : (((2^(w+1) : Nat) : Int) + 1) / 2 = 2^w := by
  push_cast; rw [pow_succ]; omega

theorem toSigned_of_bounds {w : Nat} {x : Int} (h1 : -2^w ≤ x) (h2 : x < 2^w) :
    toSigned (w + 1) x = x := by
  apply Int.bmod_eq_of_le
  · rw [half_two_pow]; exact h1
  · rw [half_two_pow_succ]; exact h2

theorem toSigned_lt (w : Nat) (x : Int) : toSigned (w + 1) x < 2^w := by
  have h := Int.bmod_lt (x := x) (m := 2^(w+1)) (by positivity)
  rw [half_two_pow_succ] at h
  exact h

theorem le_toSigned (w : Nat) (x : Int) : -2^w ≤ toSigned (w + 1) x := by
  have h := Int.le_bmod (x := x) (m := 2^(w+1)) (by positivity)
  rw [half_two_pow] at h
  exact h

theorem toSigned_of_wrap {w : Nat} {x : Int} (h1 : 2^w ≤ x) (h2 : x < 2^w + 2^(w+1)) :
    toSigned (w + 1) x = x - 2^(w+1) := by
  have hp : (2 : Int)^(w+1) = 2 * 2^w := by rw [pow_succ, mul_comm]
  have h := toSigned_of_bounds (w := w) (x := x - 2^(w+1)) (by omega) (by omega)
  rw [← h]
  unfold toSigned
  exact (Int.sub_bmod_right x _).symm

theorem toSigned_add_two_pow (w : Nat) (x : Int) : toSigned w (x + 2^w) = toSigned w x := by
  have h := Int.add_bmod_right x (2^w)
  push_cast at h
  exact h

theorem toSigned_of_wrap_neg {w : Nat} {x : Int} (h1 : -2^w - 2^(w+1) ≤ x) (h2 : x < -2^w) :
    toSigned (w + 1) x = x + 2^(w+1) := by
  have hp : (2 : Int)^(w+1) = 2 * 2^w := by rw [pow_succ, mul_comm]
  rw [← toSigned_add_two_pow, toSigned_of_bounds (by omega) (by omega)]

theorem xor_two_pow_sub_one {k x : Nat} (h : x < 2 ^ k) : x ^^^ (2 ^ k - 1) = 2 ^ k - 1 - x := by
  apply Nat.eq_of_testBit_eq
  intro i
  rw [Nat.sub_sub, Nat.add_comm 1 x, Nat.testBit_two_pow_sub_succ h, Nat.testBit_xor,
    Nat.testBit_two_pow_sub_one]
  by_cases hi : i < k
  · simp [hi]
  · have hx : x.testBit i = false :=
      Nat.testBit_lt_two_pow (lt_of_lt_of_le h (Nat.pow_le_pow_right (by norm_num) (by omega)))
    simp [hi, hx]

theorem xor_two_pow_of_lt {x k : Nat} (h : x < 2 ^ k) : x ^^^ 2 ^ k = x + 2 ^ k := by
  apply Nat.eq_of_testBit_eq
  intro i
  rw [Nat.testBit_xor, Nat.testBit_two_pow, Nat.add_comm, ← Nat.mul_one (2 ^ k),
    Nat.testBit_two_pow_mul_add _ h]
  by_cases hi : i < k
  · simp [hi, Nat.ne_of_gt hi]
  · have hx : x.testBit i = false :=
      Nat.testBit_lt_two_pow (Nat.lt_of_lt_of_le h (Nat.pow_le_pow_right (by omega) (by omega)))
    rcases Nat.eq_or_lt_of_le (Nat.le_of_not_lt hi) with rfl | hlt
    · simp [hx]
    · have h1 : Nat.testBit 1 (i - k) = false :=
        Nat.testBit_lt_two_pow (Nat.one_lt_two_pow (by omega))
      simp [hi, hx, Nat.ne_of_lt hlt, h1]

theorem xor_two_pow_of_ge {x k : Nat} (h1 : 2 ^ k ≤ x) (h2 : x < 2 ^ (k + 1)) :
    x ^^^ 2 ^ k = x - 2 ^ k := by
  have hlt : x - 2 ^ k < 2 ^ k := by rw [Nat.pow_succ] at h2; omega
  have h := xor_two_pow_of_lt hlt
  rw [Nat.sub_add_cancel h1] at h
  calc x ^^^ 2 ^ k = (x - 2 ^ k ^^^ 2 ^ k) ^^^ 2 ^ k := by rw [h]
    _ = x - 2 ^ k := by rw [Nat.xor_assoc, Nat.xor_self, Nat.xor_zero]

def subUInt32 (a b : Nat) : Nat := (((a : Int) - b) % 2 ^ 32).toNat

theorem subUInt32_of_le {a b : Nat} (h : b ≤ a) (ha : a < 2 ^ 32) : subUInt32 a b = a - b := by
  unfold subUInt32
  omega

theorem subUInt32_of_lt {a b : Nat} (h : a < b) (hb : b ≤ a + 2 ^ 32) :
    subUInt32 a b = a + 2 ^ 32 - b := by
  unfold subUInt32
  omega

end Impala.MachineInt
