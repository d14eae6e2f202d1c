import Mathlib.Data.Nat.Digits.Defs

/-!
Machine words as bytes, and the encodings of IEEE 754 binary formats read off
them. A word is its bytes in little-endian order; its value is the number they
are the base-256 digits of. A binary format has a sign bit, `expBits` exponent
bits and `manBits` fraction bits; NaNs have an exponent of all ones and a
non-zero fraction, and the two zeros differ in the sign bit only. Equality of
encodings as numbers (`feq`) is false on a NaN, true on the two zeros, and
otherwise equality of the bits.
-/

set_option autoImplicit false

namespace Impala.FloatBits

def leNat (b : List UInt8) : Nat := Nat.ofDigits 256 (b.map UInt8.toNat)

theorem leNat_inj {a b : List UInt8} (hlen : a.length = b.length) (h : leNat a = leNat b) :
    a = b := by
  have hdigits : a.map UInt8.toNat = b.map UInt8.toNat := by
    refine Nat.ofDigits_inj_of_len_eq (by norm_num) (by simpa using hlen) ?_ ?_ h
    · simp only [List.mem_map]
      rintro _ ⟨x, -, rfl⟩
      exact x.toNat_lt
    · simp only [List.mem_map]
      rintro _ ⟨x, -, rfl⟩
      exact x.toNat_lt
  exact (List.map_inj_right fun _ _ h => UInt8.toNat_inj.1 h).1 hdigits

theorem leNat_lt (b : List UInt8) : leNat b < 2 ^ (8 * b.length) := by
  have h := Nat.ofDigits_lt_base_pow_length (b := 256) (l := b.map UInt8.toNat) (by norm_num)
    (by simp only [List.mem_map]; rintro _ ⟨x, -, rfl⟩; exact x.toNat_lt)
  rwa [List.length_map, show (256 : Nat) = 2 ^ 8 by norm_num, ← Nat.pow_mul] at h

/-- A binary interchange format: the widths of the exponent and the fraction. -/
structure Format where
  expBits : Nat
  manBits : Nat

def Format.single : Format := ⟨8, 23⟩

def Format.double : Format := ⟨11, 52⟩

variable (f : Format)

def isNaN (x : Nat) : Bool :=
  (x / 2 ^ f.manBits) % 2 ^ f.expBits == 2 ^ f.expBits - 1 && x % 2 ^ f.manBits != 0

def isZero (x : Nat) : Bool := x % 2 ^ (f.expBits + f.manBits) == 0

def feq (x y : Nat) : Bool := !isNaN f x && !isNaN f y && (x == y || isZero f x && isZero f y)

variable {f}

theorem isNaN_eq_false_of_feq_left {x y : Nat} (h : feq f x y = true) : isNaN f x = false := by
  simp only [feq, Bool.and_eq_true, Bool.not_eq_true'] at h
  exact h.1.1

theorem isNaN_eq_false_of_feq_right {x y : Nat} (h : feq f x y = true) : isNaN f y = false := by
  simp only [feq, Bool.and_eq_true, Bool.not_eq_true'] at h
  exact h.1.2

theorem eq_of_feq {x y : Nat} (hx : isZero f x = false) (h : feq f x y = true) : x = y := by
  simp only [feq, hx, Bool.false_and, Bool.or_false, Bool.and_eq_true, beq_iff_eq] at h
  exact h.2

theorem isZero_of_feq {x y : Nat} (hx : isZero f x = true) (h : feq f x y = true) :
    isZero f y = true := by
  simp only [feq, hx, Bool.true_and, Bool.and_eq_true, Bool.or_eq_true, beq_iff_eq] at h
  rcases h.2 with rfl | hy
  · exact hx
  · exact hy

theorem leNat_replicate_zero (w : Nat) : leNat (List.replicate w 0) = 0 := by
  induction w with
  | zero => rfl
  | succ w ih =>
    rw [leNat] at ih ⊢
    rw [List.replicate_succ, List.map_cons, Nat.ofDigits_cons, ih]
    rfl

theorem isZero_zero : isZero f 0 = true := by
  simp [isZero]

variable (f)

/-- The canonical encoding of a number: one NaN `nan` for every NaN, and `+0` for
both zeros. -/
def canon (nan x : Nat) : Nat := if isNaN f x then nan else if feq f x 0 then 0 else x

variable {f}

theorem canon_eq_of_feq {nan x y : Nat} (hnan : isNaN f nan = true) (h0 : isNaN f 0 = false)
    (h : feq f (canon f nan x) y = true ∨ (isNaN f y = true ∧ isNaN f (canon f nan x) = true)) :
    canon f nan x = canon f nan y := by
  unfold canon at h ⊢
  by_cases hx : isNaN f x = true
  · rw [if_pos hx] at h ⊢
    have hy : isNaN f y = true := by
      rcases h with h | h
      · rw [isNaN_eq_false_of_feq_left h] at hnan
        cases hnan
      · exact h.1
    rw [if_pos hy]
  · rw [if_neg hx] at h ⊢
    by_cases hz : feq f x 0 = true
    · rw [if_pos hz] at h ⊢
      have hfeq : feq f 0 y = true := by
        rcases h with h | h
        · exact h
        · rw [h0] at h
          cases h.2
      have hy : isNaN f y = false := isNaN_eq_false_of_feq_right hfeq
      have hyz : isZero f y = true := isZero_of_feq isZero_zero hfeq
      have hy0 : feq f y 0 = true := by simp [feq, hy, h0, hyz, isZero_zero]
      rw [if_neg (by simp [hy]), if_pos hy0]
    · rw [if_neg hz] at h ⊢
      have hxz : isZero f x = false := by
        by_contra hxz
        simp only [Bool.not_eq_false] at hxz
        exact hz (by simp [feq, hx, h0, hxz, isZero_zero])
      rcases h with h | h
      · rw [← eq_of_feq hxz h, if_neg hx, if_neg hz]
      · exact absurd h.2 hx

/-! ## Order -/

variable (f)

def signBit (x : Nat) : Bool := x.testBit (f.expBits + f.manBits)

/-- Where an encoding stands in IEEE order: its magnitude, negated under the sign bit, so that
the two zeros are both `0`. -/
def orderKey (x : Nat) : Int :=
  if signBit f x then -((x % 2 ^ (f.expBits + f.manBits) : Nat) : Int)
  else ((x % 2 ^ (f.expBits + f.manBits) : Nat) : Int)

def flt (x y : Nat) : Bool := !isNaN f x && !isNaN f y && decide (orderKey f x < orderKey f y)

variable {f}

theorem isNaN_zero : isNaN f 0 = false := by
  simp [isNaN]

theorem flt_zero_iff {x : Nat} :
    flt f x 0 = true ↔ isNaN f x = false ∧ signBit f x = true ∧ isZero f x = false := by
  have hkey0 : orderKey f 0 = 0 := by simp [orderKey, signBit]
  have hkey : orderKey f x < 0 ↔ signBit f x = true ∧ isZero f x = false := by
    unfold orderKey isZero
    generalize x % 2 ^ (f.expBits + f.manBits) = m
    cases signBit f x
    · simp
    · simp only [if_true, Left.neg_neg_iff, Nat.cast_pos, true_and, beq_eq_false_iff_ne]
      omega
  simp only [flt, isNaN_zero, hkey0, Bool.not_false, Bool.and_true, Bool.and_eq_true,
    Bool.not_eq_true', decide_eq_true_eq, hkey]

theorem signBit_eq {x : Nat} (hx : x < 2 ^ (f.expBits + f.manBits + 1)) :
    signBit f x = decide (2 ^ (f.expBits + f.manBits) ≤ x) := by
  have hp := Nat.two_pow_pos (f.expBits + f.manBits)
  rw [Nat.pow_succ] at hx
  unfold signBit
  rw [Nat.testBit_eq_decide_div_mod_eq]
  by_cases h : 2 ^ (f.expBits + f.manBits) ≤ x
  · rw [Nat.div_eq_of_lt_le (k := 1) (by omega) (by omega)]
    simp [h]
  · rw [Nat.div_eq_of_lt (by omega)]
    simp [h]

theorem mod_eq_of_lt_two_pow {x : Nat} (hx : x < 2 ^ (f.expBits + f.manBits + 1)) :
    x % 2 ^ (f.expBits + f.manBits) =
      if 2 ^ (f.expBits + f.manBits) ≤ x then x - 2 ^ (f.expBits + f.manBits) else x := by
  rw [Nat.pow_succ] at hx
  split_ifs with h
  · rw [Nat.mod_eq_sub_mod h, Nat.mod_eq_of_lt (by omega)]
  · exact Nat.mod_eq_of_lt (by omega)

theorem orderKey_eq {x : Nat} (hx : x < 2 ^ (f.expBits + f.manBits + 1)) :
    orderKey f x = if 2 ^ (f.expBits + f.manBits) ≤ x
      then -((x - 2 ^ (f.expBits + f.manBits) : Nat) : Int) else x := by
  unfold orderKey
  rw [signBit_eq hx, mod_eq_of_lt_two_pow hx]
  by_cases h : 2 ^ (f.expBits + f.manBits) ≤ x <;> simp [h]

theorem flt_zero_iff_lt {x : Nat} (hx : x < 2 ^ (f.expBits + f.manBits + 1))
    (hnan : isNaN f x = false) : flt f x 0 = true ↔ 2 ^ (f.expBits + f.manBits) < x := by
  rw [flt_zero_iff, signBit_eq hx]
  unfold isZero
  rw [mod_eq_of_lt_two_pow hx]
  by_cases h : 2 ^ (f.expBits + f.manBits) ≤ x
  · simp only [hnan, h, if_true, decide_true, true_and, beq_eq_false_iff_ne]
    omega
  · simp only [h, decide_false, Bool.false_eq_true, false_and, and_false, false_iff]
    omega

theorem isNaN_two_pow : isNaN f (2 ^ (f.expBits + f.manBits)) = false := by
  have h : 2 ^ (f.expBits + f.manBits) % 2 ^ f.manBits = 0 :=
    Nat.mod_eq_zero_of_dvd (Nat.pow_dvd_pow 2 (Nat.le_add_left _ _))
  simp [isNaN, h]

theorem orderKey_two_pow : orderKey f (2 ^ (f.expBits + f.manBits)) = 0 := by
  rw [orderKey_eq (Nat.pow_lt_pow_right (by omega) (by omega)), if_pos (le_refl _), Nat.sub_self]
  rfl

theorem orderKey_zero : orderKey f 0 = 0 := by
  simp [orderKey, signBit]

theorem flt_two_pow_left (x : Nat) : flt f (2 ^ (f.expBits + f.manBits)) x = flt f 0 x := by
  simp only [flt, isNaN_two_pow, isNaN_zero, orderKey_two_pow, orderKey_zero]

theorem flt_two_pow_right (x : Nat) : flt f x (2 ^ (f.expBits + f.manBits)) = flt f x 0 := by
  simp only [flt, isNaN_two_pow, isNaN_zero, orderKey_two_pow, orderKey_zero]

end Impala.FloatBits
