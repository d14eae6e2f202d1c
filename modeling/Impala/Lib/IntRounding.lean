import Mathlib.Algebra.Order.Floor.Ring
import Mathlib.Data.Rat.Floor
import Mathlib.Tactic.Linarith
import Mathlib.Tactic.FieldSimp

/-!
Rounding a rational to an integer: halves away from zero, or toward zero. Integer
division by a positive divisor that truncates (`Int.tdiv`, `Int.tmod`) computes both:
the truncated quotient, and that quotient moved away from zero when the remainder is at
least half the divisor.
-/

set_option autoImplicit false

namespace Impala.IntRounding

def roundHalfAway (q : ℚ) : ℤ := if q < 0 then -⌊-q + 1 / 2⌋ else ⌊q + 1 / 2⌋

def truncate (q : ℚ) : ℤ := if q < 0 then -⌊-q⌋ else ⌊q⌋

def roundOrTruncate (round : Bool) (q : ℚ) : ℤ := if round then roundHalfAway q else truncate q

variable {q : ℚ}

theorem roundHalfAway_of_nonneg (h : 0 ≤ q) : roundHalfAway q = ⌊q + 1 / 2⌋ :=
  if_neg (not_lt.2 h)

theorem truncate_of_nonneg (h : 0 ≤ q) : truncate q = ⌊q⌋ := if_neg (not_lt.2 h)

theorem roundHalfAway_neg (q : ℚ) : roundHalfAway (-q) = -roundHalfAway q := by
  rcases lt_trichotomy q 0 with h | rfl | h
  · rw [roundHalfAway_of_nonneg (by linarith), roundHalfAway, if_pos h, neg_neg]
  · have h0 : roundHalfAway 0 = 0 := by
      rw [roundHalfAway_of_nonneg le_rfl, Int.floor_eq_zero_iff]
      norm_num
    rw [neg_zero, h0, neg_zero]
  · rw [roundHalfAway, if_pos (by linarith), neg_neg, roundHalfAway_of_nonneg h.le]

theorem truncate_neg (q : ℚ) : truncate (-q) = -truncate q := by
  rcases lt_trichotomy q 0 with h | rfl | h
  · rw [truncate_of_nonneg (by linarith), truncate, if_pos h, neg_neg]
  · simp [truncate]
  · rw [truncate, if_pos (by linarith), neg_neg, truncate_of_nonneg h.le]

theorem roundOrTruncate_neg (round : Bool) (q : ℚ) :
    roundOrTruncate round (-q) = -roundOrTruncate round q := by
  cases round
  · exact truncate_neg q
  · exact roundHalfAway_neg q

@[simp]
theorem roundOrTruncate_intCast (round : Bool) (k : ℤ) : roundOrTruncate round k = k := by
  have hk : ∀ k : ℤ, 0 ≤ k → roundOrTruncate round k = k := by
    intro k hk
    have hk' : (0 : ℚ) ≤ k := by exact_mod_cast hk
    cases round
    · simp [roundOrTruncate, truncate_of_nonneg hk']
    · rw [roundOrTruncate, if_pos rfl, roundHalfAway_of_nonneg hk', Int.floor_eq_iff]
      constructor <;> linarith
  rcases le_or_gt 0 k with h | h
  · exact hk k h
  · have := hk (-k) (by omega)
    rw [Int.cast_neg, roundOrTruncate_neg] at this
    omega

@[simp]
theorem roundOrTruncate_zero (round : Bool) : roundOrTruncate round 0 = 0 := by
  simpa using roundOrTruncate_intCast round 0

theorem roundOrTruncate_intCast_add (round : Bool) (k : ℤ) (q : ℚ)
    (h : 0 ≤ k ∧ 0 ≤ q ∨ k ≤ 0 ∧ q ≤ 0) :
    roundOrTruncate round (k + q) = k + roundOrTruncate round q := by
  have hpos : ∀ (k : ℤ) (q : ℚ), 0 ≤ k → 0 ≤ q →
      roundOrTruncate round (k + q) = k + roundOrTruncate round q := by
    intro k q hk hq
    have hkq : (0 : ℚ) ≤ k + q := by have : (0 : ℚ) ≤ k := by exact_mod_cast hk
                                     linarith
    cases round
    · simp only [roundOrTruncate, Bool.false_eq_true, if_false, truncate_of_nonneg hkq,
        truncate_of_nonneg hq, Int.floor_intCast_add]
    · simp only [roundOrTruncate, if_true, roundHalfAway_of_nonneg hkq,
        roundHalfAway_of_nonneg hq, add_assoc, Int.floor_intCast_add]
  rcases h with ⟨hk, hq⟩ | ⟨hk, hq⟩
  · exact hpos k q hk hq
  · have := hpos (-k) (-q) (by omega) (by linarith)
    rw [Int.cast_neg, ← neg_add, roundOrTruncate_neg, roundOrTruncate_neg] at this
    omega

theorem roundOrTruncate_mem_of_nonneg (round : Bool) {K : ℤ} (hq : 0 ≤ q) (hK : q ≤ K) :
    0 ≤ roundOrTruncate round q ∧ roundOrTruncate round q ≤ K := by
  cases round
  · simp only [roundOrTruncate, Bool.false_eq_true, if_false, truncate_of_nonneg hq]
    exact ⟨Int.floor_nonneg.2 hq, Int.floor_le_floor hK |>.trans (Int.floor_intCast K).le⟩
  · simp only [roundOrTruncate, if_true, roundHalfAway_of_nonneg hq]
    refine ⟨Int.floor_nonneg.2 (by linarith), ?_⟩
    calc ⌊q + 1 / 2⌋ ≤ ⌊(K : ℚ) + 1 / 2⌋ := Int.floor_le_floor (by linarith)
      _ = K := by rw [Int.floor_eq_iff]; constructor <;> linarith

theorem roundOrTruncate_nonneg (round : Bool) (hq : 0 ≤ q) : 0 ≤ roundOrTruncate round q :=
  (roundOrTruncate_mem_of_nonneg round hq (Int.le_ceil q)).1

theorem roundOrTruncate_nonpos (round : Bool) (hq : q ≤ 0) : roundOrTruncate round q ≤ 0 := by
  have := roundOrTruncate_nonneg round (q := -q) (by linarith)
  rw [roundOrTruncate_neg] at this
  omega

theorem abs_roundOrTruncate_le (round : Bool) {K : ℤ} (h : |q| ≤ K) :
    |roundOrTruncate round q| ≤ K := by
  rcases le_or_gt 0 q with hq | hq
  · have := roundOrTruncate_mem_of_nonneg round hq ((le_abs_self q).trans h)
    rw [abs_of_nonneg this.1]
    exact this.2
  · have := roundOrTruncate_mem_of_nonneg round (q := -q) (by linarith)
      ((neg_le_abs q).trans h)
    rw [roundOrTruncate_neg] at this
    rw [abs_of_nonpos (by omega)]
    omega

theorem roundOrTruncate_eq_zero (round : Bool) (h : |q| < 1 / 2) : roundOrTruncate round q = 0 := by
  have hnn : ∀ q : ℚ, 0 ≤ q → q < 1 / 2 → roundOrTruncate round q = 0 := by
    intro q hq hlt
    cases round
    · simp only [roundOrTruncate, Bool.false_eq_true, if_false, truncate_of_nonneg hq,
        Int.floor_eq_zero_iff, Set.mem_Ico]
      constructor <;> linarith
    · simp only [roundOrTruncate, if_true, roundHalfAway_of_nonneg hq, Int.floor_eq_zero_iff,
        Set.mem_Ico]
      constructor <;> linarith
  rcases le_or_gt 0 q with hq | hq
  · exact hnn q hq (lt_of_le_of_lt (le_abs_self q) h)
  · have := hnn (-q) (by linarith) (by rwa [abs_of_neg hq] at h)
    rw [roundOrTruncate_neg] at this
    omega

theorem roundOrTruncate_mul_add_div (round : Bool) {L R K : ℤ} {D : ℕ} (hD : 0 < D)
    (hK : 0 ≤ K) (h : 0 ≤ L ∧ 0 ≤ R ∨ L ≤ 0 ∧ R ≤ 0) :
    roundOrTruncate round (((L * (K * D) + R : ℤ) : ℚ) / D) =
      L * K + roundOrTruncate round ((R : ℚ) / D) := by
  have hD' : (D : ℚ) ≠ 0 := by positivity
  have hsplit : (((L * (K * D) + R : ℤ) : ℚ) / D) = ((L * K : ℤ) : ℚ) + (R : ℚ) / D := by
    push_cast
    field_simp
  rw [hsplit, roundOrTruncate_intCast_add]
  rcases h with ⟨hL, hR⟩ | ⟨hL, hR⟩
  · exact .inl ⟨mul_nonneg hL hK, div_nonneg (by exact_mod_cast hR) (by positivity)⟩
  · exact .inr ⟨mul_nonpos_of_nonpos_of_nonneg hL hK,
      div_nonpos_of_nonpos_of_nonneg (by exact_mod_cast hR) (by positivity)⟩

/-! ### Truncating division -/

variable {n : ℤ} {d : ℕ}

theorem truncate_div (n : ℤ) (hd : 0 < d) : truncate (n / d) = n.tdiv d := by
  have hnonneg : ∀ n : ℤ, 0 ≤ n → truncate (n / d) = n.tdiv d := by
    intro n hn
    rw [truncate_of_nonneg (by positivity), Rat.floor_intCast_div_natCast,
      Int.tdiv_eq_ediv_of_nonneg hn]
  rcases le_or_gt 0 n with h | h
  · exact hnonneg n h
  · have := hnonneg (-n) (by omega)
    rw [Int.cast_neg, neg_div, truncate_neg, Int.neg_tdiv] at this
    omega

theorem roundHalfAway_div_of_nonneg (hn : 0 ≤ n) (hd : 0 < d) :
    roundHalfAway (n / d) = n / d + if (d : ℤ) ≤ 2 * (n % d) then 1 else 0 := by
  have hd' : (0 : ℚ) < d := by exact_mod_cast hd
  have hr0 : 0 ≤ n % d := Int.emod_nonneg n (by omega)
  have hrd : n % d < d := Int.emod_lt_of_pos n (by omega)
  have hsplit : (n : ℚ) / d = ((n / d : ℤ) : ℚ) + ((n % d : ℤ) : ℚ) / d := by
    rw [div_eq_iff hd'.ne', add_mul, div_mul_cancel₀ _ hd'.ne']
    exact_mod_cast (Int.ediv_mul_add_emod n d).symm
  rw [roundHalfAway_of_nonneg (by positivity), Int.floor_eq_iff, hsplit]
  have hr0' : (0 : ℚ) ≤ ((n % d : ℤ) : ℚ) := by exact_mod_cast hr0
  have hrd' : ((n % d : ℤ) : ℚ) < d := by exact_mod_cast hrd
  have hlt1 : ((n % d : ℤ) : ℚ) / d < 1 := by rw [div_lt_one hd']; exact hrd'
  split_ifs with h
  · have hhalf : 1 / 2 ≤ ((n % d : ℤ) : ℚ) / d := by
      have h' : (d : ℚ) ≤ 2 * ((n % d : ℤ) : ℚ) := by exact_mod_cast h
      rw [le_div_iff₀ hd']
      linarith
    push_cast
    constructor <;> linarith
  · have hhalf : ((n % d : ℤ) : ℚ) / d < 1 / 2 := by
      have h' : 2 * ((n % d : ℤ) : ℚ) < d := by exact_mod_cast not_le.1 h
      rw [div_lt_iff₀ hd']
      linarith
    have hpos : 0 ≤ ((n % d : ℤ) : ℚ) / d := by positivity
    push_cast
    constructor <;> linarith

theorem roundHalfAway_div (n : ℤ) (hd : 0 < d) :
    roundHalfAway (n / d) =
      n.tdiv d + if (d : ℤ) ≤ 2 * |n.tmod d| then (if n < 0 then -1 else 1) else 0 := by
  have hnonneg : ∀ n : ℤ, 0 ≤ n → roundHalfAway (n / d) =
      n.tdiv d + if (d : ℤ) ≤ 2 * |n.tmod d| then 1 else 0 := by
    intro n hn
    rw [roundHalfAway_div_of_nonneg hn hd, Int.tdiv_eq_ediv_of_nonneg hn,
      Int.tmod_eq_emod_of_nonneg hn, abs_of_nonneg (Int.emod_nonneg n (by omega))]
  rcases le_or_gt 0 n with h | h
  · rw [hnonneg n h, if_neg (not_lt.2 h)]
  · have := hnonneg (-n) (by omega)
    rw [Int.cast_neg, neg_div, roundHalfAway_neg, Int.neg_tdiv, Int.neg_tmod, abs_neg] at this
    rw [if_pos h]
    split_ifs at this ⊢ <;> omega

end Impala.IntRounding
