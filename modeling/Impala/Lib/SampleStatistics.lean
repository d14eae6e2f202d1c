import Mathlib.Algebra.BigOperators.Group.List.Basic
import Mathlib.Algebra.CharZero.Defs
import Mathlib.Tactic.FieldSimp
import Mathlib.Tactic.Ring

/-!
The mean and the sum of squared deviations of a finite list of numbers of a field of
characteristic zero, and how they change when one more value is added (Welford's recurrence) or
two lists are put together (the pairwise combination of Chan, Golub and LeVeque). Each identity
is proved through the power sums: the mean is `Σx / n` and the squared deviations sum to
`Σx² − (Σx)²/n`. The empty list has mean and deviation `0`, so the identities hold with no
side condition on the lengths.
-/

set_option autoImplicit false

namespace Impala.SampleStatistics

variable {α : Type} [Field α]

def mean (xs : List α) : α := xs.sum / xs.length

def sumSqDev (xs : List α) : α := (xs.map fun x => (x - mean xs) ^ 2).sum

def sampleVariance (xs : List α) : α := sumSqDev xs / (xs.length - 1)

def popVariance (xs : List α) : α := sumSqDev xs / xs.length

def sumSq (xs : List α) : α := (xs.map (· ^ 2)).sum

@[simp] theorem sumSq_nil : sumSq ([] : List α) = 0 := rfl

theorem sumSq_append (xs ys : List α) : sumSq (xs ++ ys) = sumSq xs + sumSq ys := by
  simp [sumSq]

@[simp] theorem mean_nil : mean ([] : List α) = 0 := by simp [mean]

@[simp] theorem sumSqDev_nil : sumSqDev ([] : List α) = 0 := rfl

theorem mean_perm {xs ys : List α} (h : xs.Perm ys) : mean xs = mean ys := by
  rw [mean, mean, h.sum_eq, h.length_eq]

theorem sumSqDev_perm {xs ys : List α} (h : xs.Perm ys) : sumSqDev xs = sumSqDev ys := by
  rw [sumSqDev, sumSqDev, mean_perm h]
  exact (h.map _).sum_eq

variable [CharZero α]

theorem length_ne_zero {xs : List α} (h : xs ≠ []) : (xs.length : α) ≠ 0 :=
  Nat.cast_ne_zero.2 (by simpa using h)

omit [CharZero α] in
theorem sum_sq_sub (xs : List α) (m : α) :
    (xs.map fun x => (x - m) ^ 2).sum = sumSq xs - 2 * m * xs.sum + xs.length * m ^ 2 := by
  induction xs with
  | nil => simp
  | cons x xs ih =>
    simp only [List.map_cons, List.sum_cons, ih, sumSq, List.length_cons, Nat.cast_add, Nat.cast_one]
    ring

theorem sumSqDev_eq (xs : List α) : sumSqDev xs = sumSq xs - xs.sum ^ 2 / xs.length := by
  by_cases hxs : xs = []
  · subst hxs
    simp
  have hn := length_ne_zero hxs
  rw [sumSqDev, sum_sq_sub, mean]
  field_simp
  ring

theorem mean_concat (xs : List α) (x : α) :
    mean (xs ++ [x]) = mean xs + (x - mean xs) / (xs.length + 1) := by
  by_cases hxs : xs = []
  · subst hxs
    simp [mean]
  have hn := length_ne_zero hxs
  have hn1 : (xs.length : α) + 1 ≠ 0 := by exact_mod_cast Nat.succ_ne_zero xs.length
  simp only [mean, List.sum_append, List.sum_singleton, List.length_append, List.length_singleton,
    Nat.cast_add, Nat.cast_one]
  field_simp
  ring

theorem sumSqDev_concat (xs : List α) (x : α) :
    sumSqDev (xs ++ [x]) =
      sumSqDev xs + xs.length * (x - mean xs) * ((x - mean xs) / (xs.length + 1)) := by
  by_cases hxs : xs = []
  · subst hxs
    simp [sumSqDev, mean]
  have hn := length_ne_zero hxs
  have hn1 : (xs.length : α) + 1 ≠ 0 := by exact_mod_cast Nat.succ_ne_zero xs.length
  rw [sumSqDev_eq, sumSqDev_eq, sumSq_append, mean]
  simp only [sumSq, List.sum_append, List.sum_singleton, List.length_append, List.length_singleton,
    Nat.cast_add, Nat.cast_one, List.map_cons, List.map_nil]
  field_simp
  ring

theorem mean_append (xs ys : List α) :
    mean (xs ++ ys) =
      mean ys + (mean xs - mean ys) * (xs.length / (xs.length + ys.length)) := by
  by_cases hxs : xs = []
  · subst hxs
    simp
  by_cases hys : ys = []
  · subst hys
    have hn := length_ne_zero hxs
    simp [hn]
  have ha := length_ne_zero hxs
  have hb := length_ne_zero hys
  have hab : (xs.length : α) + ys.length ≠ 0 := by
    exact_mod_cast (Nat.add_pos_left (List.length_pos_iff.2 hxs) _).ne'
  simp only [mean, List.sum_append, List.length_append, Nat.cast_add]
  field_simp
  ring

theorem sumSqDev_append (xs ys : List α) :
    sumSqDev (xs ++ ys) = sumSqDev ys + sumSqDev xs +
      (mean xs - mean ys) * (mean xs - mean ys) *
        (ys.length * xs.length / (xs.length + ys.length)) := by
  by_cases hxs : xs = []
  · subst hxs
    simp
  by_cases hys : ys = []
  · subst hys
    simp
  have ha := length_ne_zero hxs
  have hb := length_ne_zero hys
  have hab : (xs.length : α) + ys.length ≠ 0 := by
    exact_mod_cast (Nat.add_pos_left (List.length_pos_iff.2 hxs) _).ne'
  rw [sumSqDev_eq, sumSqDev_eq, sumSqDev_eq, sumSq_append]
  simp only [mean, List.sum_append, List.length_append, Nat.cast_add]
  field_simp
  ring

theorem mean_replicate {n : Nat} (hn : n ≠ 0) (c : α) : mean (List.replicate n c) = c := by
  have hn' : (n : α) ≠ 0 := Nat.cast_ne_zero.2 hn
  simp only [mean, List.sum_replicate, nsmul_eq_mul, List.length_replicate]
  field_simp

theorem sumSqDev_replicate (n : Nat) (c : α) : sumSqDev (List.replicate n c) = 0 := by
  rcases Nat.eq_zero_or_pos n with rfl | hn
  · rfl
  simp [sumSqDev, mean_replicate hn.ne' c]

omit [CharZero α] in
theorem sumSqDev_singleton (x : α) : sumSqDev [x] = 0 := by
  simp [sumSqDev, mean]

end Impala.SampleStatistics
