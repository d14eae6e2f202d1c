import Mathlib
import Impala.Lib.Segment

/-!
`Sorter::TupleSorter` (runtime/sorter-ir.cc) sorts the fixed-length tuples of a run in place by
quicksort. The run's tuples are a function from the tuple index to the tuple, whatever pages hold
them; an iterator is its index. The range being sorted is `[lo, hi)`, `begin.index()` and
`end.index()`. A read or a write of a tuple outside it is refused: the functions return `none`
there, where the code would go on past the range.

This module has the comparator, the tuple copies and the choice of the pivot.
-/

set_option autoImplicit false

namespace Impala.TupleSorter

open Segment

/-- The two calls of `TupleRowComparator` the sorter makes: `Compare` and `Less`. -/
structure Comparator (α : Type) where
  compare : α → α → Int
  less : α → α → Bool

variable {α : Type}

/-- What the sorter asks of its comparator: `Compare` orders by a total preorder, its sign
flipping with its arguments, and `Less` is `Compare < 0`. -/
structure Comparator.Lawful (c : Comparator α) : Prop where
  less_iff : ∀ x y, c.less x y = true ↔ c.compare x y < 0
  compare_lt_iff : ∀ x y, c.compare x y < 0 ↔ 0 < c.compare y x
  le_trans : ∀ x y z, c.compare x y ≤ 0 → c.compare y z ≤ 0 → c.compare x z ≤ 0

def Comparator.le (c : Comparator α) (x y : α) : Prop := c.compare x y ≤ 0

namespace Comparator.Lawful

variable {c : Comparator α} (hc : c.Lawful) {x y z : α}
include hc

theorem compare_self (x : α) : c.compare x x = 0 := by
  have h := hc.compare_lt_iff x x
  omega

theorem compare_pos_iff : 0 < c.compare x y ↔ c.compare y x < 0 :=
  (hc.compare_lt_iff y x).symm

theorem compare_eq_zero_comm : c.compare x y = 0 ↔ c.compare y x = 0 := by
  have h₁ := hc.compare_lt_iff x y
  have h₂ := hc.compare_lt_iff y x
  omega

theorem compare_nonpos_iff : c.compare x y ≤ 0 ↔ 0 ≤ c.compare y x := by
  have h₁ := hc.compare_lt_iff x y
  have h₂ := hc.compare_lt_iff y x
  omega

theorem less_eq_false_iff : c.less x y = false ↔ c.compare y x ≤ 0 := by
  rw [← Bool.not_eq_true, hc.less_iff, hc.compare_nonpos_iff]
  omega

theorem lt_of_lt_of_le (h₁ : c.compare x y < 0) (h₂ : c.compare y z ≤ 0) :
    c.compare x z < 0 := by
  by_contra hxz
  have hzx : c.compare z x ≤ 0 := hc.compare_nonpos_iff.2 (by omega)
  have hyx := hc.le_trans y z x h₂ hzx
  have := (hc.compare_lt_iff x y).1 h₁
  omega

theorem lt_of_le_of_lt (h₁ : c.compare x y ≤ 0) (h₂ : c.compare y z < 0) :
    c.compare x z < 0 := by
  by_contra hxz
  have hzx : c.compare z x ≤ 0 := hc.compare_nonpos_iff.2 (by omega)
  have hzy := hc.le_trans z x y hzx h₁
  have := (hc.compare_lt_iff y z).1 h₂
  omega

end Comparator.Lawful

/-- Comparison by the difference of integer keys, as `RawValue::Compare` compares `TINYINT` and
`SMALLINT` values. -/
def Comparator.ofKey (key : α → ℤ) : Comparator α :=
  ⟨fun x y => key x - key y, fun x y => decide (key x < key y)⟩

theorem Comparator.ofKey_lawful (key : α → ℤ) : (Comparator.ofKey key).Lawful where
  less_iff x y := by simp [Comparator.ofKey]
  compare_lt_iff x y := by simp only [Comparator.ofKey]; omega
  le_trans x y z := by simp only [Comparator.ofKey]; omega

/-! ## Copies of tuples -/

section Copies

variable (lo hi : ℤ)

def write (a : ℤ → α) (i : ℤ) (x : α) : Option (ℤ → α) :=
  if lo ≤ i ∧ i < hi then some (Function.update a i x) else none

/-- `Swap(left, right, swap_tuple, tuple_size)`: `left` to `swap_tuple`, `right` to `left`,
`swap_tuple` to `right`. -/
def swap (a : ℤ → α) (i j : ℤ) : Option (ℤ → α) :=
  if lo ≤ i ∧ i < hi ∧ lo ≤ j ∧ j < hi then
    some (Function.update (Function.update a i (a j)) j (a i))
  else none

variable {lo hi}

theorem write_of_mem {a : ℤ → α} {i : ℤ} (x : α) (h : lo ≤ i ∧ i < hi) :
    write lo hi a i x = some (Function.update a i x) := if_pos h

theorem swap_of_mem {a : ℤ → α} {i j : ℤ} (hi' : lo ≤ i ∧ i < hi) (hj : lo ≤ j ∧ j < hi) :
    swap lo hi a i j = some (a ∘ Equiv.swap i j) := by
  rw [swap, if_pos ⟨hi'.1, hi'.2, hj.1, hj.2⟩, update_update_eq_comp_swap]

end Copies

/-! ## The pivot -/

variable (c : Comparator α)

/-- `MedianOfThree(t1, t2, t3, &has_equals)`: the median of the three tuples, and whether
`t1_cmp_t2 * t1_cmp_t3 * t2_cmp_t3` is zero; the `int` product wraps. -/
def medianOfThree (t1 t2 t3 : α) : α × Bool :=
  let t1CmpT2 := c.compare t1 t2
  let t2CmpT3 := c.compare t2 t3
  let t1CmpT3 := c.compare t1 t3
  let pivot :=
    if t1CmpT2 < 0 then
      if t2CmpT3 < 0 then t2 else if t1CmpT3 < 1 then t3 else t1
    else
      if t1CmpT3 < 0 then t1 else if t2CmpT3 < 1 then t3 else t2
  (pivot, t1CmpT2 * t1CmpT3 * t2CmpT3 % 2 ^ 32 == 0)

/-- `SelectPivot(begin, end, &has_equals)`: the median of three tuples at indices drawn by
`uniform_int<int64_t>(begin, end - 1)`. The `draws + j`-th number of the generator is `rng`
of it, and picks the index `lo + rng (draws + j) % (hi - lo)`; as `rng` ranges over all
functions, the draws range over every outcome. -/
def selectPivot (rng : ℕ → ℕ) (draws : ℕ) (lo hi : ℤ) (a : ℤ → α) : α × Bool :=
  let index (j : ℕ) : ℤ := lo + (rng (draws + j) : ℤ) % (hi - lo)
  medianOfThree c (a (index 0)) (a (index 1)) (a (index 2))

variable {c}

theorem medianOfThree_mem (t1 t2 t3 : α) :
    (medianOfThree c t1 t2 t3).1 = t1 ∨ (medianOfThree c t1 t2 t3).1 = t2 ∨
      (medianOfThree c t1 t2 t3).1 = t3 := by
  simp only [medianOfThree]
  split_ifs <;> simp

theorem medianOfThree_distinct {t1 t2 t3 : α} (h : (medianOfThree c t1 t2 t3).2 = false) :
    c.compare t1 t2 ≠ 0 ∧ c.compare t2 t3 ≠ 0 ∧ c.compare t1 t3 ≠ 0 := by
  simp only [medianOfThree, beq_eq_false_iff_ne, ne_eq] at h
  refine ⟨fun h12 => h ?_, fun h23 => h ?_, fun h13 => h ?_⟩ <;> simp [*]

theorem medianOfThree_between (hc : c.Lawful) {t1 t2 t3 : α} (h12 : c.compare t1 t2 ≠ 0)
    (h23 : c.compare t2 t3 ≠ 0) (h13 : c.compare t1 t3 ≠ 0) :
    (∃ t, (t = t1 ∨ t = t2 ∨ t = t3) ∧ c.compare t (medianOfThree c t1 t2 t3).1 < 0) ∧
      (∃ t, (t = t1 ∨ t = t2 ∨ t = t3) ∧ c.compare (medianOfThree c t1 t2 t3).1 t < 0) := by
  have h21 := (hc.compare_pos_iff (x := t1) (y := t2))
  have h32 := (hc.compare_pos_iff (x := t2) (y := t3))
  have h31 := (hc.compare_pos_iff (x := t1) (y := t3))
  simp only [medianOfThree]
  split_ifs with ha hb hd hb' hd'
  · exact ⟨⟨t1, by simp, ha⟩, ⟨t3, by simp, hb⟩⟩
  · exact ⟨⟨t1, by simp, by omega⟩, ⟨t2, by simp, by omega⟩⟩
  · exact ⟨⟨t3, by simp, by omega⟩, ⟨t2, by simp, ha⟩⟩
  · exact ⟨⟨t2, by simp, by omega⟩, ⟨t3, by simp, hb'⟩⟩
  · exact ⟨⟨t2, by simp, by omega⟩, ⟨t1, by simp, by omega⟩⟩
  · exact ⟨⟨t3, by simp, by omega⟩, ⟨t1, by simp, by omega⟩⟩

theorem draw_mem {lo hi : ℤ} (h : lo < hi) (n : ℕ) :
    lo ≤ lo + (n : ℤ) % (hi - lo) ∧ lo + (n : ℤ) % (hi - lo) < hi := by
  have h₁ := Int.emod_nonneg (n : ℤ) (show hi - lo ≠ 0 by omega)
  have h₂ := Int.emod_lt_of_pos (n : ℤ) (show 0 < hi - lo by omega)
  omega

theorem selectPivot_spec (hc : c.Lawful) (rng : ℕ → ℕ) (draws : ℕ) {lo hi : ℤ} (a : ℤ → α)
    (h : lo < hi) :
    (∃ i, lo ≤ i ∧ i < hi ∧ a i = (selectPivot c rng draws lo hi a).1) ∧
      ((selectPivot c rng draws lo hi a).2 = false →
        (∃ i, lo ≤ i ∧ i < hi ∧ c.compare (a i) (selectPivot c rng draws lo hi a).1 < 0) ∧
        (∃ i, lo ≤ i ∧ i < hi ∧ c.compare (selectPivot c rng draws lo hi a).1 (a i) < 0)) := by
  have hd := draw_mem h
  refine ⟨?_, fun hne => ?_⟩
  · rcases medianOfThree_mem (c := c) (a (lo + (rng draws : ℤ) % (hi - lo)))
      (a (lo + (rng (draws + 1) : ℤ) % (hi - lo))) (a (lo + (rng (draws + 2) : ℤ) % (hi - lo)))
      with hp | hp | hp
    · exact ⟨_, (hd _).1, (hd _).2, hp.symm⟩
    · exact ⟨_, (hd _).1, (hd _).2, hp.symm⟩
    · exact ⟨_, (hd _).1, (hd _).2, hp.symm⟩
  · obtain ⟨h12, h23, h13⟩ := medianOfThree_distinct hne
    obtain ⟨⟨t, ht, hlt⟩, ⟨t', ht', hgt⟩⟩ := medianOfThree_between hc h12 h23 h13
    refine ⟨?_, ?_⟩
    · rcases ht with rfl | rfl | rfl
      · exact ⟨_, (hd _).1, (hd _).2, hlt⟩
      · exact ⟨_, (hd _).1, (hd _).2, hlt⟩
      · exact ⟨_, (hd _).1, (hd _).2, hlt⟩
    · rcases ht' with rfl | rfl | rfl
      · exact ⟨_, (hd _).1, (hd _).2, hgt⟩
      · exact ⟨_, (hd _).1, (hd _).2, hgt⟩
      · exact ⟨_, (hd _).1, (hd _).2, hgt⟩

end Impala.TupleSorter
