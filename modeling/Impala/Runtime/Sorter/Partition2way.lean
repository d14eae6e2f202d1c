import Mathlib
import Impala.Runtime.Sorter.TupleSorterBasic

/-!
`TupleSorter::Partition2way` (runtime/sorter-ir.cc): Hoare's partition of `[begin, end)` around
a copy of the pivot. Its two scans have no bound check: `left` stops at a tuple not below the
pivot and `right` at one not above it, and the pivot, a tuple of the range, stops both the first
time; afterwards the last exchanged pair does.
-/

set_option autoImplicit false

namespace Impala.TupleSorter

open Segment

variable {α : Type} (c : Comparator α) (lo hi : ℤ) (pivot : α)

def scanLeft (a : ℤ → α) (left : ℤ) : Option ℤ :=
  if lo ≤ left ∧ left < hi then
    if c.less (a left) pivot then scanLeft a (left + 1) else some left
  else none
termination_by (hi - left).toNat

def scanRight (a : ℤ → α) (right : ℤ) : Option ℤ :=
  if lo ≤ right ∧ right < hi then
    if c.less pivot (a right) then scanRight a (right - 1) else some right
  else none
termination_by (right - lo + 1).toNat

variable {c lo hi pivot}

theorem scanLeft_ge {a : ℤ → α} {left l : ℤ} (h : scanLeft c lo hi pivot a left = some l) :
    left ≤ l := by
  fun_induction scanLeft c lo hi pivot a left with
  | case1 left hmem hless ih => have := ih h; omega
  | case2 left hmem hless => simp at h; omega
  | case3 left hmem => simp at h

theorem scanRight_le {a : ℤ → α} {right r : ℤ} (h : scanRight c lo hi pivot a right = some r) :
    r ≤ right := by
  fun_induction scanRight c lo hi pivot a right with
  | case1 right hmem hless ih => have := ih h; omega
  | case2 right hmem hless => simp at h; omega
  | case3 right hmem => simp at h

variable (c lo hi pivot)

/-- The `while (true)` loop of `Partition2way` from the iterators `left` and `right`: the cut it
stores and the tuples. -/
def partition2wayLoop (a : ℤ → α) (left right : ℤ) : Option (ℤ × (ℤ → α)) :=
  match _hl : scanLeft c lo hi pivot a left, _hr : scanRight c lo hi pivot a right with
  | some l, some r =>
    if l ≥ r then some (l, a)
    else
      match swap lo hi a l r with
      | some a' => partition2wayLoop a' (l + 1) (r - 1)
      | none => none
  | _, _ => none
termination_by (right - left + 1).toNat
decreasing_by
  have := scanLeft_ge _hl
  have := scanRight_le _hr
  omega

def partition2way (a : ℤ → α) : Option (ℤ × (ℤ → α)) :=
  partition2wayLoop c lo hi pivot a lo (hi - 1)

variable {c lo hi pivot}

theorem partition2wayLoop_of_scans {a : ℤ → α} {left right l r : ℤ}
    (hl : scanLeft c lo hi pivot a left = some l) (hr : scanRight c lo hi pivot a right = some r) :
    partition2wayLoop c lo hi pivot a left right =
      if l ≥ r then some (l, a)
      else (swap lo hi a l r).bind fun a' => partition2wayLoop c lo hi pivot a' (l + 1) (r - 1) := by
  rw [partition2wayLoop]
  split
  · rename_i l' r' hl' hr'
    rw [hl] at hl'
    rw [hr] at hr'
    cases hl'
    cases hr'
    split_ifs
    · rfl
    · cases swap lo hi a l r <;> rfl
  · rename_i h
    exact (h l r hl hr).elim

/-! ## The scans -/

theorem scanLeft_spec {a : ℤ → α} {left : ℤ} (hlo : lo ≤ left)
    (hstop : ∃ k, left ≤ k ∧ k < hi ∧ c.less (a k) pivot = false) :
    ∃ l, scanLeft c lo hi pivot a left = some l ∧ left ≤ l ∧ l < hi ∧
      c.less (a l) pivot = false ∧ ∀ k, left ≤ k → k < l → c.less (a k) pivot = true := by
  fun_induction scanLeft c lo hi pivot a left with
  | case1 left hmem hless ih =>
    obtain ⟨k, hk₁, hk₂, hk⟩ := hstop
    have hk' : left + 1 ≤ k := by
      rcases eq_or_lt_of_le hk₁ with rfl | h
      · rw [hless] at hk
        contradiction
      · omega
    obtain ⟨l, hl, hl₁, hl₂, hl₃, hl₄⟩ := ih (by omega) ⟨k, hk', hk₂, hk⟩
    refine ⟨l, hl, by omega, hl₂, hl₃, fun k' hk₁' hk₂' => ?_⟩
    rcases eq_or_lt_of_le hk₁' with rfl | h
    · exact hless
    · exact hl₄ k' (by omega) hk₂'
  | case2 left hmem hless =>
    exact ⟨left, rfl, le_refl _, hmem.2, by simpa using hless, fun k h₁ h₂ => by omega⟩
  | case3 left hmem =>
    obtain ⟨k, hk₁, hk₂, -⟩ := hstop
    exact absurd ⟨hlo, by omega⟩ hmem

theorem scanRight_spec {a : ℤ → α} {right : ℤ} (hhi : right < hi)
    (hstop : ∃ k, lo ≤ k ∧ k ≤ right ∧ c.less pivot (a k) = false) :
    ∃ r, scanRight c lo hi pivot a right = some r ∧ r ≤ right ∧ lo ≤ r ∧
      c.less pivot (a r) = false ∧ ∀ k, r < k → k ≤ right → c.less pivot (a k) = true := by
  fun_induction scanRight c lo hi pivot a right with
  | case1 right hmem hless ih =>
    obtain ⟨k, hk₁, hk₂, hk⟩ := hstop
    have hk' : k ≤ right - 1 := by
      rcases eq_or_lt_of_le hk₂ with rfl | h
      · rw [hless] at hk
        contradiction
      · omega
    obtain ⟨r, hr, hr₁, hr₂, hr₃, hr₄⟩ := ih (by omega) ⟨k, hk₁, hk', hk⟩
    refine ⟨r, hr, by omega, hr₂, hr₃, fun k' hk₁' hk₂' => ?_⟩
    rcases eq_or_lt_of_le hk₂' with rfl | h
    · exact hless
    · exact hr₄ k' hk₁' (by omega)
  | case2 right hmem hless =>
    exact ⟨right, rfl, le_refl _, hmem.1, by simpa using hless, fun k h₁ h₂ => by omega⟩
  | case3 right hmem =>
    obtain ⟨k, hk₁, hk₂, -⟩ := hstop
    exact absurd ⟨by omega, hhi⟩ hmem

/-! ## The loop -/

variable (c lo hi pivot)

/-- The loop invariant: `[begin, left)` is not above the pivot and `(right, end)` not below it,
and each scan has a tuple ahead of it that stops it. -/
structure Partition2Inv (a₀ a : ℤ → α) (left right : ℤ) : Prop where
  perm : PermOn lo hi a₀ a
  left_ge : lo ≤ left
  right_lt : right < hi
  below : ∀ k, lo ≤ k → k < left → c.compare (a k) pivot ≤ 0
  above : ∀ k, right < k → k < hi → c.compare pivot (a k) ≤ 0
  stop_left : ∃ k, left ≤ k ∧ k < hi ∧ c.less (a k) pivot = false
  stop_right : ∃ k, lo ≤ k ∧ k ≤ right ∧ c.less pivot (a k) = false

/-- What `Partition2way` leaves: a permutation of the range with `[begin, cut)` not above the
pivot and `[cut, end)` not below it. -/
structure Partition2Result (a₀ : ℤ → α) (cut : ℤ) (a : ℤ → α) : Prop where
  perm : PermOn lo hi a₀ a
  cut_lt : cut < hi
  below : ∀ k, lo ≤ k → k < cut → c.compare (a k) pivot ≤ 0
  above : ∀ k, cut ≤ k → k < hi → c.compare pivot (a k) ≤ 0

/-- Where the two scans stop: `l` at a tuple not below the pivot after tuples below it, `r` at
one not above it before tuples above it. -/
structure Partition2Stops (a : ℤ → α) (left right l r : ℤ) : Prop where
  left_le : left ≤ l
  l_lt : l < hi
  r_le : r ≤ right
  lo_le : lo ≤ r
  at_l : c.compare pivot (a l) ≤ 0
  at_r : c.compare (a r) pivot ≤ 0
  before_l : ∀ k, left ≤ k → k < l → c.compare (a k) pivot < 0
  after_r : ∀ k, r < k → k ≤ right → c.compare pivot (a k) < 0

variable {c lo hi pivot} (hc : c.Lawful)
include hc

namespace Partition2Inv

variable {a₀ a : ℤ → α} {left right : ℤ}

omit hc in
theorem scans (hinv : Partition2Inv c lo hi pivot a₀ a left right) :
    ∃ l r, scanLeft c lo hi pivot a left = some l ∧ scanRight c lo hi pivot a right = some r := by
  obtain ⟨l, hl, -⟩ := scanLeft_spec hinv.left_ge hinv.stop_left
  obtain ⟨r, hr, -⟩ := scanRight_spec hinv.right_lt hinv.stop_right
  exact ⟨l, r, hl, hr⟩

theorem stops (hinv : Partition2Inv c lo hi pivot a₀ a left right) {l r : ℤ}
    (hl : scanLeft c lo hi pivot a left = some l) (hr : scanRight c lo hi pivot a right = some r) :
    Partition2Stops c lo hi pivot a left right l r := by
  obtain ⟨l', hl', hl₁, hl₂, hl₃, hl₄⟩ := scanLeft_spec hinv.left_ge hinv.stop_left
  obtain ⟨r', hr', hr₁, hr₂, hr₃, hr₄⟩ := scanRight_spec hinv.right_lt hinv.stop_right
  rw [hl, Option.some.injEq] at hl'
  rw [hr, Option.some.injEq] at hr'
  subst hl' hr'
  exact ⟨hl₁, hl₂, hr₁, hr₂, (hc.less_eq_false_iff).1 hl₃, (hc.less_eq_false_iff).1 hr₃,
    fun k h₁ h₂ => (hc.less_iff _ _).1 (hl₄ k h₁ h₂), fun k h₁ h₂ => (hc.less_iff _ _).1 (hr₄ k h₁ h₂)⟩

theorem swap (hinv : Partition2Inv c lo hi pivot a₀ a left right) {l r : ℤ}
    (hs : Partition2Stops c lo hi pivot a left right l r) (hlr : l < r) :
    Partition2Inv c lo hi pivot a₀ (a ∘ Equiv.swap l r) (l + 1) (r - 1) := by
  have hlo := hinv.left_ge
  have hhi := hinv.right_lt
  have := hs.left_le
  have := hs.r_le
  have hsw : ∀ k, k ≠ l → k ≠ r → (a ∘ Equiv.swap l r) k = a k := fun k h₁ h₂ => by
    simp [Equiv.swap_apply_of_ne_of_ne h₁ h₂]
  refine ⟨hinv.perm.trans (PermOn.swap ⟨by omega, by omega⟩ ⟨by omega, by omega⟩),
    by omega, by omega, fun k h₁ h₂ => ?_, fun k h₁ h₂ => ?_, ⟨r, by omega, by omega, ?_⟩,
    ⟨l, by omega, by omega, ?_⟩⟩
  · rcases lt_trichotomy k l with hk | rfl | hk
    · rw [hsw k (by omega) (by omega)]
      rcases lt_or_ge k left with hk' | hk'
      · exact hinv.below k h₁ hk'
      · exact le_of_lt (hs.before_l k hk' hk)
    · simpa using hs.at_r
    · omega
  · rcases lt_trichotomy k r with hk | rfl | hk
    · omega
    · simpa using hs.at_l
    · rw [hsw k (by omega) (by omega)]
      rcases le_or_gt k right with hk' | hk'
      · exact le_of_lt (hs.after_r k hk hk')
      · exact hinv.above k hk' h₂
  · simpa [hc.less_eq_false_iff] using hs.at_l
  · simpa [hc.less_eq_false_iff] using hs.at_r

omit hc in
theorem result (hinv : Partition2Inv c lo hi pivot a₀ a left right) {l r : ℤ}
    (hs : Partition2Stops c lo hi pivot a left right l r) (hlr : l ≥ r) :
    Partition2Result c lo hi pivot a₀ l a := by
  refine ⟨hinv.perm, hs.l_lt, fun k h₁ h₂ => ?_, fun k h₁ h₂ => ?_⟩
  · rcases lt_or_ge k left with hk | hk
    · exact hinv.below k h₁ hk
    · exact le_of_lt (hs.before_l k hk h₂)
  · rcases lt_or_ge right k with hk | hk
    · exact hinv.above k hk h₂
    · rcases lt_or_ge r k with hk' | hk'
      · exact le_of_lt (hs.after_r k hk' hk)
      · obtain rfl : k = l := by have := hs.left_le; omega
        exact hs.at_l

end Partition2Inv

theorem partition2wayLoop_spec {a₀ a : ℤ → α} {left right : ℤ}
    (hinv : Partition2Inv c lo hi pivot a₀ a left right) :
    ∃ cut a', partition2wayLoop c lo hi pivot a left right = some (cut, a') ∧ left ≤ cut ∧
      Partition2Result c lo hi pivot a₀ cut a' := by
  fun_induction partition2wayLoop c lo hi pivot a left right with
  | case1 a left right l r hl hr hlr =>
    have hs := hinv.stops hc hl hr
    exact ⟨l, a, rfl, hs.left_le, hinv.result hs hlr⟩
  | case2 a left right l r hl hr hlr a' hswap ih =>
    have hs := hinv.stops hc hl hr
    have := hinv.left_ge
    have := hinv.right_lt
    have := hs.left_le
    have := hs.r_le
    rw [swap_of_mem ⟨by omega, hs.l_lt⟩ ⟨hs.lo_le, by omega⟩, Option.some.injEq] at hswap
    subst hswap
    obtain ⟨cut, a'', h, hcut, hres⟩ := ih (hinv.swap hc hs (by omega))
    exact ⟨cut, a'', h, by omega, hres⟩
  | case3 a left right l r hl hr hlr hswap =>
    have hs := hinv.stops hc hl hr
    have := hinv.left_ge
    have := hinv.right_lt
    have := hs.left_le
    have := hs.r_le
    rw [swap_of_mem ⟨by omega, hs.l_lt⟩ ⟨hs.lo_le, by omega⟩] at hswap
    cases hswap
  | case4 a left right hnone =>
    obtain ⟨l, r, hl, hr⟩ := hinv.scans
    exact (hnone l r hl hr).elim

theorem partition2Inv_start {a : ℤ → α}
    (hp : ∃ i, lo ≤ i ∧ i < hi ∧ c.compare (a i) pivot = 0) :
    Partition2Inv c lo hi pivot a a lo (hi - 1) := by
  obtain ⟨i, hi₁, hi₂, hpi⟩ := hp
  have hpi' := (hc.compare_eq_zero_comm).1 hpi
  refine ⟨PermOn.refl a, le_refl lo, by omega, fun k h₁ h₂ => by omega, fun k h₁ h₂ => by omega,
    ⟨i, hi₁, hi₂, ?_⟩, ⟨i, hi₁, by omega, ?_⟩⟩
  · rw [← Bool.not_eq_true, hc.less_iff]
    omega
  · rw [← Bool.not_eq_true, hc.less_iff]
    omega

theorem partition2way_spec {a : ℤ → α}
    (hp : ∃ i, lo ≤ i ∧ i < hi ∧ c.compare (a i) pivot = 0) :
    ∃ cut a', partition2way c lo hi pivot a = some (cut, a') ∧ lo ≤ cut ∧
      Partition2Result c lo hi pivot a cut a' ∧
      ((∃ j, lo < j ∧ j < hi ∧ c.compare (a j) pivot ≤ 0) → lo < cut) := by
  have hinv := partition2Inv_start hc hp
  obtain ⟨l, r, hl, hr⟩ := hinv.scans
  have hs := hinv.stops hc hl hr
  rw [partition2way, partition2wayLoop_of_scans hl hr]
  by_cases hlr : l ≥ r
  · rw [if_pos hlr]
    refine ⟨l, a, rfl, hs.left_le, hinv.result hs hlr, fun ⟨j, hj₁, hj₂, hj⟩ => ?_⟩
    by_contra hcut
    have := hs.after_r j (by omega) (by omega)
    have := (hc.compare_nonpos_iff).1 hj
    omega
  · have := hs.left_le
    have := hs.r_le
    rw [if_neg hlr, swap_of_mem ⟨by omega, hs.l_lt⟩ ⟨hs.lo_le, by omega⟩]
    obtain ⟨cut, a', h, hcut, hres⟩ := partition2wayLoop_spec hc (hinv.swap hc hs (by omega))
    exact ⟨cut, a', h, by omega, hres, fun _ => by omega⟩

omit hc in
theorem exists_not_above_after_lo {a : ℤ → α} {i j : ℤ} (hi₁ : lo ≤ i) (hi₂ : i < hi)
    (hpi : c.compare (a i) pivot = 0) (hj₁ : lo ≤ j) (hj₂ : j < hi)
    (hpj : c.compare (a j) pivot < 0) :
    ∃ k, lo < k ∧ k < hi ∧ c.compare (a k) pivot ≤ 0 := by
  have hij : i ≠ j := fun hij => by
    subst hij
    omega
  rcases lt_or_ge lo i with h | h
  · exact ⟨i, h, hi₂, le_of_eq hpi⟩
  · exact ⟨j, by omega, hj₂, le_of_lt hpj⟩

/-- Around the median of three pairwise distinct tuples of the range, `Partition2way` cuts the
range strictly inside: both parts are non-empty, the first not above the median and the second
not below it, and the range is permuted. -/
theorem partition2way_cut_inside_of_distinct {a : ℤ → α} {i₁ i₂ i₃ : ℤ}
    (h₁ : lo ≤ i₁ ∧ i₁ < hi) (h₂ : lo ≤ i₂ ∧ i₂ < hi) (h₃ : lo ≤ i₃ ∧ i₃ < hi)
    (h12 : c.compare (a i₁) (a i₂) ≠ 0) (h23 : c.compare (a i₂) (a i₃) ≠ 0)
    (h13 : c.compare (a i₁) (a i₃) ≠ 0) :
    ∃ cut a', partition2way c lo hi (medianOfThree c (a i₁) (a i₂) (a i₃)).1 a = some (cut, a') ∧
      lo < cut ∧ cut < hi ∧
      Partition2Result c lo hi (medianOfThree c (a i₁) (a i₂) (a i₃)).1 a cut a' := by
  generalize hp : (medianOfThree c (a i₁) (a i₂) (a i₃)).1 = p
  have hmem := medianOfThree_mem (c := c) (a i₁) (a i₂) (a i₃)
  obtain ⟨⟨t, ht, hlt⟩, -⟩ := medianOfThree_between hc h12 h23 h13
  rw [hp] at hmem hlt
  have hpivot : ∃ i, lo ≤ i ∧ i < hi ∧ c.compare (a i) p = 0 := by
    rcases hmem with h | h | h
    · exact ⟨i₁, h₁.1, h₁.2, by rw [h, hc.compare_self]⟩
    · exact ⟨i₂, h₂.1, h₂.2, by rw [h, hc.compare_self]⟩
    · exact ⟨i₃, h₃.1, h₃.2, by rw [h, hc.compare_self]⟩
  have hbelow : ∃ j, lo ≤ j ∧ j < hi ∧ c.compare (a j) p < 0 := by
    rcases ht with rfl | rfl | rfl
    · exact ⟨i₁, h₁.1, h₁.2, hlt⟩
    · exact ⟨i₂, h₂.1, h₂.2, hlt⟩
    · exact ⟨i₃, h₃.1, h₃.2, hlt⟩
  obtain ⟨i, hi₁, hi₂, hpi⟩ := hpivot
  obtain ⟨j, hj₁, hj₂, hpj⟩ := hbelow
  obtain ⟨cut, a', h, hcut, hres, hprogress⟩ := partition2way_spec hc ⟨i, hi₁, hi₂, hpi⟩
  exact ⟨cut, a', h, hprogress (exists_not_above_after_lo hi₁ hi₂ hpi hj₁ hj₂ hpj), hres.cut_lt,
    hres⟩

omit hc in
theorem partition2way_cut_inside_of_distinct_identity :
    ∃ cut a', partition2way (Comparator.ofKey id) 0 10
        (medianOfThree (Comparator.ofKey id) (id 0) (id 1) (id 2)).1 id = some (cut, a') ∧
      0 < cut ∧ cut < 10 ∧
      Partition2Result (Comparator.ofKey id) 0 10
        (medianOfThree (Comparator.ofKey id) (id 0) (id 1) (id 2)).1 id cut a' :=
  partition2way_cut_inside_of_distinct (Comparator.ofKey_lawful id) (a := id)
    (by decide) (by decide) (by decide) (by decide) (by decide) (by decide)

end Impala.TupleSorter
