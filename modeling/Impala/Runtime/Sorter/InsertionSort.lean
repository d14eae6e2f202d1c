import Mathlib
import Impala.Runtime.Sorter.TupleSorterBasic

/-!
`TupleSorter::InsertionSort` (runtime/sorter-ir.cc), used for ranges of at most
`INSERTION_THRESHOLD` tuples. The tuple at `insert_iter` is copied to `temp_tuple_buffer_`; the
larger tuples before it move up one place each, through a hole at `copy_to`, until `temp` is
not below `iter` or `iter` reaches `begin`.
-/

set_option autoImplicit false

namespace Impala.TupleSorter

open Segment

variable {α : Type} (c : Comparator α) (lo hi : ℤ)

def insertionSortInsert (temp : α) (a : ℤ → α) (iter copyTo : ℤ) : Option (ℤ → α) :=
  if lo ≤ iter ∧ iter < hi then
    if c.less temp (a iter) then
      match write lo hi a copyTo (a iter) with
      | some a' =>
        if iter ≤ lo then write lo hi a' iter temp
        else insertionSortInsert temp a' (iter - 1) iter
      | none => none
    else write lo hi a copyTo temp
  else none
termination_by (iter - lo + 1).toNat

def insertionSortLoop (a : ℤ → α) (insertIter : ℤ) : Option (ℤ → α) :=
  if insertIter < hi then
    if lo ≤ insertIter then
      match insertionSortInsert c lo hi (a insertIter) a (insertIter - 1) insertIter with
      | some a' => insertionSortLoop a' (insertIter + 1)
      | none => none
    else none
  else some a
termination_by (hi - insertIter).toNat

def insertionSort (a : ℤ → α) : Option (ℤ → α) :=
  insertionSortLoop c lo hi a (lo + 1)

/-- The inner loop's invariant, `A` the tuples before it and `temp` the tuple at `m`: below the
hole nothing has moved, above it up to `m` each tuple is its predecessor in `A`, larger than
`temp`, and with `temp` in the hole the tuples are a permutation of `A`. -/
structure InsertInv (A : ℤ → α) (temp : α) (m : ℤ) (a : ℤ → α) (hole : ℤ) : Prop where
  lo_le : lo ≤ hole
  hole_le : hole ≤ m
  m_lt : m < hi
  perm : PermOn lo hi A (Function.update a hole temp)
  below : ∀ k, k < hole → a k = A k
  shifted : ∀ k, hole < k → k ≤ m → a k = A (k - 1) ∧ c.less temp (A (k - 1)) = true

variable {c lo hi}

namespace InsertInv

variable {A : ℤ → α} {temp : α} {m : ℤ} {a : ℤ → α} {hole : ℤ}

theorem hole_lt (hinv : InsertInv c lo hi A temp m a hole) : hole < hi :=
  lt_of_le_of_lt hinv.hole_le hinv.m_lt

theorem start (hlo : lo ≤ m) (hm : m < hi) : InsertInv c lo hi A (A m) m A m :=
  ⟨hlo, le_refl m, hm, by rw [Function.update_eq_self]; exact PermOn.refl A,
    fun _ _ => rfl, fun k h₁ h₂ => by omega⟩

theorem shift (hinv : InsertInv c lo hi A temp m a hole) (hlo : lo < hole)
    (hless : c.less temp (a (hole - 1)) = true) :
    InsertInv c lo hi A temp m (Function.update a hole (a (hole - 1))) (hole - 1) := by
  have hne : hole ≠ hole - 1 := by omega
  refine ⟨by omega, by have := hinv.hole_le; omega, hinv.m_lt, ?_, fun k hk => ?_,
    fun k h₁ h₂ => ?_⟩
  · rw [update_update_eq_update_comp_swap a hne temp]
    have := hinv.hole_lt
    exact hinv.perm.trans (PermOn.swap ⟨by omega, by omega⟩ ⟨by omega, by omega⟩)
  · rw [Function.update_of_ne (by omega)]
    exact hinv.below k (by omega)
  · by_cases hk : k = hole
    · subst hk
      rw [Function.update_self, hinv.below (k - 1) (by omega)]
      rw [hinv.below (k - 1) (by omega)] at hless
      exact ⟨rfl, hless⟩
    · rw [Function.update_of_ne hk]
      exact hinv.shifted k (by omega) h₂

theorem sorted (hinv : InsertInv c lo hi A temp m a hole) (hc : c.Lawful)
    (hsorted : SortedOn c.le lo m A)
    (hstop : lo < hole → c.compare (A (hole - 1)) temp ≤ 0) :
    SortedOn c.le lo (m + 1) (Function.update a hole temp) := by
  intro i h₁ h₂
  have := hinv.lo_le
  have := hinv.hole_le
  have hlt : ∀ k, hole < k → k ≤ m → c.le temp (A (k - 1)) := fun k hk₁ hk₂ =>
    le_of_lt ((hc.less_iff _ _).1 (hinv.shifted k hk₁ hk₂).2)
  rcases lt_trichotomy (i + 1) hole with hi | hi | hi
  · rw [Function.update_of_ne (by omega), Function.update_of_ne (by omega),
      hinv.below i (by omega), hinv.below (i + 1) hi]
    exact hsorted i h₁ (by omega)
  · rw [Function.update_of_ne (by omega), hi, Function.update_self, hinv.below i (by omega)]
    have := hstop (by omega)
    rwa [show hole - 1 = i by omega] at this
  · rcases eq_or_lt_of_le (Int.lt_add_one_iff.1 hi) with hi' | hi'
    · subst hi'
      rw [Function.update_self, Function.update_of_ne (by omega),
        (hinv.shifted (hole + 1) (by omega) (by omega)).1]
      simpa using hlt (hole + 1) (by omega) (by omega)
    · rw [Function.update_of_ne (by omega), Function.update_of_ne (by omega),
        (hinv.shifted i hi' (by omega)).1, (hinv.shifted (i + 1) (by omega) (by omega)).1]
      have := hsorted (i - 1) (by omega) (by omega)
      rwa [show i - 1 + 1 = i + 1 - 1 by omega] at this

end InsertInv

variable (hc : c.Lawful)
include hc

theorem insertionSortInsert_spec {A : ℤ → α} {temp : α} {m : ℤ} {a : ℤ → α} {iter copyTo : ℤ}
    (hsorted : SortedOn c.le lo m A) (hinv : InsertInv c lo hi A temp m a copyTo)
    (hiter : iter = copyTo - 1) (hlo : lo < copyTo) :
    ∃ r, insertionSortInsert c lo hi temp a iter copyTo = some r ∧ PermOn lo hi A r ∧
      SortedOn c.le lo (m + 1) r := by
  fun_induction insertionSortInsert c lo hi temp a iter copyTo with
  | case1 a iter copyTo hmem hless a' hwrite hle =>
    subst hiter
    rw [write_of_mem _ ⟨by omega, by have := hinv.hole_lt; omega⟩] at hwrite
    cases hwrite
    have hinv' := hinv.shift hlo hless
    refine ⟨_, write_of_mem _ ⟨by omega, by omega⟩, hinv'.perm, hinv'.sorted hc hsorted ?_⟩
    intro h
    omega
  | case2 a iter copyTo hmem hless a' hwrite hgt ih =>
    subst hiter
    rw [write_of_mem _ ⟨by omega, by have := hinv.hole_lt; omega⟩] at hwrite
    cases hwrite
    exact ih (hinv.shift hlo hless) rfl (by omega)
  | case3 a iter copyTo hmem hless hwrite =>
    subst hiter
    rw [write_of_mem _ ⟨by omega, by have := hinv.hole_lt; omega⟩] at hwrite
    cases hwrite
  | case4 a iter copyTo hmem hless =>
    subst hiter
    refine ⟨_, write_of_mem _ ⟨by omega, by have := hinv.hole_lt; omega⟩,
      hinv.perm, hinv.sorted hc hsorted fun _ => ?_⟩
    rw [← hinv.below (copyTo - 1) (by omega)]
    exact hc.less_eq_false_iff.1 (by simpa using hless)
  | case5 a iter copyTo hmem =>
    subst hiter
    exact absurd ⟨by omega, by have := hinv.hole_lt; omega⟩ hmem

theorem insertionSortLoop_spec {a₀ a : ℤ → α} {insertIter : ℤ} (hperm : PermOn lo hi a₀ a)
    (hsorted : SortedOn c.le lo insertIter a) (hlo : lo < insertIter) (hhi : insertIter ≤ hi) :
    ∃ r, insertionSortLoop c lo hi a insertIter = some r ∧ PermOn lo hi a₀ r ∧
      SortedOn c.le lo hi r := by
  fun_induction insertionSortLoop c lo hi a insertIter with
  | case1 a insertIter hlt hle a' hins ih =>
    obtain ⟨r, hr, hperm', hsorted'⟩ :=
      insertionSortInsert_spec hc hsorted (InsertInv.start hle hlt) rfl hlo
    rw [hr] at hins
    cases hins
    exact ih (hperm.trans hperm') hsorted' (by omega) (by omega)
  | case2 a insertIter hlt hle hins =>
    obtain ⟨r, hr, -⟩ := insertionSortInsert_spec hc hsorted (InsertInv.start hle hlt) rfl hlo
    rw [hr] at hins
    cases hins
  | case3 a insertIter hlt hle => exact absurd (by omega) hle
  | case4 a insertIter hge =>
    exact ⟨a, rfl, hperm, hsorted.mono (le_refl lo) (by omega)⟩

theorem insertionSort_spec (a : ℤ → α) (h : lo < hi) :
    ∃ r, insertionSort c lo hi a = some r ∧ PermOn lo hi a r ∧ SortedOn c.le lo hi r :=
  insertionSortLoop_spec hc (PermOn.refl a) (SortedOn.of_le_succ (le_refl _)) (by omega) h

end Impala.TupleSorter
