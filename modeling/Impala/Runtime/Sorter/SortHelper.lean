import Mathlib
import Impala.Runtime.Sorter.Partition2way
import Impala.Runtime.Sorter.Partition3way
import Impala.Runtime.Sorter.InsertionSort

/-!
`TupleSorter::SortHelper` (runtime/sorter-ir.cc): quicksort of `[begin, end)` down to ranges of
at most `INSERTION_THRESHOLD` tuples, which `InsertionSort` finishes. Each round partitions
around the median of three random tuples, recurses on the smaller part and goes on with the
larger one.

The model counts two things the code does not: `depth`, the frames of `SortHelper` the stack
still has room for, and `fuel`, the rounds of its loop. Either running out returns `none`.
-/

set_option autoImplicit false

namespace Impala.TupleSorter

open Segment

def insertionThreshold : ℤ := 16

/-- The tuples of the run, and how many numbers the random generator has given. -/
structure SortState (α : Type) where
  tuples : ℤ → α
  draws : ℕ

variable {α : Type} (c : Comparator α)

/-- The partition `SortHelper` calls: `Partition3way` when the sample had equal tuples,
otherwise `Partition2way`, with `cut_right = cut_left`. -/
def partition (lo hi : ℤ) (pivot : α) (hasEquals : Bool) (a : ℤ → α) :
    Option (ℤ × ℤ × (ℤ → α)) :=
  if hasEquals then partition3way c lo hi pivot a
  else (partition2way c lo hi pivot a).map fun r => (r.1, r.1, r.2)

def sortHelperLoop (rng : ℕ → ℕ) (recurse : SortState α → ℤ → ℤ → Option (SortState α)) :
    ℕ → SortState α → ℤ → ℤ → Option (SortState α)
  | 0, _, _, _ => none
  | fuel + 1, st, lo, hi =>
    if hi - lo > insertionThreshold then
      let pivot := selectPivot c rng st.draws lo hi st.tuples
      match partition c lo hi pivot.1 pivot.2 st.tuples with
      | some (cutLeft, cutRight, a) =>
        if cutLeft - lo < hi - cutRight then
          match recurse ⟨a, st.draws + 3⟩ lo cutLeft with
          | some st' => sortHelperLoop rng recurse fuel st' cutRight hi
          | none => none
        else
          match recurse ⟨a, st.draws + 3⟩ cutRight hi with
          | some st' => sortHelperLoop rng recurse fuel st' lo cutLeft
          | none => none
      | none => none
    else if lo < hi then (insertionSort c lo hi st.tuples).map fun a => { st with tuples := a }
    else some st

def sortHelper (rng : ℕ → ℕ) : ℕ → ℕ → SortState α → ℤ → ℤ → Option (SortState α)
  | 0, _, _, _, _ => none
  | depth + 1, fuel, st, lo, hi => sortHelperLoop c rng (sortHelper rng depth fuel) fuel st lo hi

/-! ## One round -/

/-- What both partitions leave, in the weaker form of `Partition2way`, with each part smaller
than the range. -/
structure PartitionPost (lo hi : ℤ) (pivot : α) (a₀ : ℤ → α) (cutLeft cutRight : ℤ)
    (a : ℤ → α) : Prop where
  perm : PermOn lo hi a₀ a
  lo_le : lo ≤ cutLeft
  cutLeft_le : cutLeft ≤ cutRight
  cutRight_le : cutRight ≤ hi
  lo_lt : lo < cutRight
  cutLeft_lt : cutLeft < hi
  below : ∀ k, lo ≤ k → k < cutLeft → c.compare (a k) pivot ≤ 0
  equal : ∀ k, cutLeft ≤ k → k < cutRight → c.compare (a k) pivot = 0
  above : ∀ k, cutRight ≤ k → k < hi → c.compare pivot (a k) ≤ 0

/-- What `SortHelper` achieves on `[lo, hi)`: the tuples there sorted and permuted, the others
where they were. -/
def Sorts (lo hi : ℤ) (st st' : SortState α) : Prop :=
  PermOn lo hi st.tuples st'.tuples ∧ SortedOn c.le lo hi st'.tuples

variable {c} (hc : c.Lawful)
include hc

theorem partition_spec (rng : ℕ → ℕ) (draws : ℕ) {lo hi : ℤ} (a : ℤ → α) (h : lo < hi) :
    ∃ cutLeft cutRight a',
      partition c lo hi (selectPivot c rng draws lo hi a).1 (selectPivot c rng draws lo hi a).2 a =
        some (cutLeft, cutRight, a') ∧
      PartitionPost c lo hi (selectPivot c rng draws lo hi a).1 a cutLeft cutRight a' := by
  obtain ⟨⟨i, hi₁, hi₂, hpi⟩, hdistinct⟩ := selectPivot_spec hc rng draws a h
  generalize selectPivot c rng draws lo hi a = sel at hpi hdistinct ⊢
  obtain ⟨pivot, hasEquals⟩ := sel
  simp only at hpi hdistinct ⊢
  have hp : ∃ i, lo ≤ i ∧ i < hi ∧ c.compare (a i) pivot = 0 :=
    ⟨i, hi₁, hi₂, by rw [hpi]; exact hc.compare_self pivot⟩
  cases hasEquals with
  | true =>
    obtain ⟨cutLeft, cutRight, a', h3, hres⟩ :=
      partition3way_spec pivot hc a (show lo ≤ hi by omega)
    have hlt := hres.cutLeft_lt hp
    refine ⟨cutLeft, cutRight, a', h3, ⟨hres.perm, hres.lo_le, hres.cutLeft_le, hres.cutRight_le,
      by have := hres.lo_le; omega, by have := hres.cutRight_le; omega,
      fun k h₁ h₂ => le_of_lt (hres.below k h₁ h₂), hres.equal,
      fun k h₁ h₂ => le_of_lt (hc.compare_pos_iff.1 (hres.above k h₁ h₂))⟩⟩
  | false =>
    obtain ⟨j, hj₁, hj₂, hj⟩ := (hdistinct rfl).1
    obtain ⟨cut, a', h2, hcut, hres, hprogress⟩ := partition2way_spec hc hp
    have hpos : lo < cut := hprogress (exists_not_above_after_lo hi₁ hi₂
      (by rw [hpi]; exact hc.compare_self pivot) hj₁ hj₂ hj)
    refine ⟨cut, cut, a', by simp [partition, h2], ⟨hres.perm, hcut, le_refl cut,
      le_of_lt hres.cut_lt, hpos, hres.cut_lt, hres.below, fun k h₁ h₂ => by omega, hres.above⟩⟩

theorem PartitionPost.sortedOn {lo hi : ℤ} {pivot : α} {a₀ a d : ℤ → α} {cutLeft cutRight : ℤ}
    (hpost : PartitionPost c lo hi pivot a₀ cutLeft cutRight a)
    (hL : ∀ k, lo ≤ k → k < cutLeft → ∃ j, lo ≤ j ∧ j < cutLeft ∧ a j = d k)
    (hM : ∀ k, cutLeft ≤ k → k < cutRight → d k = a k)
    (hR : ∀ k, cutRight ≤ k → k < hi → ∃ j, cutRight ≤ j ∧ j < hi ∧ a j = d k)
    (hsL : SortedOn c.le lo cutLeft d) (hsR : SortedOn c.le cutRight hi d) :
    SortedOn c.le lo hi d := by
  have hbelow : ∀ k, lo ≤ k → k < cutLeft → c.compare (d k) pivot ≤ 0 := fun k h₁ h₂ => by
    obtain ⟨j, hj₁, hj₂, hj⟩ := hL k h₁ h₂
    exact hj ▸ hpost.below j hj₁ hj₂
  have hequal : ∀ k, cutLeft ≤ k → k < cutRight → c.compare (d k) pivot = 0 := fun k h₁ h₂ => by
    rw [hM k h₁ h₂]
    exact hpost.equal k h₁ h₂
  have habove : ∀ k, cutRight ≤ k → k < hi → c.compare pivot (d k) ≤ 0 := fun k h₁ h₂ => by
    obtain ⟨j, hj₁, hj₂, hj⟩ := hR k h₁ h₂
    exact hj ▸ hpost.above j hj₁ hj₂
  have hmid : SortedOn c.le cutLeft cutRight d := fun k h₁ h₂ =>
    hc.le_trans _ pivot _ (le_of_eq (hequal k h₁ (by omega)))
      (le_of_eq ((hc.compare_eq_zero_comm).1 (hequal (k + 1) (by omega) h₂)))
  refine (hsL.append hmid fun h₁ h₂ => ?_).append hsR fun h₁ h₂ => ?_
  · exact hc.le_trans _ pivot _ (hbelow _ (by omega) (by omega))
      (le_of_eq ((hc.compare_eq_zero_comm).1 (hequal cutLeft (le_refl _) h₂)))
  · rcases lt_or_eq_of_le hpost.cutLeft_le with hlt | heq
    · exact hc.le_trans _ pivot _ (le_of_eq (hequal _ (by omega) (by omega)))
        (habove cutRight (le_refl _) h₂)
    · exact hc.le_trans _ pivot _ (hbelow _ (by omega) (by omega)) (habove cutRight (le_refl _) h₂)

omit hc in
theorem log_lt_of_two_mul_le {n m d : ℕ} (hn : 2 ≤ n) (hm : 2 * m ≤ n)
    (hd : Nat.log 2 n ≤ d) : Nat.log 2 m < d := by
  have hpos : 0 < Nat.log 2 n := Nat.log_pos (by norm_num) hn
  have hhalf : Nat.log 2 m ≤ Nat.log 2 (n / 2) := Nat.log_mono_right (by omega)
  rw [Nat.log_div_base] at hhalf
  omega

/-! ## The loop and the recursion -/

theorem sortHelperLoop_spec (rng : ℕ → ℕ) {recurse : SortState α → ℤ → ℤ → Option (SortState α)}
    {d fuel₀ : ℕ}
    (hrec : ∀ st lo hi, lo ≤ hi → Nat.log 2 (hi - lo).toNat < d → (hi - lo).toNat < fuel₀ →
      ∃ st', recurse st lo hi = some st' ∧ Sorts c lo hi st st')
    (fuel : ℕ) (st : SortState α) (lo hi : ℤ) (h : lo ≤ hi) (hd : Nat.log 2 (hi - lo).toNat ≤ d)
    (hfuel : (hi - lo).toNat < fuel) (hfuel₀ : (hi - lo).toNat < fuel₀) :
    ∃ st', sortHelperLoop c rng recurse fuel st lo hi = some st' ∧ Sorts c lo hi st st' := by
  induction fuel generalizing st lo hi with
  | zero => omega
  | succ fuel ih =>
    rw [sortHelperLoop]
    by_cases hbig : hi - lo > insertionThreshold
    · rw [if_pos hbig]
      simp only [insertionThreshold] at hbig
      obtain ⟨cutLeft, cutRight, a, hpart, hpost⟩ :=
        partition_spec hc rng st.draws st.tuples (show lo < hi by omega)
      have := hpost.lo_le
      have := hpost.cutLeft_le
      have := hpost.cutRight_le
      have := hpost.lo_lt
      have := hpost.cutLeft_lt
      have hn : 2 ≤ (hi - lo).toNat := by omega
      dsimp only
      rw [hpart]
      dsimp only
      by_cases hsmall : cutLeft - lo < hi - cutRight
      · rw [if_pos hsmall]
        obtain ⟨st₁, h₁, hperm₁, hsorted₁⟩ := hrec ⟨a, st.draws + 3⟩ lo cutLeft (by omega)
          (log_lt_of_two_mul_le hn (by omega) hd) (by omega)
        obtain ⟨st₂, h₂, hperm₂, hsorted₂⟩ := ih st₁ cutRight hi (by omega)
          (le_trans (Nat.log_mono_right (by omega)) hd) (by omega) (by omega)
        rw [h₁]
        refine ⟨st₂, h₂, hpost.perm.trans ((hperm₁.mono (le_refl lo) (by omega)).trans
          (hperm₂.mono (by omega) (le_refl hi))), hpost.sortedOn hc (fun k h₁ h₂ => ?_)
          (fun k h₁ h₂ => ?_) (fun k h₁ h₂ => ?_) ?_ hsorted₂⟩
        · rw [hperm₂.apply_of_not_mem (Or.inl (by omega))]
          exact hperm₁.exists_eq h₁ h₂
        · rw [hperm₂.apply_of_not_mem (Or.inl (by omega)),
            hperm₁.apply_of_not_mem (Or.inr h₁)]
        · obtain ⟨j, hj₁, hj₂, hj⟩ := hperm₂.exists_eq h₁ h₂
          exact ⟨j, hj₁, hj₂, by rw [← hj, hperm₁.apply_of_not_mem (Or.inr (by omega))]⟩
        · exact hsorted₁.congr fun k h₁ h₂ => hperm₂.apply_of_not_mem (Or.inl (by omega))
      · rw [if_neg hsmall]
        obtain ⟨st₁, h₁, hperm₁, hsorted₁⟩ := hrec ⟨a, st.draws + 3⟩ cutRight hi (by omega)
          (log_lt_of_two_mul_le hn (by omega) hd) (by omega)
        obtain ⟨st₂, h₂, hperm₂, hsorted₂⟩ := ih st₁ lo cutLeft (by omega)
          (le_trans (Nat.log_mono_right (by omega)) hd) (by omega) (by omega)
        rw [h₁]
        refine ⟨st₂, h₂, hpost.perm.trans ((hperm₁.mono (by omega) (le_refl hi)).trans
          (hperm₂.mono (le_refl lo) (by omega))), hpost.sortedOn hc (fun k h₁ h₂ => ?_)
          (fun k h₁ h₂ => ?_) (fun k h₁ h₂ => ?_) hsorted₂ ?_⟩
        · obtain ⟨j, hj₁, hj₂, hj⟩ := hperm₂.exists_eq h₁ h₂
          exact ⟨j, hj₁, hj₂, by rw [← hj, hperm₁.apply_of_not_mem (Or.inl (by omega))]⟩
        · rw [hperm₂.apply_of_not_mem (Or.inr h₁),
            hperm₁.apply_of_not_mem (Or.inl h₂)]
        · rw [hperm₂.apply_of_not_mem (Or.inr (by omega))]
          exact hperm₁.exists_eq h₁ h₂
        · exact hsorted₁.congr fun k h₁ h₂ => hperm₂.apply_of_not_mem (Or.inr (by omega))
    · rw [if_neg hbig]
      by_cases hlt : lo < hi
      · obtain ⟨r, hr, hperm, hsorted⟩ := insertionSort_spec hc st.tuples hlt
        rw [if_pos hlt, hr]
        exact ⟨_, rfl, hperm, hsorted⟩
      · rw [if_neg hlt]
        exact ⟨st, rfl, PermOn.refl _, SortedOn.of_le_succ (by omega)⟩

theorem sortHelper_spec (rng : ℕ → ℕ) (fuel : ℕ) :
    ∀ (depth : ℕ) (st : SortState α) (lo hi : ℤ), lo ≤ hi →
      Nat.log 2 (hi - lo).toNat < depth → (hi - lo).toNat < fuel →
      ∃ st', sortHelper c rng depth fuel st lo hi = some st' ∧ Sorts c lo hi st st' := by
  intro depth
  induction depth with
  | zero => intro st lo hi h hd; omega
  | succ depth ih =>
    intro st lo hi h hd hfuel
    exact sortHelperLoop_spec hc rng (fun st lo hi h hd hf => ih st lo hi h hd hf) fuel st lo hi h
      (by omega) hfuel hfuel

/-- `SortHelper(begin, end)` on `n` tuples, whatever the random draws: it ends, with the tuples
of the range permuted among themselves and in non-decreasing order, the others untouched; it
never reads or writes a tuple outside the range, its `while` loop runs at most `n + 1` rounds,
and the recursion is at most `log2(n) + 1` frames deep. -/
theorem sortHelper_sorts (rng : ℕ → ℕ) (st : SortState α) (lo : ℤ) (n : ℕ) :
    ∃ st', sortHelper c rng (Nat.log 2 n + 1) (n + 1) st lo (lo + n) = some st' ∧
      PermOn lo (lo + n) st.tuples st'.tuples ∧ SortedOn c.le lo (lo + n) st'.tuples := by
  have hn : (lo + n - lo).toNat = n := by omega
  obtain ⟨st', h, hperm, hsorted⟩ := sortHelper_spec hc rng (n + 1) (Nat.log 2 n + 1) st lo
    (lo + n) (by omega) (by rw [hn]; omega) (by rw [hn]; omega)
  exact ⟨st', h, hperm, hsorted⟩

omit hc in
theorem sortHelper_sorts_descending :
    ∃ st', sortHelper (Comparator.ofKey id) id (Nat.log 2 20 + 1) (20 + 1)
        ⟨fun i => -i, 0⟩ 0 (0 + 20) = some st' ∧
      PermOn 0 (0 + 20) (fun i => -i) st'.tuples ∧
      SortedOn (Comparator.ofKey id).le 0 (0 + 20) st'.tuples :=
  sortHelper_sorts (Comparator.ofKey_lawful id) id ⟨fun i => -i, 0⟩ 0 20

end Impala.TupleSorter
