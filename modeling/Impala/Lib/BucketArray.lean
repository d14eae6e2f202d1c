import Mathlib.Data.Finset.Card
import Mathlib.Data.List.Perm.Basic
import Mathlib.Logic.Function.Basic

/-!
Arrays of buckets, as functions `Nat → Option β` read at the indices of a range:
the filled indices, what the buckets of a range hold in index order, and how one
write to a bucket changes both.
-/

set_option autoImplicit false

namespace Impala.BucketArray

open Function

variable {β γ : Type} (f : β → List γ)

def held (a : Nat → Option β) (i : Nat) : List γ := ((a i).map f).getD []

def collect (a : Nat → Option β) (s k : Nat) : List γ :=
  (List.range' s k).flatMap (held f a)

def filled (a : Nat → Option β) (n : Nat) : Finset Nat :=
  (Finset.range n).filter fun i => (a i).isSome

@[simp] theorem held_none {a : Nat → Option β} {i : Nat} (h : a i = none) : held f a i = [] := by
  simp [held, h]

@[simp] theorem held_some {a : Nat → Option β} {i : Nat} {b : β} (h : a i = some b) :
    held f a i = f b := by
  simp [held, h]

theorem held_update_self (a : Nat → Option β) (j : Nat) (b : β) :
    held f (update a j (some b)) j = f b := by
  simp [held]

theorem held_update_of_ne (a : Nat → Option β) {i j : Nat} (x : Option β) (h : i ≠ j) :
    held f (update a j x) i = held f a i := by
  simp [held, update_of_ne h]

@[simp] theorem collect_zero (a : Nat → Option β) (s : Nat) : collect f a s 0 = [] := rfl

theorem collect_succ (a : Nat → Option β) (s k : Nat) :
    collect f a s (k + 1) = held f a s ++ collect f a (s + 1) k := by
  simp [collect, List.range'_succ]

theorem mem_collect {a : Nat → Option β} {s k : Nat} {x : γ} :
    x ∈ collect f a s k ↔ ∃ i, s ≤ i ∧ i < s + k ∧ x ∈ held f a i := by
  simp only [collect, List.mem_flatMap, List.mem_range']
  constructor
  · rintro ⟨i, ⟨m, hm, rfl⟩, hx⟩
    exact ⟨s + m, by omega, by omega, by simpa using hx⟩
  · rintro ⟨i, hs, hi, hx⟩
    exact ⟨i, ⟨i - s, by omega, by simp; omega⟩, hx⟩

theorem collect_of_none {a : Nat → Option β} {s k : Nat}
    (h : ∀ i, s ≤ i → i < s + k → a i = none) : collect f a s k = [] := by
  induction k generalizing s with
  | zero => rfl
  | succ k ih =>
    rw [collect_succ, held_none f (h s le_rfl (by omega)),
      ih fun i hs hi => h i (by omega) (by omega)]
    rfl

theorem collect_update_of_not_mem (a : Nat → Option β) {s k j : Nat} (x : Option β)
    (hj : j < s ∨ s + k ≤ j) : collect f (update a j x) s k = collect f a s k := by
  induction k generalizing s with
  | zero => rfl
  | succ k ih =>
    rw [collect_succ, collect_succ, held_update_of_ne f a x (by omega), ih (by omega)]

theorem collect_update_perm (a : Nat → Option β) {s k j : Nat} (b : β) (hs : s ≤ j)
    (hk : j < s + k) :
    (f b ++ collect f a s k).Perm (held f a j ++ collect f (update a j (some b)) s k) := by
  induction k generalizing s with
  | zero => omega
  | succ k ih =>
    rw [collect_succ, collect_succ]
    by_cases hjs : j = s
    · subst hjs
      rw [held_update_self, collect_update_of_not_mem f a _ (by omega)]
      exact List.perm_append_comm_assoc _ _ _
    · rw [held_update_of_ne f a _ (Ne.symm hjs)]
      have hrest := ih (s := s + 1) (by omega) (by omega)
      exact (List.perm_append_comm_assoc _ _ _).trans
        ((hrest.append_left _).trans (List.perm_append_comm_assoc _ _ _))

theorem isSome_update_of_isSome {a : Nat → Option β} (j : Nat) (b : β) {i : Nat}
    (h : (a i).isSome) : (update a j (some b) i).isSome := by
  by_cases hij : i = j
  · subst hij; simp
  · rwa [update_of_ne hij]

theorem mem_filled {a : Nat → Option β} {n i : Nat} :
    i ∈ filled a n ↔ i < n ∧ (a i).isSome := by
  simp [filled]

theorem card_filled_update_of_none {a : Nat → Option β} {n j : Nat} (b : β) (hj : j < n)
    (ha : a j = none) : (filled (update a j (some b)) n).card = (filled a n).card + 1 := by
  have hins : filled (update a j (some b)) n = insert j (filled a n) := by
    ext i
    by_cases hij : i = j
    · subst hij; simp [mem_filled, hj]
    · simp [mem_filled, hij]
  rw [hins, Finset.card_insert_of_notMem (by simp [mem_filled, ha])]

theorem filled_update_of_isSome {a : Nat → Option β} {n j : Nat} (b : β)
    (ha : (a j).isSome) : filled (update a j (some b)) n = filled a n := by
  ext i
  by_cases hij : i = j
  · subst hij; simp [mem_filled, ha]
  · simp [mem_filled, update_of_ne hij]

theorem exists_none_of_card_filled_lt {a : Nat → Option β} {n : Nat}
    (h : (filled a n).card < n) : ∃ i < n, a i = none := by
  by_contra hall
  simp only [not_exists, not_and] at hall
  have : filled a n = Finset.range n := by
    ext i
    simp only [mem_filled, Finset.mem_range, and_iff_left_iff_imp]
    intro hi
    exact Option.isSome_iff_ne_none.2 (hall i hi)
  rw [this, Finset.card_range] at h
  exact lt_irrefl n h

theorem card_filled_le (a : Nat → Option β) (n : Nat) : (filled a n).card ≤ n :=
  (Finset.card_filter_le _ _).trans (Finset.card_range n).le

theorem card_filled_eq_length (a : Nat → Option β) (n : Nat) :
    (filled a n).card = ((List.range n).filter fun i => (a i).isSome).length := by
  rw [filled, Finset.card_def, Finset.filter_val, Finset.range_val, Multiset.range,
    Multiset.filter_coe, Multiset.coe_card]
  simp only [Bool.decide_eq_true]

theorem length_filter_le_card_filled (a : Nat → Option β) {n : Nat} {l : List Nat}
    (hl : l.Nodup) (hlt : ∀ i ∈ l, i < n) :
    (l.filter fun i => (a i).isSome).length ≤ (filled a n).card := by
  rw [← List.toFinset_card_of_nodup (hl.filter _)]
  apply Finset.card_le_card
  intro i hi
  simp only [List.mem_toFinset, List.mem_filter] at hi
  exact mem_filled.2 ⟨hlt i hi.1, hi.2⟩

theorem collect_eq_flatMap_range (a : Nat → Option β) (n : Nat) :
    collect f a 0 n = (List.range n).flatMap (held f a) := by
  rw [collect, List.range_eq_range']

end Impala.BucketArray
