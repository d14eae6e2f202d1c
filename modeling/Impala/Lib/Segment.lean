import Mathlib

/-!
Arrays as functions from integer indices to entries, and the segment `[lo, hi)` of one. An
in-place algorithm that exchanges entries and recurses on sub-segments is checked against two
notions: the entries of a segment permuted among themselves (`PermOn`), and a segment in which
each entry is related to the next (`SortedOn`).
-/

set_option autoImplicit false

namespace Impala.Segment

variable {α : Type*}

def PermOn (lo hi : ℤ) (a b : ℤ → α) : Prop :=
  ∃ σ : Equiv.Perm ℤ, (∀ i, (i < lo ∨ hi ≤ i) → σ i = i) ∧ b = a ∘ σ

theorem mem_of_fix_outside {lo hi : ℤ} {σ : Equiv.Perm ℤ}
    (hσ : ∀ i, (i < lo ∨ hi ≤ i) → σ i = i) {i : ℤ} (hlo : lo ≤ i) (hhi : i < hi) :
    lo ≤ σ i ∧ σ i < hi := by
  by_contra hout
  have hfix := hσ (σ i) (by omega)
  have : σ i = i := σ.injective hfix
  omega

namespace PermOn

variable {lo hi : ℤ} {a b d : ℤ → α}

theorem refl (a : ℤ → α) : PermOn lo hi a a := ⟨1, fun _ _ => rfl, rfl⟩

theorem trans (h₁ : PermOn lo hi a b) (h₂ : PermOn lo hi b d) : PermOn lo hi a d := by
  obtain ⟨σ, hσ, rfl⟩ := h₁
  obtain ⟨τ, hτ, rfl⟩ := h₂
  refine ⟨σ * τ, fun i hout => ?_, rfl⟩
  rw [Equiv.Perm.mul_apply, hτ i hout, hσ i hout]

theorem mono {lo' hi' : ℤ} (h : PermOn lo hi a b) (hlo : lo' ≤ lo) (hhi : hi ≤ hi') :
    PermOn lo' hi' a b := by
  obtain ⟨σ, hσ, rfl⟩ := h
  exact ⟨σ, fun i hout => hσ i (by omega), rfl⟩

theorem apply_of_not_mem (h : PermOn lo hi a b) {i : ℤ} (hout : i < lo ∨ hi ≤ i) : b i = a i := by
  obtain ⟨σ, hσ, rfl⟩ := h
  simp [hσ i hout]

theorem swap {i j : ℤ} (hmi : lo ≤ i ∧ i < hi) (hmj : lo ≤ j ∧ j < hi) :
    PermOn lo hi a (a ∘ Equiv.swap i j) :=
  ⟨Equiv.swap i j, fun k hk => Equiv.swap_apply_of_ne_of_ne (by omega) (by omega), rfl⟩

theorem exists_eq (h : PermOn lo hi a b) {i : ℤ} (hlo : lo ≤ i) (hhi : i < hi) :
    ∃ j, lo ≤ j ∧ j < hi ∧ a j = b i := by
  obtain ⟨σ, hσ, rfl⟩ := h
  obtain ⟨hj₁, hj₂⟩ := mem_of_fix_outside hσ hlo hhi
  exact ⟨σ i, hj₁, hj₂, rfl⟩

theorem exists_eq_symm (h : PermOn lo hi a b) {i : ℤ} (hlo : lo ≤ i) (hhi : i < hi) :
    ∃ j, lo ≤ j ∧ j < hi ∧ b j = a i := by
  obtain ⟨σ, hσ, rfl⟩ := h
  have hσ' : ∀ k, (k < lo ∨ hi ≤ k) → σ.symm k = k := fun k hk => by
    rw [Equiv.symm_apply_eq, hσ k hk]
  obtain ⟨hj₁, hj₂⟩ := mem_of_fix_outside hσ' hlo hhi
  exact ⟨σ.symm i, hj₁, hj₂, by simp⟩

theorem forall_mem {P : α → Prop} (h : PermOn lo hi a b)
    (hP : ∀ i, lo ≤ i → i < hi → P (a i)) : ∀ i, lo ≤ i → i < hi → P (b i) := by
  intro i hlo hhi
  obtain ⟨j, hj₁, hj₂, hj⟩ := h.exists_eq hlo hhi
  exact hj ▸ hP j hj₁ hj₂

end PermOn

theorem update_update_eq_comp_swap (a : ℤ → α) (i j : ℤ) :
    Function.update (Function.update a i (a j)) j (a i) = a ∘ Equiv.swap i j := by
  funext k
  by_cases hkj : k = j
  · subst hkj
    simp
  · by_cases hki : k = i
    · subst hki
      simp [hkj]
    · simp [hkj, hki, Equiv.swap_apply_of_ne_of_ne hki hkj]

theorem update_update_eq_update_comp_swap (a : ℤ → α) {i j : ℤ} (hij : i ≠ j) (x : α) :
    Function.update (Function.update a i (a j)) j x = Function.update a i x ∘ Equiv.swap j i := by
  funext k
  by_cases hkj : k = j
  · subst hkj
    simp
  · by_cases hki : k = i
    · subst hki
      simp [hkj, Ne.symm hkj]
    · simp [hkj, hki, Equiv.swap_apply_of_ne_of_ne hkj hki]

def SortedOn (r : α → α → Prop) (lo hi : ℤ) (a : ℤ → α) : Prop :=
  ∀ i, lo ≤ i → i + 1 < hi → r (a i) (a (i + 1))

namespace SortedOn

variable {r : α → α → Prop} {lo hi : ℤ} {a b : ℤ → α}

theorem of_le_succ (h : hi ≤ lo + 1) : SortedOn r lo hi a := by
  intro i hlo hhi
  omega

theorem append {m : ℤ} (h₁ : SortedOn r lo m a) (h₂ : SortedOn r m hi a)
    (hm : lo < m → m < hi → r (a (m - 1)) (a m)) : SortedOn r lo hi a := by
  intro i hlo hhi
  rcases lt_trichotomy (i + 1) m with hlt | heq | hgt
  · exact h₁ i hlo hlt
  · have := hm (by omega) (by omega)
    rwa [show m - 1 = i by omega, ← heq] at this
  · exact h₂ i (by omega) hhi

theorem congr (h : SortedOn r lo hi a) (heq : ∀ i, lo ≤ i → i < hi → b i = a i) :
    SortedOn r lo hi b := by
  intro i hlo hhi
  rw [heq i hlo (by omega), heq (i + 1) (by omega) hhi]
  exact h i hlo hhi

theorem mono {lo' hi' : ℤ} (h : SortedOn r lo hi a) (hlo : lo ≤ lo') (hhi : hi' ≤ hi) :
    SortedOn r lo' hi' a :=
  fun i hi₁ hi₂ => h i (by omega) (by omega)

end SortedOn

end Impala.Segment
