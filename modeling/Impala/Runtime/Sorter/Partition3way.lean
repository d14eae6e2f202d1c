import Mathlib
import Impala.Runtime.Sorter.TupleSorterBasic

/-!
`TupleSorter::Partition3way` (runtime/sorter-ir.cc): a partition of `[begin, end)` into the
tuples below, equal to and above the pivot. While `left` and `right` move towards each other,
tuples equal to the pivot are swapped out to `[begin, equals_left)` and `[equals_right, end)`;
at the end both blocks are swapped into the middle. Every scan checks `left <= right`.
-/

set_option autoImplicit false

namespace Impala.TupleSorter

open Segment

/-- The tuples and the four iterators of `Partition3way`. -/
structure Partition3State (α : Type) where
  tuples : ℤ → α
  left : ℤ
  right : ℤ
  equalsLeft : ℤ
  equalsRight : ℤ

variable {α : Type} (c : Comparator α) (lo hi : ℤ) (pivot : α)

/-- The first inner loop: `left` passes tuples below the pivot and swaps equal ones to
`equals_left`, and stops at one above it. -/
def partition3Left (st : Partition3State α) : Option (Partition3State α) :=
  if st.left ≤ st.right then
    if lo ≤ st.left ∧ st.left < hi then
      if c.compare (st.tuples st.left) pivot > 0 then some st
      else if c.compare (st.tuples st.left) pivot = 0 then
        match swap lo hi st.tuples st.equalsLeft st.left with
        | some a =>
          partition3Left
            { st with tuples := a, equalsLeft := st.equalsLeft + 1, left := st.left + 1 }
        | none => none
      else partition3Left { st with left := st.left + 1 }
    else none
  else some st
termination_by (st.right - st.left + 1).toNat

/-- The second inner loop: `right` passes tuples above the pivot and swaps equal ones to
`equals_right`, and stops at one below it. -/
def partition3Right (st : Partition3State α) : Option (Partition3State α) :=
  if st.left ≤ st.right then
    if lo ≤ st.right ∧ st.right < hi then
      if c.compare pivot (st.tuples st.right) > 0 then some st
      else if c.compare pivot (st.tuples st.right) = 0 then
        match swap lo hi st.tuples (st.equalsRight - 1) st.right with
        | some a =>
          partition3Right
            { st with tuples := a, equalsRight := st.equalsRight - 1, right := st.right - 1 }
        | none => none
      else partition3Right { st with right := st.right - 1 }
    else none
  else some st
termination_by (st.right - st.left + 1).toNat

variable {c lo hi pivot}

theorem partition3Left_iters {st st' : Partition3State α}
    (h : partition3Left c lo hi pivot st = some st') :
    st.left ≤ st'.left ∧ st'.right = st.right := by
  fun_induction partition3Left c lo hi pivot st with
  | case1 st hlr hmem hgt => simp at h; subst h; omega
  | case2 st hlr hmem hgt heq a hswap ih => have := ih h; dsimp only at this; omega
  | case3 st hlr hmem hgt heq hswap => simp at h
  | case4 st hlr hmem hgt heq ih => have := ih h; dsimp only at this; omega
  | case5 st hlr hmem => simp at h
  | case6 st hlr => simp at h; subst h; omega

theorem partition3Right_iters {st st' : Partition3State α}
    (h : partition3Right c lo hi pivot st = some st') :
    st'.left = st.left ∧ st'.right ≤ st.right := by
  fun_induction partition3Right c lo hi pivot st with
  | case1 st hlr hmem hgt => simp at h; subst h; omega
  | case2 st hlr hmem hgt heq a hswap ih => have := ih h; dsimp only at this; omega
  | case3 st hlr hmem hgt heq hswap => simp at h
  | case4 st hlr hmem hgt heq ih => have := ih h; dsimp only at this; omega
  | case5 st hlr hmem => simp at h
  | case6 st hlr => simp at h; subst h; omega

variable (c lo hi pivot)

/-- The `while (true)` loop of `Partition3way`: both scans, then the exchange of the pair they
stopped at, until `left` and `right` meet. -/
def partition3wayLoop (st : Partition3State α) : Option (Partition3State α) :=
  match _h₁ : partition3Left c lo hi pivot st with
  | some st₁ =>
    match _h₂ : partition3Right c lo hi pivot st₁ with
    | some st₂ =>
      if st₂.left ≥ st₂.right then some st₂
      else
        match swap lo hi st₂.tuples st₂.left st₂.right with
        | some a =>
          partition3wayLoop { st₂ with tuples := a, left := st₂.left + 1, right := st₂.right - 1 }
        | none => none
    | none => none
  | none => none
termination_by (st.right - st.left + 1).toNat
decreasing_by
  have := partition3Left_iters _h₁
  have := partition3Right_iters _h₂
  omega

/-- The first loop after it: `equals_left` and `left` step back together, swapping the equal
tuples of `[begin, equals_left)` behind the ones below the pivot. -/
def moveEqualsLeft (a : ℤ → α) (equalsLeft left : ℤ) : Option ((ℤ → α) × ℤ) :=
  if equalsLeft > lo then
    match swap lo hi a (equalsLeft - 1) (left - 1) with
    | some a' => moveEqualsLeft a' (equalsLeft - 1) (left - 1)
    | none => none
  else some (a, left)
termination_by (equalsLeft - lo).toNat

/-- The second: `right` and `equals_right` step forward together, swapping the equal tuples of
`[equals_right, end)` in front of the ones above the pivot. -/
def moveEqualsRight (a : ℤ → α) (equalsRight right : ℤ) : Option ((ℤ → α) × ℤ) :=
  if equalsRight < hi then
    match swap lo hi a equalsRight (right + 1) with
    | some a' => moveEqualsRight a' (equalsRight + 1) (right + 1)
    | none => none
  else some (a, right)
termination_by (hi - equalsRight).toNat

def partition3way (a : ℤ → α) : Option (ℤ × ℤ × (ℤ → α)) := do
  let st ← partition3wayLoop c lo hi pivot ⟨a, lo, hi - 1, lo, hi⟩
  let (a₁, left) ← moveEqualsLeft lo hi st.tuples st.equalsLeft st.left
  let (a₂, right) ← moveEqualsRight lo hi a₁ st.equalsRight st.right
  pure (left, right + 1, a₂)

/-! ## The invariant of the loop -/

/-- The zones of `Partition3way`: `[begin, equals_left)` equal to the pivot, `[equals_left,
left)` below it, `[left, right]` not yet seen, `(right, equals_right)` above it and
`[equals_right, end)` equal to it. -/
structure Partition3Inv (a₀ : ℤ → α) (st : Partition3State α) : Prop where
  perm : PermOn lo hi a₀ st.tuples
  lo_le : lo ≤ st.equalsLeft
  equalsLeft_le : st.equalsLeft ≤ st.left
  left_le : st.left ≤ st.right + 1
  right_lt : st.right < st.equalsRight
  equalsRight_le : st.equalsRight ≤ hi
  equal_left : ∀ k, lo ≤ k → k < st.equalsLeft → c.compare (st.tuples k) pivot = 0
  below : ∀ k, st.equalsLeft ≤ k → k < st.left → c.compare (st.tuples k) pivot < 0
  above : ∀ k, st.right < k → k < st.equalsRight → 0 < c.compare (st.tuples k) pivot
  equal_right : ∀ k, st.equalsRight ≤ k → k < hi → c.compare (st.tuples k) pivot = 0

variable {c lo hi pivot}

namespace Partition3Inv

variable {a₀ : ℤ → α} {st : Partition3State α}

theorem start (a : ℤ → α) (h : lo ≤ hi) : Partition3Inv c lo hi pivot a ⟨a, lo, hi - 1, lo, hi⟩ :=
  ⟨PermOn.refl a, le_refl lo, le_refl lo, by simp only; omega, by simp only; omega, le_refl hi,
    fun k h₁ h₂ => by simp only at h₂; omega, fun k h₁ h₂ => by simp only at h₁ h₂; omega,
    fun k h₁ h₂ => by simp only at h₁ h₂; omega, fun k h₁ h₂ => by simp only at h₁; omega⟩

theorem advance_below (hinv : Partition3Inv c lo hi pivot a₀ st) (hlr : st.left ≤ st.right)
    (hlt : c.compare (st.tuples st.left) pivot < 0) :
    Partition3Inv c lo hi pivot a₀ { st with left := st.left + 1 } := by
  refine ⟨hinv.perm, hinv.lo_le, by simp only; have := hinv.equalsLeft_le; omega,
    by simp only; omega, hinv.right_lt, hinv.equalsRight_le, hinv.equal_left,
    fun k h₁ h₂ => ?_, hinv.above, hinv.equal_right⟩
  rcases lt_or_eq_of_le (Int.lt_add_one_iff.1 h₂) with hk | rfl
  · exact hinv.below k h₁ hk
  · exact hlt

theorem advance_equal (hinv : Partition3Inv c lo hi pivot a₀ st) (hlr : st.left ≤ st.right)
    (heq : c.compare (st.tuples st.left) pivot = 0) :
    Partition3Inv c lo hi pivot a₀
      { st with
        tuples := st.tuples ∘ Equiv.swap st.equalsLeft st.left
        equalsLeft := st.equalsLeft + 1
        left := st.left + 1 } := by
  obtain ⟨hperm, hlo, hel, hlr', hre, hehi, hequal, hbelow, habove, hequal'⟩ := hinv
  have hsw : ∀ k, k ≠ st.equalsLeft → k ≠ st.left →
      (st.tuples ∘ Equiv.swap st.equalsLeft st.left) k = st.tuples k := fun k h₁ h₂ => by
    simp [Equiv.swap_apply_of_ne_of_ne h₁ h₂]
  refine ⟨hperm.trans (PermOn.swap ⟨by omega, by omega⟩ ⟨by omega, by omega⟩), by simp only; omega,
    by simp only; omega, by simp only; omega, hre, hehi, fun k h₁ h₂ => ?_, fun k h₁ h₂ => ?_,
    fun k h₁ h₂ => ?_, fun k h₁ h₂ => ?_⟩ <;> simp only at h₁ h₂ ⊢
  · rcases lt_or_eq_of_le (Int.lt_add_one_iff.1 h₂) with hk | rfl
    · rw [hsw k (by omega) (by omega)]
      exact hequal k h₁ hk
    · simpa using heq
  · rcases lt_or_eq_of_le (Int.lt_add_one_iff.1 h₂) with hk | rfl
    · rw [hsw k (by omega) (by omega)]
      exact hbelow k (by omega) hk
    · by_cases he : st.equalsLeft = st.left
      · omega
      · simpa using hbelow st.equalsLeft (le_refl _) (by omega)
  · rw [hsw k (by omega) (by omega)]
    exact habove k h₁ h₂
  · rw [hsw k (by omega) (by omega)]
    exact hequal' k h₁ h₂

theorem retreat_above (hinv : Partition3Inv c lo hi pivot a₀ st) (hlr : st.left ≤ st.right)
    (hgt : 0 < c.compare (st.tuples st.right) pivot) :
    Partition3Inv c lo hi pivot a₀ { st with right := st.right - 1 } := by
  refine ⟨hinv.perm, hinv.lo_le, hinv.equalsLeft_le, by simp only; omega,
    by simp only; have := hinv.right_lt; omega, hinv.equalsRight_le, hinv.equal_left, hinv.below,
    fun k h₁ h₂ => ?_, hinv.equal_right⟩
  simp only at h₁
  rcases lt_or_eq_of_le (Int.sub_one_lt_iff.1 h₁) with hk | rfl
  · exact hinv.above k hk h₂
  · exact hgt

theorem retreat_equal (hinv : Partition3Inv c lo hi pivot a₀ st) (hlr : st.left ≤ st.right)
    (heq : c.compare (st.tuples st.right) pivot = 0) :
    Partition3Inv c lo hi pivot a₀
      { st with
        tuples := st.tuples ∘ Equiv.swap (st.equalsRight - 1) st.right
        equalsRight := st.equalsRight - 1
        right := st.right - 1 } := by
  obtain ⟨hperm, hlo, hel, hlr', hre, hehi, hequal, hbelow, habove, hequal'⟩ := hinv
  have hsw : ∀ k, k ≠ st.equalsRight - 1 → k ≠ st.right →
      (st.tuples ∘ Equiv.swap (st.equalsRight - 1) st.right) k = st.tuples k := fun k h₁ h₂ => by
    simp [Equiv.swap_apply_of_ne_of_ne h₁ h₂]
  refine ⟨hperm.trans (PermOn.swap ⟨by omega, by omega⟩ ⟨by omega, by omega⟩), hlo,
    by simp only; omega, by simp only; omega, by simp only; omega, by simp only; omega,
    fun k h₁ h₂ => ?_, fun k h₁ h₂ => ?_, fun k h₁ h₂ => ?_, fun k h₁ h₂ => ?_⟩ <;>
    simp only at h₁ h₂ ⊢
  · rw [hsw k (by omega) (by omega)]
    exact hequal k h₁ h₂
  · rw [hsw k (by omega) (by omega)]
    exact hbelow k h₁ h₂
  · by_cases hk : k = st.right
    · subst hk
      by_cases he : st.equalsRight - 1 = st.right
      · omega
      · simpa using habove (st.equalsRight - 1) (by omega) (by omega)
    · rw [hsw k (by omega) hk]
      exact habove k (by omega) (by omega)
  · by_cases hk : k = st.equalsRight - 1
    · subst hk
      simpa using heq
    · rw [hsw k hk (by omega)]
      exact hequal' k (by omega) h₂

theorem exchange (hinv : Partition3Inv c lo hi pivot a₀ st) (hlr : st.left < st.right)
    (hgt : 0 < c.compare (st.tuples st.left) pivot)
    (hlt : c.compare (st.tuples st.right) pivot < 0) :
    Partition3Inv c lo hi pivot a₀
      { st with
        tuples := st.tuples ∘ Equiv.swap st.left st.right
        left := st.left + 1
        right := st.right - 1 } := by
  obtain ⟨hperm, hlo, hel, hlr', hre, hehi, hequal, hbelow, habove, hequal'⟩ := hinv
  have hsw : ∀ k, k ≠ st.left → k ≠ st.right →
      (st.tuples ∘ Equiv.swap st.left st.right) k = st.tuples k := fun k h₁ h₂ => by
    simp [Equiv.swap_apply_of_ne_of_ne h₁ h₂]
  refine ⟨hperm.trans (PermOn.swap ⟨by omega, by omega⟩ ⟨by omega, by omega⟩), hlo,
    by simp only; omega, by simp only; omega, by simp only; omega, hehi,
    fun k h₁ h₂ => ?_, fun k h₁ h₂ => ?_, fun k h₁ h₂ => ?_, fun k h₁ h₂ => ?_⟩ <;>
    simp only at h₁ h₂ ⊢
  · rw [hsw k (by omega) (by omega)]
    exact hequal k h₁ h₂
  · by_cases hk : k = st.left
    · subst hk
      simpa using hlt
    · rw [hsw k hk (by omega)]
      exact hbelow k h₁ (by omega)
  · by_cases hk : k = st.right
    · subst hk
      simpa using hgt
    · rw [hsw k (by omega) hk]
      exact habove k (by omega) h₂
  · rw [hsw k (by omega) (by omega)]
    exact hequal' k h₁ h₂

end Partition3Inv

/-! ## The loops -/

section Loops

variable {a₀ : ℤ → α}

theorem partition3Left_spec {st : Partition3State α} (hinv : Partition3Inv c lo hi pivot a₀ st) :
    ∃ st', partition3Left c lo hi pivot st = some st' ∧ Partition3Inv c lo hi pivot a₀ st' ∧
      st'.right = st.right ∧
      (st'.left ≤ st'.right → 0 < c.compare (st'.tuples st'.left) pivot) := by
  fun_induction partition3Left c lo hi pivot st with
  | case1 st hlr hmem hgt => exact ⟨st, rfl, hinv, rfl, fun _ => hgt⟩
  | case2 st hlr hmem hgt heq a hswap ih =>
    have hel := hinv.equalsLeft_le
    have hlo := hinv.lo_le
    rw [swap_of_mem ⟨by omega, by omega⟩ hmem] at hswap
    cases hswap
    obtain ⟨st', h, hinv', hr, hst'⟩ := ih (hinv.advance_equal hlr heq)
    exact ⟨st', h, hinv', hr, hst'⟩
  | case3 st hlr hmem hgt heq hswap =>
    have hel := hinv.equalsLeft_le
    have hlo := hinv.lo_le
    rw [swap_of_mem ⟨by omega, by omega⟩ hmem] at hswap
    cases hswap
  | case4 st hlr hmem hgt heq ih =>
    obtain ⟨st', h, hinv', hr, hst'⟩ := ih (hinv.advance_below hlr (by omega))
    exact ⟨st', h, hinv', hr, hst'⟩
  | case5 st hlr hmem =>
    have := hinv.lo_le
    have := hinv.equalsLeft_le
    have := hinv.right_lt
    have := hinv.equalsRight_le
    exact absurd ⟨by omega, by omega⟩ hmem
  | case6 st hlr => exact ⟨st, rfl, hinv, rfl, fun h => absurd h hlr⟩

variable (hc : c.Lawful)
include hc


theorem partition3Right_spec {st : Partition3State α} (hinv : Partition3Inv c lo hi pivot a₀ st)
    (hleft : st.left ≤ st.right → 0 < c.compare (st.tuples st.left) pivot) :
    ∃ st', partition3Right c lo hi pivot st = some st' ∧ Partition3Inv c lo hi pivot a₀ st' ∧
      st'.left = st.left ∧
      (st'.left ≤ st'.right → st'.left < st'.right ∧
        0 < c.compare (st'.tuples st'.left) pivot ∧
        c.compare (st'.tuples st'.right) pivot < 0) := by
  fun_induction partition3Right c lo hi pivot st with
  | case1 st hlr hmem hgt =>
    have hlt := hc.compare_pos_iff.1 hgt
    refine ⟨st, rfl, hinv, rfl, fun h => ⟨?_, hleft h, hlt⟩⟩
    rcases lt_or_eq_of_le h with h' | h'
    · exact h'
    · have := hleft h
      rw [h'] at this
      omega
  | case2 st hlr hmem hgt heq a hswap ih =>
    have hre := hinv.right_lt
    have hehi := hinv.equalsRight_le
    have heq' := hc.compare_eq_zero_comm.1 heq
    have hne : st.left ≠ st.right := fun h => by
      have := hleft hlr
      rw [h] at this
      omega
    rw [swap_of_mem ⟨by omega, by omega⟩ hmem] at hswap
    cases hswap
    have hkeep : (st.tuples ∘ Equiv.swap (st.equalsRight - 1) st.right) st.left =
        st.tuples st.left := by
      simp [Equiv.swap_apply_of_ne_of_ne (show st.left ≠ st.equalsRight - 1 by omega) hne]
    obtain ⟨st', h, hinv', hl, hst'⟩ :=
      ih (hinv.retreat_equal hlr heq') (fun h => by simp only at h ⊢; rw [hkeep]; exact hleft hlr)
    exact ⟨st', h, hinv', hl, hst'⟩
  | case3 st hlr hmem hgt heq hswap =>
    have hre := hinv.right_lt
    have hehi := hinv.equalsRight_le
    rw [swap_of_mem ⟨by omega, by omega⟩ hmem] at hswap
    cases hswap
  | case4 st hlr hmem hgt heq ih =>
    have hgt' : 0 < c.compare (st.tuples st.right) pivot :=
      (hc.compare_lt_iff _ _).1 (by omega)
    obtain ⟨st', h, hinv', hl, hst'⟩ :=
      ih (hinv.retreat_above hlr hgt') (fun h => hleft (by simp only at h; omega))
    exact ⟨st', h, hinv', hl, hst'⟩
  | case5 st hlr hmem =>
    have := hinv.lo_le
    have := hinv.equalsLeft_le
    have := hinv.right_lt
    have := hinv.equalsRight_le
    exact absurd ⟨by omega, by omega⟩ hmem
  | case6 st hlr => exact ⟨st, rfl, hinv, rfl, fun h => absurd h hlr⟩

theorem Partition3Inv.scanned {st st₁ st₂ : Partition3State α}
    (hinv : Partition3Inv c lo hi pivot a₀ st) (h₁ : partition3Left c lo hi pivot st = some st₁)
    (h₂ : partition3Right c lo hi pivot st₁ = some st₂) :
    Partition3Inv c lo hi pivot a₀ st₂ ∧
      (st₂.left ≤ st₂.right → st₂.left < st₂.right ∧
        0 < c.compare (st₂.tuples st₂.left) pivot ∧
        c.compare (st₂.tuples st₂.right) pivot < 0) := by
  obtain ⟨st₁', h₁', hinv₁, -, hleft⟩ := partition3Left_spec hinv
  rw [h₁, Option.some.injEq] at h₁'
  subst h₁'
  obtain ⟨st₂', h₂', hinv₂, -, hmeet⟩ := partition3Right_spec hc hinv₁ hleft
  rw [h₂, Option.some.injEq] at h₂'
  subst h₂'
  exact ⟨hinv₂, hmeet⟩

theorem partition3wayLoop_spec {st : Partition3State α}
    (hinv : Partition3Inv c lo hi pivot a₀ st) :
    ∃ st', partition3wayLoop c lo hi pivot st = some st' ∧
      Partition3Inv c lo hi pivot a₀ st' ∧ st'.left = st'.right + 1 := by
  fun_induction partition3wayLoop c lo hi pivot st with
  | case1 st st₁ h₁ st₂ h₂ hge =>
    obtain ⟨hinv₂, hmeet⟩ := hinv.scanned hc h₁ h₂
    have := hinv₂.left_le
    refine ⟨st₂, rfl, hinv₂, ?_⟩
    by_contra hne
    have := (hmeet (by omega)).1
    omega
  | case2 st st₁ h₁ st₂ h₂ hlt a hswap ih =>
    obtain ⟨hinv₂, hmeet⟩ := hinv.scanned hc h₁ h₂
    obtain ⟨hlr, hgt, hlt'⟩ := hmeet (by omega)
    have := hinv₂.lo_le
    have := hinv₂.equalsLeft_le
    have := hinv₂.right_lt
    have := hinv₂.equalsRight_le
    rw [swap_of_mem ⟨by omega, by omega⟩ ⟨by omega, by omega⟩, Option.some.injEq] at hswap
    subst hswap
    exact ih (hinv₂.exchange hlr hgt hlt')
  | case3 st st₁ h₁ st₂ h₂ hlt hswap =>
    obtain ⟨hinv₂, hmeet⟩ := hinv.scanned hc h₁ h₂
    obtain ⟨hlr, -, -⟩ := hmeet (by omega)
    have := hinv₂.lo_le
    have := hinv₂.equalsLeft_le
    have := hinv₂.right_lt
    have := hinv₂.equalsRight_le
    rw [swap_of_mem ⟨by omega, by omega⟩ ⟨by omega, by omega⟩] at hswap
    cases hswap
  | case4 st st₁ h₁ h₂ =>
    obtain ⟨st₁', h₁', hinv₁, -, hleft⟩ := partition3Left_spec hinv
    rw [h₁, Option.some.injEq] at h₁'
    subst h₁'
    obtain ⟨st₂', h₂', -⟩ := partition3Right_spec hc hinv₁ hleft
    rw [h₂] at h₂'
    cases h₂'
  | case5 st h₁ =>
    obtain ⟨st₁', h₁', -⟩ := partition3Left_spec hinv
    rw [h₁] at h₁'
    cases h₁'

end Loops

/-! ## The equal tuples into the middle -/

theorem moveEqualsLeft_spec {L : ℤ} {a : ℤ → α} {equalsLeft left : ℤ} (hlo : lo ≤ equalsLeft)
    (hel : equalsLeft ≤ left) (hL : left ≤ L) (hLhi : L ≤ hi)
    (hequal : ∀ k, lo ≤ k → k < equalsLeft → c.compare (a k) pivot = 0)
    (hbelow : ∀ k, equalsLeft ≤ k → k < left → c.compare (a k) pivot < 0)
    (hmoved : ∀ k, left ≤ k → k < L → c.compare (a k) pivot = 0) :
    ∃ a' left', moveEqualsLeft lo hi a equalsLeft left = some (a', left') ∧
      PermOn lo L a a' ∧ lo ≤ left' ∧ left' ≤ L ∧
      (∀ k, lo ≤ k → k < left' → c.compare (a' k) pivot < 0) ∧
      (∀ k, left' ≤ k → k < L → c.compare (a' k) pivot = 0) := by
  fun_induction moveEqualsLeft lo hi a equalsLeft left with
  | case1 a equalsLeft left hgt a' hswap ih =>
    rw [swap_of_mem ⟨by omega, by omega⟩ ⟨by omega, by omega⟩] at hswap
    cases hswap
    have hsw : ∀ k, k ≠ equalsLeft - 1 → k ≠ left - 1 →
        (a ∘ Equiv.swap (equalsLeft - 1) (left - 1)) k = a k := fun k h₁ h₂ => by
      simp [Equiv.swap_apply_of_ne_of_ne h₁ h₂]
    obtain ⟨a'', left', h, hperm, h₁, h₂, h₃, h₄⟩ := ih (by omega) (by omega) (by omega)
      (fun k h₁ h₂ => by rw [hsw k (by omega) (by omega)]; exact hequal k h₁ (by omega))
      (fun k h₁ h₂ => by
        by_cases hk : k = equalsLeft - 1
        · subst hk
          simpa using hbelow (left - 1) (by omega) (by omega)
        · rw [hsw k hk (by omega)]
          exact hbelow k (by omega) (by omega))
      (fun k h₁ h₂ => by
        by_cases hk : k = left - 1
        · subst hk
          simpa using hequal (equalsLeft - 1) (by omega) (by omega)
        · rw [hsw k (by omega) hk]
          exact hmoved k (by omega) h₂)
    exact ⟨a'', left', h, (PermOn.swap ⟨by omega, by omega⟩ ⟨by omega, by omega⟩).trans hperm,
      h₁, h₂, h₃, h₄⟩
  | case2 a equalsLeft left hgt hswap =>
    rw [swap_of_mem ⟨by omega, by omega⟩ ⟨by omega, by omega⟩] at hswap
    cases hswap
  | case3 a equalsLeft left hle =>
    exact ⟨a, left, rfl, PermOn.refl a, by omega, hL,
      fun k h₁ h₂ => hbelow k (by omega) h₂, hmoved⟩

theorem moveEqualsRight_spec {R : ℤ} {a : ℤ → α} {equalsRight right : ℤ} (hR : R ≤ right)
    (hre : right < equalsRight) (hehi : equalsRight ≤ hi) (hlo : lo ≤ R + 1)
    (hmoved : ∀ k, R < k → k ≤ right → c.compare (a k) pivot = 0)
    (habove : ∀ k, right < k → k < equalsRight → 0 < c.compare (a k) pivot)
    (hequal : ∀ k, equalsRight ≤ k → k < hi → c.compare (a k) pivot = 0) :
    ∃ a' right', moveEqualsRight lo hi a equalsRight right = some (a', right') ∧
      PermOn (R + 1) hi a a' ∧ R ≤ right' ∧ right' < hi ∧
      (∀ k, R < k → k ≤ right' → c.compare (a' k) pivot = 0) ∧
      (∀ k, right' < k → k < hi → 0 < c.compare (a' k) pivot) := by
  fun_induction moveEqualsRight lo hi a equalsRight right with
  | case1 a equalsRight right hlt a' hswap ih =>
    rw [swap_of_mem ⟨by omega, by omega⟩ ⟨by omega, by omega⟩] at hswap
    cases hswap
    have hsw : ∀ k, k ≠ equalsRight → k ≠ right + 1 →
        (a ∘ Equiv.swap equalsRight (right + 1)) k = a k := fun k h₁ h₂ => by
      simp [Equiv.swap_apply_of_ne_of_ne h₁ h₂]
    obtain ⟨a'', right', h, hperm, h₁, h₂, h₃, h₄⟩ := ih (by omega) (by omega) (by omega)
      (fun k h₁ h₂ => by
        by_cases hk : k = right + 1
        · subst hk
          simpa using hequal equalsRight (le_refl _) hlt
        · rw [hsw k (by omega) hk]
          exact hmoved k h₁ (by omega))
      (fun k h₁ h₂ => by
        by_cases hk : k = equalsRight
        · subst hk
          simpa using habove (right + 1) (by omega) (by omega)
        · rw [hsw k hk (by omega)]
          exact habove k (by omega) (by omega))
      (fun k h₁ h₂ => by rw [hsw k (by omega) (by omega)]; exact hequal k (by omega) h₂)
    exact ⟨a'', right', h, (PermOn.swap ⟨by omega, by omega⟩ ⟨by omega, by omega⟩).trans hperm,
      h₁, h₂, h₃, h₄⟩
  | case2 a equalsRight right hlt hswap =>
    rw [swap_of_mem ⟨by omega, by omega⟩ ⟨by omega, by omega⟩] at hswap
    cases hswap
  | case3 a equalsRight right hge =>
    exact ⟨a, right, rfl, PermOn.refl a, hR, by omega, hmoved,
      fun k h₁ h₂ => habove k h₁ (by omega)⟩

variable (c lo hi pivot)

/-- What `Partition3way` leaves: a permutation of the range, below the pivot in
`[begin, cut_left)`, equal to it in `[cut_left, cut_right)` and above it in `[cut_right, end)`. -/
structure Partition3Result (a₀ : ℤ → α) (cutLeft cutRight : ℤ) (a : ℤ → α) : Prop where
  perm : PermOn lo hi a₀ a
  lo_le : lo ≤ cutLeft
  cutLeft_le : cutLeft ≤ cutRight
  cutRight_le : cutRight ≤ hi
  below : ∀ k, lo ≤ k → k < cutLeft → c.compare (a k) pivot < 0
  equal : ∀ k, cutLeft ≤ k → k < cutRight → c.compare (a k) pivot = 0
  above : ∀ k, cutRight ≤ k → k < hi → 0 < c.compare (a k) pivot

variable {c lo hi pivot}

variable (pivot) in
theorem partition3way_spec (hc : c.Lawful) (a : ℤ → α) (h : lo ≤ hi) :
    ∃ cutLeft cutRight a', partition3way c lo hi pivot a = some (cutLeft, cutRight, a') ∧
      Partition3Result c lo hi pivot a cutLeft cutRight a' := by
  have hstart : Partition3Inv c lo hi pivot a ⟨a, lo, hi - 1, lo, hi⟩ := Partition3Inv.start a h
  obtain ⟨st, hst, hinv, hmeet⟩ := partition3wayLoop_spec hc hstart
  have := hinv.lo_le
  have := hinv.equalsLeft_le
  have := hinv.right_lt
  have := hinv.equalsRight_le
  obtain ⟨a₁, left, hl, hperm₁, hl₁, hl₂, hbelow, hequal⟩ :=
    moveEqualsLeft_spec (L := st.left) hinv.lo_le hinv.equalsLeft_le (le_refl _)
      (show st.left ≤ hi by omega)
      hinv.equal_left hinv.below (fun k h₁ h₂ => by omega)
  have hright : ∀ k, st.left ≤ k → a₁ k = st.tuples k := fun k hk =>
    hperm₁.apply_of_not_mem (Or.inr hk)
  obtain ⟨a₂, right, hr, hperm₂, hr₁, hr₂, hequal', habove⟩ :=
    moveEqualsRight_spec (R := st.right) (le_refl _) hinv.right_lt hinv.equalsRight_le
      (show lo ≤ st.right + 1 by omega)
      (fun k h₁ h₂ => by omega : ∀ k, st.right < k → k ≤ st.right → c.compare (a₁ k) pivot = 0)
      (fun k h₁ h₂ => by rw [hright k (by omega)]; exact hinv.above k h₁ h₂)
      (fun k h₁ h₂ => by rw [hright k (by omega)]; exact hinv.equal_right k h₁ h₂)
  have hleft : ∀ k, k < st.left → a₂ k = a₁ k := fun k hk =>
    hperm₂.apply_of_not_mem (Or.inl (by omega))
  refine ⟨left, right + 1, a₂, ?_, ⟨?_, hl₁, by omega, by omega, fun k h₁ h₂ => ?_,
    fun k h₁ h₂ => ?_, fun k h₁ h₂ => habove k (by omega) h₂⟩⟩
  · simp [partition3way, hst, hl, hr]
  · exact hinv.perm.trans ((hperm₁.mono (le_refl lo) (by omega)).trans
      (hperm₂.mono (by omega) (le_refl hi)))
  · rw [hleft k (by omega)]
    exact hbelow k h₁ h₂
  · rcases lt_or_ge k st.left with hk | hk
    · rw [hleft k hk]
      exact hequal k h₁ hk
    · exact hequal' k (by omega) (by omega)

theorem Partition3Result.cutLeft_lt {a₀ a : ℤ → α} {cutLeft cutRight : ℤ}
    (hres : Partition3Result c lo hi pivot a₀ cutLeft cutRight a)
    (hp : ∃ i, lo ≤ i ∧ i < hi ∧ c.compare (a₀ i) pivot = 0) : cutLeft < cutRight := by
  obtain ⟨i, hi₁, hi₂, hpi⟩ := hp
  obtain ⟨j, hj₁, hj₂, hj⟩ := hres.perm.exists_eq_symm hi₁ hi₂
  by_contra hcut
  rcases lt_or_ge j cutLeft with hk | hk
  · have := hres.below j hj₁ hk
    rw [hj] at this
    omega
  · have := hres.above j (by omega) hj₂
    rw [hj] at this
    omega

/-- `Partition3way` around any pivot ends without leaving `[begin, end)`, permutes the range
into the tuples below the pivot, those equal to it and those above it, in this order, and the
equal block is not empty when the pivot is a tuple of the range. -/
theorem partition3way_partitions (hc : c.Lawful) (pivot : α) (a : ℤ → α) (h : lo ≤ hi) :
    ∃ cutLeft cutRight a', partition3way c lo hi pivot a = some (cutLeft, cutRight, a') ∧
      Partition3Result c lo hi pivot a cutLeft cutRight a' ∧
      ((∃ i, lo ≤ i ∧ i < hi ∧ c.compare (a i) pivot = 0) → cutLeft < cutRight) := by
  obtain ⟨cutLeft, cutRight, a', h3, hres⟩ := partition3way_spec pivot hc a h
  exact ⟨cutLeft, cutRight, a', h3, hres, hres.cutLeft_lt⟩

theorem partition3way_partitions_mod_three :
    ∃ cutLeft cutRight a',
      partition3way (Comparator.ofKey id) 0 10 1 (fun i => i % 3) =
        some (cutLeft, cutRight, a') ∧
      Partition3Result (Comparator.ofKey id) 0 10 1 (fun i => i % 3) cutLeft cutRight a' ∧
      ((∃ i, 0 ≤ i ∧ i < 10 ∧ (Comparator.ofKey id).compare (i % 3) 1 = 0) →
        cutLeft < cutRight) :=
  partition3way_partitions (Comparator.ofKey_lawful id) 1 (fun i => i % 3) (by decide)

end Impala.TupleSorter
