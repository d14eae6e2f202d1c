import Mathlib

/-!
Binary heaps stored in an array, here a list, with the children of index `i` at `2 * i + 1` and
`2 * i + 2`: the heap order, the invariant of sifting an entry down, and what a priority queue
on such a heap uses: its root is least, and replacing or removing the root leaves the root the
only entry out of place.

The order is a relation `le` with the laws of a total preorder, so that entries compared by a
key, ties included, fit.
-/

set_option autoImplicit false

namespace BinaryHeap

def IsChild (i j : ℕ) : Prop := j = 2 * i + 1 ∨ j = 2 * i + 2

theorem IsChild.lt {i j : ℕ} (h : IsChild i j) : i < j := by
  unfold IsChild at h
  omega

theorem IsChild.unique {i i' j : ℕ} (h : IsChild i j) (h' : IsChild i' j) : i = i' := by
  unfold IsChild at h h'
  omega

theorem IsChild.pos {i j : ℕ} (h : IsChild i j) : 0 < j := by
  unfold IsChild at h
  omega

theorem isChild_parent {j : ℕ} (hj : 0 < j) : IsChild ((j - 1) / 2) j := by
  unfold IsChild
  omega

variable {β : Type*} (le : β → β → Prop)

def OrderedOn (S : ℕ → Prop) (h : List β) : Prop :=
  ∀ i j (hi : i < h.length) (hj : j < h.length), S i → IsChild i j → le h[i] h[j]

/-- Sifting the entry at `p` down among the parents from `k` on: every one of them but `p` is
in order, and the parent of `p`, if it is one of them, is `le` the children of `p`. -/
structure SiftInv (k p : ℕ) (h : List β) : Prop where
  le_p : k ≤ p
  ordered : OrderedOn le (fun i => k ≤ i ∧ i ≠ p) h
  bridge : ∀ q j (hq : q < h.length) (hj : j < h.length), k ≤ q → IsChild q p → IsChild p j →
    le h[q] h[j]

variable {le}

theorem OrderedOn.mono {S T : ℕ → Prop} {h : List β} (hord : OrderedOn le S h)
    (hST : ∀ i, T i → S i) : OrderedOn le T h :=
  fun i j hi hj hi' hij => hord i j hi hj (hST i hi') hij

theorem orderedOn_of_length_le {k : ℕ} {h : List β} (hk : h.length ≤ 2 * k + 1) :
    OrderedOn le (k ≤ ·) h := by
  intro i j hi hj hki hij
  unfold IsChild at hij
  omega

theorem siftInv_of_orderedOn {k : ℕ} {h : List β} (hord : OrderedOn le (k < ·) h) :
    SiftInv le k k h where
  le_p := le_refl k
  ordered := hord.mono fun _ hi => lt_of_le_of_ne hi.1 (Ne.symm hi.2)
  bridge _ _ _ _ hq hqk _ := absurd hqk.lt (not_lt.2 hq)

theorem SiftInv.orderedOn {k p : ℕ} {h : List β} (hinv : SiftInv le k p h)
    (hle : ∀ j (hp : p < h.length) (hj : j < h.length), IsChild p j → le h[p] h[j]) :
    OrderedOn le (k ≤ ·) h := by
  intro i j hi hj hki hij
  by_cases hip : i = p
  · subst hip
    exact hle j hi hj hij
  · exact hinv.ordered i j hi hj ⟨hki, hip⟩ hij

section Laws

variable (hle_trans : ∀ {a b c : β}, le a b → le b c → le a c) (hle_total : ∀ a b, le a b ∨ le b a)

include hle_total in
theorem SiftInv.swap {k p c : ℕ} {h : List β} (hinv : SiftInv le k p h) (hpc : IsChild p c)
    (hp : p < h.length) (hc : c < h.length) (hlt : ¬ le h[p] h[c])
    (hleast : ∀ j (hj : j < h.length), IsChild p j → le h[c] h[j]) :
    SiftInv le k c (h.swap c p) := by
  have hcp : c ≠ p := (Nat.ne_of_lt hpc.lt).symm
  have hcp_le : le h[c] h[p] := (hle_total _ _).resolve_left hlt
  have hlen : (h.swap c p).length = h.length := List.length_swap
  have hc' : (h.swap c p)[c] = h[p] := List.getElem_swap_left_of_lt hp _
  have hp' : (h.swap c p)[p] = h[c] := List.getElem_swap_right_of_lt hc _
  have hother : ∀ i (hi : i < h.length), i ≠ c → i ≠ p → (h.swap c p)[i] = h[i] :=
    fun i _ hic hip => List.getElem_swap_of_ne hic hip _
  refine ⟨le_trans hinv.le_p (le_of_lt hpc.lt), ?_, ?_⟩
  · intro i j hi hj ⟨hki, hic⟩ hij
    by_cases hip : i = p
    · subst hip
      rw [hp']
      by_cases hjc : j = c
      · subst hjc
        rw [hc']
        exact hcp_le
      · rw [hother j (by simpa using hj) hjc (Nat.ne_of_gt hij.lt)]
        exact hleast j (by simpa using hj) hij
    · rw [hother i (by simpa using hi) hic hip]
      by_cases hjp : j = p
      · subst hjp
        rw [hp']
        exact hinv.bridge i c (by simpa using hi) hc hki hij hpc
      · have hjc : j ≠ c := fun hjc => hip (hij.unique (hjc ▸ hpc))
        rw [hother j (by simpa using hj) hjc hjp]
        exact hinv.ordered i j (by simpa using hi) (by simpa using hj) ⟨hki, hip⟩ hij
  · intro q j hq hj hkq hqc hcj
    obtain rfl := hqc.unique hpc
    have hjc : j ≠ c := Nat.ne_of_gt hcj.lt
    have hjp : j ≠ q := Nat.ne_of_gt (hpc.lt.trans hcj.lt)
    rw [hp', hother j (by simpa using hj) hjc hjp]
    exact hinv.ordered c j hc (by simpa using hj)
      ⟨le_trans hinv.le_p (le_of_lt hpc.lt), hcp⟩ hcj

include hle_trans hle_total in
theorem OrderedOn.root_le {h : List β} (hord : OrderedOn le (0 ≤ ·) h) (h0 : 0 < h.length) :
    ∀ j (hj : j < h.length), le h[0] h[j] := by
  intro j
  induction j using Nat.strong_induction_on with
  | _ j ih =>
    intro hj
    rcases Nat.eq_zero_or_pos j with rfl | hpos
    · exact (hle_total _ _).elim id id
    · have hpar := isChild_parent hpos
      exact hle_trans (ih _ hpar.lt (hpar.lt.trans hj)) (hord _ j _ hj (Nat.zero_le _) hpar)

end Laws

/-! ### The root of a priority queue -/

theorem OrderedOn.siftInv_zero {h : List β} (hord : OrderedOn le (0 ≤ ·) h) : SiftInv le 0 0 h :=
  siftInv_of_orderedOn (hord.mono fun i _ => Nat.zero_le i)

theorem SiftInv.set_zero {h : List β} (hinv : SiftInv le 0 0 h) (x : β) :
    SiftInv le 0 0 (h.set 0 x) where
  le_p := le_refl 0
  ordered i j hi hj hi' hij := by
    rw [List.getElem_set_ne (Ne.symm hi'.2), List.getElem_set_ne (Nat.ne_of_lt hij.pos)]
    exact hinv.ordered i j (by simpa using hi) (by simpa using hj) hi' hij
  bridge _ _ _ _ _ hq _ := absurd hq.pos (lt_irrefl 0)

theorem SiftInv.removeRoot {h : List β} (hinv : SiftInv le 0 0 h) :
    SiftInv le 0 0 ((h.swap 0 (h.length - 1)).dropLast) where
  le_p := le_refl 0
  ordered i j hi hj hi' hij := by
    simp only [List.length_dropLast, List.length_swap] at hi hj
    rw [List.getElem_dropLast, List.getElem_dropLast,
      List.getElem_swap_of_ne hi'.2 (by omega), List.getElem_swap_of_ne (Nat.ne_of_gt hij.pos)
        (by omega)]
    exact hinv.ordered i j (by omega) (by omega) hi' hij
  bridge _ _ _ _ _ hq _ := absurd hq.pos (lt_irrefl 0)

theorem swap_zero_dropLast_perm (x : β) (t : List β) :
    ((x :: t).swap 0 t.length).dropLast.Perm t := by
  have hne : (x :: t).swap 0 t.length ≠ [] := by
    simp [← List.length_pos_iff]
  have hlast : ((x :: t).swap 0 t.length).getLast hne = x := by
    rw [List.getLast_eq_getElem]
    simp
  have hperm : (((x :: t).swap 0 t.length).dropLast ++ [x]).Perm (x :: t) := by
    have hsplit := List.dropLast_concat_getLast hne
    rw [hlast] at hsplit
    rw [hsplit]
    exact List.swap_perm _ _ _
  exact ((List.perm_append_singleton x _).symm.trans hperm).cons_inv

end BinaryHeap
