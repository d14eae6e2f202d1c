import Mathlib
import Impala.Lib.BinaryHeap
import Impala.Runtime.Sorter.TupleSorterBasic

/-!
`SortedRunMerger` (runtime/sorted-run-merger.cc, sorted-run-merger-ir.cc): the merge of sorted
runs by a binary min-heap of `SortedRunWrapper`s, each standing at the current row of its run.
The sorter merges its spilled runs with it, and the exchange node the streams of its senders.

A run is the batches its `RunBatchSupplierFn` returns, each a list of rows and any of them
empty; the supplier's `nullptr` is the end of that list. A row is what the comparator reads.
The supplier never fails here, and the resources a batch holds are not modelled.
-/

set_option autoImplicit false

namespace Impala.SortedRunMerger

open BinaryHeap TupleSorter

/-- `SortedRunWrapper`: the batch it reads (`nullptr` is `none`), the index of its current row
in that batch, and the batches `sorted_run_` has still to return. -/
structure SortedRunWrapper (α : Type) where
  inputRowBatch : Option (List α)
  inputRowBatchIndex : ℤ
  sortedRun : List (List α)
  deriving Inhabited, DecidableEq

namespace SortedRunWrapper

variable {α : Type}

/-- The `do ... while` loop of `Advance`: batches from `sorted_run_` until one with rows, or
`nullptr`. -/
def nextBatch : List (List α) → Option (List α) × List (List α)
  | [] => (none, [])
  | batch :: rest => if batch.length = 0 then nextBatch rest else (some batch, rest)

def advance (w : SortedRunWrapper α) : SortedRunWrapper α × Bool :=
  let index := w.inputRowBatchIndex + 1
  if index < ((w.inputRowBatch.getD []).length : ℤ) then
    ({ w with inputRowBatchIndex := index }, false)
  else
    let (batch, rest) := nextBatch w.sortedRun
    (⟨batch, 0, rest⟩, batch.isNone)

def init (sortedRun : List (List α)) : SortedRunWrapper α × Bool :=
  match sortedRun with
  | [] => (⟨none, -1, []⟩, true)
  | batch :: rest => advance ⟨some batch, -1, rest⟩

def after (w : SortedRunWrapper α) : List α :=
  (w.inputRowBatch.getD []).drop (w.inputRowBatchIndex + 1).toNat ++ w.sortedRun.flatten

def rows (w : SortedRunWrapper α) : List α :=
  (w.inputRowBatch.getD []).drop w.inputRowBatchIndex.toNat ++ w.sortedRun.flatten

def Valid (w : SortedRunWrapper α) : Prop :=
  ∃ batch, w.inputRowBatch = some batch ∧ 0 ≤ w.inputRowBatchIndex ∧
    w.inputRowBatchIndex < batch.length

theorem nextBatch_some {batches rest : List (List α)} {batch : List α}
    (h : nextBatch batches = (some batch, rest)) :
    0 < batch.length ∧ batches.flatten = batch ++ rest.flatten := by
  induction batches with
  | nil => cases h
  | cons b bs ih =>
    rw [nextBatch] at h
    split_ifs at h with hb
    · rw [List.flatten_cons, List.eq_nil_of_length_eq_zero hb, List.nil_append]
      exact ih h
    · cases h
      exact ⟨Nat.pos_of_ne_zero hb, rfl⟩

theorem nextBatch_none {batches rest : List (List α)} (h : nextBatch batches = (none, rest)) :
    batches.flatten = [] := by
  induction batches with
  | nil => rfl
  | cons b bs ih =>
    rw [nextBatch] at h
    split_ifs at h with hb
    · rw [List.flatten_cons, List.eq_nil_of_length_eq_zero hb, List.nil_append]
      exact ih h
    · cases h

theorem advance_spec (w : SortedRunWrapper α) (hi : -1 ≤ w.inputRowBatchIndex) :
    ((advance w).2 = false → (advance w).1.Valid ∧ (advance w).1.rows = w.after) ∧
      ((advance w).2 = true → w.after = []) := by
  unfold advance
  dsimp only
  split_ifs with hlt
  · obtain ⟨batch, hb⟩ : ∃ batch, w.inputRowBatch = some batch := by
      cases hw : w.inputRowBatch with
      | none => rw [hw] at hlt; simp at hlt; omega
      | some batch => exact ⟨batch, rfl⟩
    rw [hb] at hlt
    refine ⟨fun _ => ⟨⟨batch, hb, by simp only; omega, hlt⟩, rfl⟩, by simp⟩
  · have hdrop : (w.inputRowBatch.getD []).drop (w.inputRowBatchIndex + 1).toNat = [] :=
      List.drop_eq_nil_of_le (by omega)
    rcases hnext : nextBatch w.sortedRun with ⟨_ | batch, rest⟩
    · refine ⟨by simp, fun _ => ?_⟩
      rw [after, hdrop, nextBatch_none hnext]
      rfl
    · obtain ⟨hpos, hflat⟩ := nextBatch_some hnext
      refine ⟨fun _ => ⟨⟨batch, rfl, le_refl 0, by simpa using hpos⟩, ?_⟩, by simp⟩
      simp only [rows, after, hdrop, hflat, Option.getD_some, Int.toNat_zero, List.drop_zero,
        List.nil_append]

theorem init_spec (sortedRun : List (List α)) :
    ((init sortedRun).2 = false → (init sortedRun).1.Valid ∧
      (init sortedRun).1.rows = sortedRun.flatten) ∧
      ((init sortedRun).2 = true → sortedRun.flatten = []) := by
  cases sortedRun with
  | nil => exact ⟨by simp [init], fun _ => rfl⟩
  | cons batch rest =>
    have h := advance_spec (⟨some batch, -1, rest⟩ : SortedRunWrapper α) (le_refl _)
    have hafter : (⟨some batch, -1, rest⟩ : SortedRunWrapper α).after = (batch :: rest).flatten := by
      simp [after]
    rw [hafter] at h
    exact h

variable [Inhabited α]

def currentRow (w : SortedRunWrapper α) : α :=
  (w.inputRowBatch.getD [])[w.inputRowBatchIndex.toNat]!

theorem rows_eq_cons {w : SortedRunWrapper α} (hv : w.Valid) :
    w.rows = w.currentRow :: w.after := by
  obtain ⟨batch, hb, h₀, hlt⟩ := hv
  have hidx : w.inputRowBatchIndex.toNat < batch.length := by omega
  rw [rows, after, currentRow, hb, Option.getD_some, List.drop_eq_getElem_cons hidx,
    getElem!_pos batch _ hidx, show (w.inputRowBatchIndex + 1).toNat =
      w.inputRowBatchIndex.toNat + 1 by omega, List.cons_append]

end SortedRunWrapper

open SortedRunWrapper

section Prepare

variable {α : Type}

/-- One pass of the loop of `Prepare` over `input_runs`: a run not empty at `Init` joins the
heap. -/
def addRun (minHeap : List (SortedRunWrapper α)) (inputRun : List (List α)) :
    List (SortedRunWrapper α) :=
  let (newElem, empty) := init inputRun
  if empty then minHeap else minHeap ++ [newElem]

theorem addRun_spec (minHeap : List (SortedRunWrapper α)) (inputRun : List (List α)) :
    (addRun minHeap inputRun).flatMap rows = minHeap.flatMap rows ++ inputRun.flatten ∧
      ∀ w ∈ addRun minHeap inputRun, w ∈ minHeap ∨ (w.Valid ∧ w.rows = inputRun.flatten) := by
  have hinit := init_spec inputRun
  unfold addRun
  rcases heq : init inputRun with ⟨newElem, _ | _⟩
  · rw [heq] at hinit
    obtain ⟨hv, hrows⟩ := hinit.1 rfl
    refine ⟨by simp [hrows], fun w hw => ?_⟩
    rcases List.mem_append.1 hw with hw | hw
    · exact .inl hw
    · obtain rfl := List.mem_singleton.1 hw
      exact .inr ⟨hv, hrows⟩
  · rw [heq] at hinit
    exact ⟨by simp [hinit.2 rfl], fun w hw => .inl hw⟩

theorem foldl_addRun (inputRuns : List (List (List α))) (acc : List (SortedRunWrapper α)) :
    (inputRuns.foldl addRun acc).flatMap rows = acc.flatMap rows ++ inputRuns.flatMap List.flatten ∧
      ∀ w ∈ inputRuns.foldl addRun acc, w ∈ acc ∨
        (w.Valid ∧ ∃ inputRun ∈ inputRuns, w.rows = inputRun.flatten) := by
  induction inputRuns generalizing acc with
  | nil => exact ⟨by simp, fun w hw => .inl hw⟩
  | cons inputRun rest ih =>
    obtain ⟨h₁, h₂⟩ := addRun_spec acc inputRun
    obtain ⟨h₃, h₄⟩ := ih (addRun acc inputRun)
    refine ⟨by rw [List.foldl_cons, h₃, h₁, List.flatMap_cons, List.append_assoc], fun w hw => ?_⟩
    rcases h₄ w hw with hw | ⟨hv, run, hrun, hrows⟩
    · rcases h₂ w hw with hw | ⟨hv, hrows⟩
      · exact .inl hw
      · exact .inr ⟨hv, inputRun, List.mem_cons_self, hrows⟩
    · exact .inr ⟨hv, run, List.mem_cons_of_mem _ hrun, hrows⟩

end Prepare

variable {α : Type} [Inhabited α] (c : Comparator α)

def leastChild (minHeap : List (SortedRunWrapper α)) (parentIndex : ℕ) : ℕ :=
  let leftIndex := 2 * parentIndex + 1
  let rightIndex := leftIndex + 1
  if rightIndex ≥ minHeap.length ∨
      c.less minHeap[leftIndex]!.currentRow minHeap[rightIndex]!.currentRow = true then leftIndex
  else rightIndex

theorem le_leastChild (minHeap : List (SortedRunWrapper α)) (parentIndex : ℕ) :
    2 * parentIndex + 1 ≤ leastChild c minHeap parentIndex := by
  unfold leastChild
  dsimp only
  split_ifs <;> omega

/-- `HeapifyHelper(parent_index)`: the loop that moves the parent down while its least child is
below it. -/
def heapifyHelper (minHeap : List (SortedRunWrapper α)) (parentIndex : ℕ) :
    List (SortedRunWrapper α) :=
  if 2 * parentIndex + 1 < minHeap.length then
    let leastChild := leastChild c minHeap parentIndex
    if c.less minHeap[leastChild]!.currentRow minHeap[parentIndex]!.currentRow then
      heapifyHelper (minHeap.swap leastChild parentIndex) leastChild
    else minHeap
  else minHeap
termination_by minHeap.length - parentIndex
decreasing_by
  have := le_leastChild c minHeap parentIndex
  simp only [List.length_swap]
  omega

/-- The `for` loop of `Prepare` that builds the heap: `Heapify(i)` from `i = last_parent` down
to `0`, with `last_parent + 1` the argument. -/
def buildHeap (minHeap : List (SortedRunWrapper α)) : ℕ → List (SortedRunWrapper α)
  | 0 => minHeap
  | i + 1 => buildHeap (heapifyHelper c minHeap i) i

def prepare (inputRuns : List (List (List α))) : List (SortedRunWrapper α) :=
  let minHeap := inputRuns.foldl addRun []
  buildHeap c minHeap (minHeap.length / 2)

def advanceMinRow (minHeap : List (SortedRunWrapper α)) : List (SortedRunWrapper α) :=
  let (min, minRunComplete) := advance minHeap[0]!
  let minHeap := minHeap.set 0 min
  let minHeap :=
    if minRunComplete then (minHeap.swap 0 (minHeap.length - 1)).dropLast else minHeap
  if minHeap.isEmpty then minHeap else heapifyHelper c minHeap 0

/-- The loop of `GetNext`: the rows of `output_batch` so far, until `AtCapacity()` or the heap
is empty. `atCapacity` answers `output_batch->AtCapacity()`; `fuel` bounds the rounds. -/
def getNextLoop (atCapacity : List α → Bool) :
    ℕ → List α → List (SortedRunWrapper α) → Option (List α × List (SortedRunWrapper α))
  | 0, _, _ => none
  | fuel + 1, outputBatch, minHeap =>
    if !atCapacity outputBatch && !minHeap.isEmpty then
      getNextLoop atCapacity fuel (outputBatch ++ [minHeap[0]!.currentRow]) (advanceMinRow c minHeap)
    else some (outputBatch, minHeap)

def getNext (atCapacity : List α → Bool) (fuel : ℕ) (minHeap : List (SortedRunWrapper α)) :
    Option (List α × List (SortedRunWrapper α) × Bool) :=
  (getNextLoop c atCapacity fuel [] minHeap).map fun r => (r.1, r.2, r.2.isEmpty)

/-! ## The heap -/

def RowLe (a b : SortedRunWrapper α) : Prop := c.le a.currentRow b.currentRow

/-- The heap between calls: in heap order, every run at a row. -/
structure HeapInv (minHeap : List (SortedRunWrapper α)) : Prop where
  ordered : OrderedOn (RowLe c) (0 ≤ ·) minHeap
  valid : ∀ w ∈ minHeap, w.Valid

/-- What the merge keeps: the rows output so far, `out`, are in order and at or below every row
still in the heap, and with those they are the rows of the input runs, `all`. -/
structure MergeInv (all out : List α) (minHeap : List (SortedRunWrapper α)) : Prop
    extends HeapInv c minHeap where
  sorted : ∀ w ∈ minHeap, w.rows.Pairwise c.le
  perm : (out ++ minHeap.flatMap rows).Perm all
  out_sorted : out.Pairwise c.le
  out_le : ∀ x ∈ out, ∀ y ∈ minHeap.flatMap rows, c.le x y

theorem isChild_leastChild (minHeap : List (SortedRunWrapper α)) (p : ℕ) :
    IsChild p (leastChild c minHeap p) := by
  unfold leastChild
  dsimp only
  split_ifs
  · exact .inl rfl
  · exact .inr rfl

theorem leastChild_lt {minHeap : List (SortedRunWrapper α)} {p : ℕ}
    (hl : 2 * p + 1 < minHeap.length) : leastChild c minHeap p < minHeap.length := by
  unfold leastChild
  dsimp only
  split_ifs with h
  · exact hl
  · obtain ⟨hr, -⟩ := not_or.1 h
    omega

variable {c}

/-! ## What a round moves

Neither the rows the merge moves nor the runs it keeps depend on the comparator. -/

theorem heapifyHelper_perm (minHeap : List (SortedRunWrapper α)) (p : ℕ) :
    (heapifyHelper c minHeap p).Perm minHeap := by
  fun_induction heapifyHelper c minHeap p with
  | case1 minHeap p _ _ _ ih => exact ih.trans (List.swap_perm _ _ _)
  | case2 => exact List.Perm.refl _
  | case3 => exact List.Perm.refl _

theorem buildHeap_perm (minHeap : List (SortedRunWrapper α)) (m : ℕ) :
    (buildHeap c minHeap m).Perm minHeap := by
  induction m generalizing minHeap with
  | zero => exact List.Perm.refl _
  | succ i ih => exact (ih _).trans (heapifyHelper_perm minHeap i)

theorem prepare_perm_mem (inputRuns : List (List (List α))) :
    ((prepare c inputRuns).flatMap rows).Perm (inputRuns.flatMap List.flatten) ∧
      ∀ w ∈ prepare c inputRuns, w.Valid ∧ ∃ inputRun ∈ inputRuns, w.rows = inputRun.flatten := by
  obtain ⟨hrows, hmem⟩ := foldl_addRun inputRuns []
  have hperm := buildHeap_perm (c := c) (inputRuns.foldl addRun [])
    ((inputRuns.foldl addRun []).length / 2)
  refine ⟨?_, fun w hw => (hmem w (hperm.mem_iff.1 hw)).resolve_left List.not_mem_nil⟩
  rw [← List.nil_append (inputRuns.flatMap List.flatten), ← List.flatMap_nil (f := rows), ← hrows]
  exact hperm.flatMap_right rows

theorem advanceMinRow_cons (w : SortedRunWrapper α) (t : List (SortedRunWrapper α)) :
    advanceMinRow c (w :: t) =
      if (advance w).2 then
        if t.isEmpty then [] else heapifyHelper c ((((advance w).1 :: t).swap 0 t.length).dropLast) 0
      else heapifyHelper c ((advance w).1 :: t) 0 := by
  unfold advanceMinRow
  cases heos : (advance w).2
  · simp [heos]
  · cases t with
    | nil => simp [heos]
    | cons x t =>
      simp only [heos, List.getElem!_cons_zero, List.set_cons_zero, List.length_cons,
        Nat.add_sub_cancel, if_true, List.isEmpty_cons, Bool.false_eq_true, if_false]
      rw [if_neg (by simp [← List.length_pos_iff])]

theorem advanceMinRow_perm_mem {w : SortedRunWrapper α} {t : List (SortedRunWrapper α)}
    (hw : w.Valid) :
    ((advanceMinRow c (w :: t)).flatMap rows).Perm (w.after ++ t.flatMap rows) ∧
      ∀ x ∈ advanceMinRow c (w :: t), x ∈ t ∨ (x.Valid ∧ x.rows = w.after) := by
  obtain ⟨hnext, hdone⟩ := advance_spec w (by obtain ⟨_, _, h₀, _⟩ := hw; omega)
  rw [advanceMinRow_cons]
  cases heos : (advance w).2 with
  | false =>
    obtain ⟨hv, hrows⟩ := hnext heos
    have hperm := heapifyHelper_perm (c := c) ((advance w).1 :: t) 0
    rw [if_neg Bool.false_ne_true]
    refine ⟨?_, fun x hx => ?_⟩
    · rw [← hrows, ← List.flatMap_cons]
      exact hperm.flatMap_right rows
    · rcases List.mem_cons.1 (hperm.mem_iff.1 hx) with rfl | hx
      · exact .inr ⟨hv, hrows⟩
      · exact .inl hx
  | true =>
    have hperm : (if t.isEmpty then [] else
        heapifyHelper c ((((advance w).1 :: t).swap 0 t.length).dropLast) 0).Perm t := by
      split_ifs with ht
      · rw [List.isEmpty_iff.1 ht]
      · exact (heapifyHelper_perm _ 0).trans (swap_zero_dropLast_perm _ t)
    rw [if_pos rfl, hdone heos, List.nil_append]
    exact ⟨hperm.flatMap_right rows, fun x hx => .inl (hperm.mem_iff.1 hx)⟩

theorem advanceMinRow_valid {w : SortedRunWrapper α} {t : List (SortedRunWrapper α)}
    (hv : ∀ x ∈ w :: t, x.Valid) : ∀ x ∈ advanceMinRow c (w :: t), x.Valid := fun x hx =>
  ((advanceMinRow_perm_mem (hv w List.mem_cons_self)).2 x hx).elim
    (fun hx => hv x (List.mem_cons_of_mem _ hx)) And.left

theorem advanceMinRow_rows_length {w : SortedRunWrapper α} {t : List (SortedRunWrapper α)}
    (hw : w.Valid) :
    ((advanceMinRow c (w :: t)).flatMap rows).length + 1 = ((w :: t).flatMap rows).length := by
  rw [(advanceMinRow_perm_mem hw).1.length_eq, List.flatMap_cons, rows_eq_cons hw]
  simp only [List.length_append, List.length_cons]
  omega

/-! ## The heap order -/

section Lawful

variable (hc : c.Lawful)
include hc

theorem rowLe_trans {a b d : SortedRunWrapper α} (h₁ : RowLe c a b) (h₂ : RowLe c b d) :
    RowLe c a d :=
  hc.le_trans _ _ _ h₁ h₂

theorem rowLe_total (a b : SortedRunWrapper α) : RowLe c a b ∨ RowLe c b a := by
  rcases le_or_gt (c.compare a.currentRow b.currentRow) 0 with h | h
  · exact .inl h
  · exact .inr (hc.compare_nonpos_iff.2 h.le)

theorem less_eq_true_iff (a b : SortedRunWrapper α) :
    c.less a.currentRow b.currentRow = true ↔ ¬ RowLe c b a := by
  rw [hc.less_iff, RowLe, Comparator.le, hc.compare_nonpos_iff]
  omega

theorem leastChild_le {minHeap : List (SortedRunWrapper α)} {p : ℕ}
    (hlc : leastChild c minHeap p < minHeap.length) :
    ∀ j (hj : j < minHeap.length), IsChild p j →
      RowLe c minHeap[leastChild c minHeap p] minHeap[j] := by
  have hrefl : ∀ a : SortedRunWrapper α, RowLe c a a := fun a => (rowLe_total hc a a).elim id id
  intro j hj hpj
  unfold leastChild at hlc ⊢
  dsimp only at hlc ⊢
  split_ifs at hlc ⊢ with h
  · rcases hpj with rfl | rfl
    · exact hrefl _
    · have hless := h.resolve_left (by omega)
      rw [getElem!_pos minHeap _ hlc, getElem!_pos minHeap _ hj, less_eq_true_iff hc] at hless
      exact ((rowLe_total hc _ _).resolve_right hless)
  · obtain ⟨-, hless⟩ := not_or.1 h
    rcases hpj with rfl | rfl
    · rw [getElem!_pos minHeap _ hj, getElem!_pos minHeap _ hlc, Bool.not_eq_true,
        hc.less_eq_false_iff] at hless
      exact hless
    · exact hrefl _

theorem heapifyHelper_ordered {k p : ℕ} {minHeap : List (SortedRunWrapper α)}
    (hinv : SiftInv (RowLe c) k p minHeap) :
    OrderedOn (RowLe c) (k ≤ ·) (heapifyHelper c minHeap p) := by
  fun_induction heapifyHelper c minHeap p with
  | case1 minHeap p hl lc hless ih =>
    have hlc := leastChild_lt c hl
    have hp : p < minHeap.length := by omega
    rw [getElem!_pos minHeap _ hlc, getElem!_pos minHeap _ hp, less_eq_true_iff hc] at hless
    exact ih (hinv.swap (rowLe_total hc) (isChild_leastChild c minHeap p) hp hlc hless
      (leastChild_le hc hlc))
  | case2 minHeap p hl lc hless =>
    have hlc := leastChild_lt c hl
    have hp : p < minHeap.length := by omega
    rw [getElem!_pos minHeap _ hlc, getElem!_pos minHeap _ hp, less_eq_true_iff hc,
      not_not] at hless
    exact hinv.orderedOn fun j _ hj hpj => rowLe_trans hc hless (leastChild_le hc hlc j hj hpj)
  | case3 minHeap p hl =>
    refine hinv.orderedOn fun j _ hj hpj => absurd hj ?_
    unfold IsChild at hpj
    omega

theorem buildHeap_ordered {m : ℕ} {minHeap : List (SortedRunWrapper α)}
    (hord : OrderedOn (RowLe c) (m ≤ ·) minHeap) :
    OrderedOn (RowLe c) (0 ≤ ·) (buildHeap c minHeap m) := by
  induction m generalizing minHeap with
  | zero => exact hord
  | succ i ih =>
    exact ih (heapifyHelper_ordered hc (siftInv_of_orderedOn hord))

theorem prepare_heapInv (inputRuns : List (List (List α))) : HeapInv c (prepare c inputRuns) where
  ordered := buildHeap_ordered hc (m := (inputRuns.foldl addRun []).length / 2)
    (orderedOn_of_length_le (h := inputRuns.foldl addRun []) (by omega))
  valid w hw := ((prepare_perm_mem inputRuns).2 w hw).1

theorem advanceMinRow_heapInv {w : SortedRunWrapper α} {t : List (SortedRunWrapper α)}
    (hinv : HeapInv c (w :: t)) : HeapInv c (advanceMinRow c (w :: t)) := by
  refine ⟨?_, advanceMinRow_valid hinv.valid⟩
  have hsift : SiftInv (RowLe c) 0 0 ((advance w).1 :: t) :=
    hinv.ordered.siftInv_zero.set_zero (advance w).1
  rw [advanceMinRow_cons]
  split_ifs with heos ht
  · exact orderedOn_of_length_le (k := 0) (by simp)
  · have hsift' := hsift.removeRoot
    rw [List.length_cons, Nat.add_sub_cancel] at hsift'
    exact heapifyHelper_ordered hc hsift'
  · exact heapifyHelper_ordered hc hsift

theorem HeapInv.currentRow_le {w : SortedRunWrapper α} {t : List (SortedRunWrapper α)}
    (hinv : HeapInv c (w :: t)) (hsorted : ∀ x ∈ w :: t, x.rows.Pairwise c.le) :
    ∀ y ∈ (w :: t).flatMap rows, c.le w.currentRow y := by
  intro y hy
  obtain ⟨x, hx, hy⟩ := List.mem_flatMap.1 hy
  obtain ⟨j, hj, rfl⟩ := List.getElem_of_mem hx
  have hroot : RowLe c (w :: t)[0] (w :: t)[j] :=
    @OrderedOn.root_le _ (RowLe c) (rowLe_trans hc) (rowLe_total hc) _ hinv.ordered (by simp) j hj
  have hrun := hsorted _ hx
  rw [rows_eq_cons (hinv.valid _ hx)] at hy hrun
  rcases List.mem_cons.1 hy with rfl | hy
  · exact hroot
  · exact hc.le_trans _ _ _ hroot (List.rel_of_pairwise_cons hrun hy)

theorem MergeInv.step {all out : List α} {w : SortedRunWrapper α} {t : List (SortedRunWrapper α)}
    (hinv : MergeInv c all out (w :: t)) :
    MergeInv c all (out ++ [w.currentRow]) (advanceMinRow c (w :: t)) := by
  have hw := hinv.valid w List.mem_cons_self
  obtain ⟨hperm, hmem⟩ := advanceMinRow_perm_mem (c := c) (t := t) hw
  have hrows := rows_eq_cons hw
  have hmin := hinv.toHeapInv.currentRow_le hc hinv.sorted
  have hcons : (w :: t).flatMap rows = w.currentRow :: (w.after ++ t.flatMap rows) := by
    rw [List.flatMap_cons, hrows, List.cons_append]
  have hleft : ∀ y ∈ (advanceMinRow c (w :: t)).flatMap rows, y ∈ (w :: t).flatMap rows :=
    fun y hy => hcons ▸ List.mem_cons_of_mem _ (hperm.mem_iff.1 hy)
  refine ⟨advanceMinRow_heapInv hc hinv.toHeapInv, fun x hx => ?_, ?_, ?_, ?_⟩
  · rcases hmem x hx with hx | ⟨-, hx⟩
    · exact hinv.sorted x (List.mem_cons_of_mem _ hx)
    · have hsorted := hinv.sorted w List.mem_cons_self
      rw [hrows] at hsorted
      exact hx ▸ hsorted.of_cons
  · calc (out ++ [w.currentRow] ++ (advanceMinRow c (w :: t)).flatMap rows).Perm
          (out ++ w.currentRow :: (w.after ++ t.flatMap rows)) := by
          rw [List.append_assoc, List.singleton_append]
          exact (hperm.cons _).append_left out
      _ = out ++ (w :: t).flatMap rows := by rw [hcons]
      List.Perm _ all := hinv.perm
  · refine List.pairwise_append.2 ⟨hinv.out_sorted, List.pairwise_singleton _ _, ?_⟩
    intro x hx y hy
    rw [List.mem_singleton.1 hy]
    exact hinv.out_le x hx _ (by rw [hcons]; exact List.mem_cons_self)
  · intro x hx y hy
    rcases List.mem_append.1 hx with hx | hx
    · exact hinv.out_le x hx y (hleft y hy)
    · rw [List.mem_singleton.1 hx]
      exact hmin y (hleft y hy)

end Lawful

/-! ## The loop of `GetNext` -/

section Loop

variable {atCapacity : List α → Bool}

theorem getNextLoop_inv (Q : List α → List (SortedRunWrapper α) → Prop)
    (hstep : ∀ out w t, atCapacity out = false → Q out (w :: t) →
      Q (out ++ [w.currentRow]) (advanceMinRow c (w :: t)))
    {fuel : ℕ} {out batch : List α} {minHeap minHeap' : List (SortedRunWrapper α)}
    (h : getNextLoop c atCapacity fuel out minHeap = some (batch, minHeap'))
    (hq : Q out minHeap) : Q batch minHeap' := by
  fun_induction getNextLoop c atCapacity fuel out minHeap with
  | case1 => cases h
  | case2 fuel out minHeap hguard ih =>
    obtain ⟨hcap, hne⟩ : atCapacity out = false ∧ minHeap ≠ [] := by simpa using hguard
    obtain ⟨w, t, rfl⟩ := List.exists_cons_of_ne_nil hne
    exact ih h (hstep out w t hcap hq)
  | case3 fuel out minHeap hguard =>
    cases h
    exact hq

theorem getNextLoop_exit {fuel : ℕ} {out batch : List α}
    {minHeap minHeap' : List (SortedRunWrapper α)}
    (h : getNextLoop c atCapacity fuel out minHeap = some (batch, minHeap')) :
    atCapacity batch = true ∨ minHeap' = [] := by
  fun_induction getNextLoop c atCapacity fuel out minHeap with
  | case1 => cases h
  | case2 fuel out minHeap hguard ih => exact ih h
  | case3 fuel out minHeap hguard =>
    cases h
    simpa [Bool.not_eq_true', or_iff_not_imp_left] using hguard

theorem getNextLoop_isSome {fuel : ℕ} {out : List α} {minHeap : List (SortedRunWrapper α)}
    (hv : ∀ w ∈ minHeap, w.Valid) (hfuel : (minHeap.flatMap rows).length < fuel) :
    ∃ r, getNextLoop c atCapacity fuel out minHeap = some r := by
  fun_induction getNextLoop c atCapacity fuel out minHeap with
  | case1 => omega
  | case2 fuel out minHeap hguard ih =>
    obtain ⟨-, hne⟩ : atCapacity out = false ∧ minHeap ≠ [] := by simpa using hguard
    obtain ⟨w, t, rfl⟩ := List.exists_cons_of_ne_nil hne
    have hlen := advanceMinRow_rows_length (c := c) (t := t) (hv w List.mem_cons_self)
    exact ih (advanceMinRow_valid hv) (by omega)
  | case3 => exact ⟨_, rfl⟩

theorem getNextLoop_length {fuel : ℕ} {out batch : List α}
    {minHeap minHeap' : List (SortedRunWrapper α)}
    (h : getNextLoop c atCapacity fuel out minHeap = some (batch, minHeap'))
    (hv : ∀ w ∈ minHeap, w.Valid) :
    batch.length + (minHeap'.flatMap rows).length = out.length + (minHeap.flatMap rows).length := by
  refine (getNextLoop_inv (fun batch minHeap'' =>
      batch.length + (minHeap''.flatMap rows).length = out.length + (minHeap.flatMap rows).length ∧
        ∀ w ∈ minHeap'', w.Valid) ?_ h ⟨rfl, hv⟩).1
  intro _ w t _ ⟨hlen, hv'⟩
  have hround := advanceMinRow_rows_length (c := c) (t := t) (hv' w List.mem_cons_self)
  refine ⟨?_, advanceMinRow_valid hv'⟩
  rw [List.length_append, List.length_singleton]
  omega

theorem getNextLoop_below_capacity {fuel : ℕ} {out batch : List α}
    {minHeap minHeap' : List (SortedRunWrapper α)}
    (h : getNextLoop c atCapacity fuel out minHeap = some (batch, minHeap'))
    (hout : ∀ n < out.length, atCapacity (out.take n) = false) :
    ∀ n < batch.length, atCapacity (batch.take n) = false := by
  refine getNextLoop_inv (fun batch _ => ∀ n < batch.length, atCapacity (batch.take n) = false)
    ?_ h hout
  intro b _ _ hcap hprev n hn
  rw [List.length_append, List.length_singleton] at hn
  rcases Nat.lt_succ_iff_lt_or_eq.1 hn with hn | rfl
  · rw [List.take_append_of_le_length hn.le]
    exact hprev n hn
  · rw [List.take_left]
    exact hcap

end Loop

theorem getNext_eq_some {atCapacity : List α → Bool} {fuel : ℕ} {batch : List α}
    {minHeap minHeap' : List (SortedRunWrapper α)} {eos : Bool}
    (h : getNext c atCapacity fuel minHeap = some (batch, minHeap', eos)) :
    getNextLoop c atCapacity fuel [] minHeap = some (batch, minHeap') ∧ eos = minHeap'.isEmpty := by
  obtain ⟨⟨b, m⟩, hloop, heq⟩ := Option.map_eq_some_iff.1 h
  simp only [Prod.mk.injEq] at heq
  obtain ⟨rfl, rfl, rfl⟩ := heq
  exact ⟨hloop, rfl⟩

/-! ## Runs of the merger -/

variable (c) in
/-- The states of a merger over `inputRuns`: after `Prepare`, then after any number of `GetNext`
calls, each with its own batch capacity and fuel; `out` is every row output so far. -/
inductive Reachable (inputRuns : List (List (List α))) : List α → List (SortedRunWrapper α) → Prop
  | prepare : Reachable inputRuns [] (prepare c inputRuns)
  | getNext {out batch : List α} {minHeap minHeap' : List (SortedRunWrapper α)} {eos : Bool}
      (atCapacity : List α → Bool) (fuel : ℕ) :
      Reachable inputRuns out minHeap →
      getNext c atCapacity fuel minHeap = some (batch, minHeap', eos) →
      Reachable inputRuns (out ++ batch) minHeap'

theorem Reachable.valid {inputRuns : List (List (List α))} {out : List α}
    {minHeap : List (SortedRunWrapper α)} (hr : Reachable c inputRuns out minHeap) :
    ∀ w ∈ minHeap, w.Valid := by
  induction hr with
  | prepare => exact fun w hw => ((prepare_perm_mem inputRuns).2 w hw).1
  | getNext atCapacity fuel _ h ih =>
    exact getNextLoop_inv (fun _ minHeap => ∀ w ∈ minHeap, w.Valid)
      (fun _ _ _ _ hv => advanceMinRow_valid hv) (getNext_eq_some h).1 ih

theorem Reachable.mergeInv (hc : c.Lawful) {inputRuns : List (List (List α))}
    (hruns : ∀ inputRun ∈ inputRuns, inputRun.flatten.Pairwise c.le) {out : List α}
    {minHeap : List (SortedRunWrapper α)} (hr : Reachable c inputRuns out minHeap) :
    MergeInv c (inputRuns.flatMap List.flatten) out minHeap := by
  induction hr with
  | prepare =>
    obtain ⟨hperm, hmem⟩ := prepare_perm_mem (c := c) inputRuns
    refine ⟨prepare_heapInv hc inputRuns, fun w hw => ?_, by simpa using hperm, List.Pairwise.nil,
      fun _ hx => absurd hx List.not_mem_nil⟩
    obtain ⟨-, inputRun, hrun, hrows⟩ := hmem w hw
    exact hrows ▸ hruns inputRun hrun
  | @getNext out batch minHeap minHeap' eos atCapacity fuel _ h ih =>
    exact getNextLoop_inv
      (fun batch minHeap => MergeInv c (inputRuns.flatMap List.flatten) (out ++ batch) minHeap)
      (fun _ _ _ _ hinv => by simpa only [List.append_assoc] using hinv.step hc)
      (getNext_eq_some h).1 (by simpa using ih)

/-- Over sorted input runs, in every state of the merger the rows output so far are sorted, are
at or below every row still in the heap, and with those are the input rows, each as often as
there; once the heap is empty the output is the input rows in sorted order. -/
theorem merge_sorted_permutation (hc : c.Lawful) {inputRuns : List (List (List α))}
    (hruns : ∀ inputRun ∈ inputRuns, inputRun.flatten.Pairwise c.le) {out : List α}
    {minHeap : List (SortedRunWrapper α)} (hr : Reachable c inputRuns out minHeap) :
    out.Pairwise c.le ∧ (out ++ minHeap.flatMap rows).Perm (inputRuns.flatMap List.flatten) ∧
      (∀ x ∈ out, ∀ y ∈ minHeap.flatMap rows, c.le x y) ∧
      (minHeap = [] → out.Perm (inputRuns.flatMap List.flatten)) := by
  have hinv := hr.mergeInv hc hruns
  refine ⟨hinv.out_sorted, hinv.perm, hinv.out_le, fun hnil => ?_⟩
  simpa [hnil] using hinv.perm

theorem merge_sorted_permutation_two_runs :
    [1, 2].Pairwise (Comparator.ofKey fun x : ℤ => x).le ∧
      ([1, 2] ++ [(⟨some [1, 3], 1, [[]]⟩ : SortedRunWrapper ℤ)].flatMap rows).Perm
        (([[[1, 3], []], [[2]]] : List (List (List ℤ))).flatMap List.flatten) ∧
      (∀ x ∈ [1, 2], ∀ y ∈ [(⟨some [1, 3], 1, [[]]⟩ : SortedRunWrapper ℤ)].flatMap rows,
        (Comparator.ofKey fun x : ℤ => x).le x y) ∧
      ([(⟨some [1, 3], 1, [[]]⟩ : SortedRunWrapper ℤ)] = [] →
        [1, 2].Perm (([[[1, 3], []], [[2]]] : List (List (List ℤ))).flatMap List.flatten)) :=
  merge_sorted_permutation (Comparator.ofKey_lawful _)
    (by simp [Comparator.le, Comparator.ofKey])
    (Reachable.getNext (fun batch => decide (2 ≤ batch.length)) 10 Reachable.prepare
      (show getNext (Comparator.ofKey fun x : ℤ => x) (fun batch => decide (2 ≤ batch.length)) 10
          (prepare (Comparator.ofKey fun x : ℤ => x) [[[1, 3], []], [[2]]]) =
        some ([1, 2], [⟨some [1, 3], 1, [[]]⟩], false) by decide +kernel))

/-- From every state of the merger and with more fuel than rows left, `GetNext` returns, whatever
the comparator: it adds rows while the batch is not at capacity, stops at a full batch or an
empty heap, reports `eos` exactly when the heap is empty, and takes off the heap as many rows as
it adds. -/
theorem getNext_returns {inputRuns : List (List (List α))} {out : List α}
    {minHeap : List (SortedRunWrapper α)} (hr : Reachable c inputRuns out minHeap)
    (atCapacity : List α → Bool) (fuel : ℕ) (hfuel : (minHeap.flatMap rows).length < fuel) :
    ∃ batch minHeap' eos, getNext c atCapacity fuel minHeap = some (batch, minHeap', eos) ∧
      (eos = true ↔ minHeap' = []) ∧ (eos = true ∨ atCapacity batch = true) ∧
      (∀ n < batch.length, atCapacity (batch.take n) = false) ∧
      batch.length + (minHeap'.flatMap rows).length = (minHeap.flatMap rows).length := by
  have hv := hr.valid
  obtain ⟨⟨batch, minHeap'⟩, hloop⟩ : ∃ r, getNextLoop c atCapacity fuel [] minHeap = some r :=
    getNextLoop_isSome hv hfuel
  refine ⟨batch, minHeap', minHeap'.isEmpty, by simp [getNext, hloop], List.isEmpty_iff, ?_,
    getNextLoop_below_capacity hloop (fun _ hn => absurd hn (Nat.not_lt_zero _)),
    by simpa using getNextLoop_length hloop hv⟩
  rcases getNextLoop_exit hloop with h | h
  · exact .inr h
  · exact .inl (List.isEmpty_iff.2 h)

theorem getNext_returns_two_runs :
    ∃ batch minHeap' eos, getNext (Comparator.ofKey fun x : ℤ => x)
        (fun batch => decide (2 ≤ batch.length)) 4
        (prepare (Comparator.ofKey fun x : ℤ => x) [[[1, 3], []], [[2]]]) =
        some (batch, minHeap', eos) ∧
      (eos = true ↔ minHeap' = []) ∧ (eos = true ∨ decide (2 ≤ batch.length) = true) ∧
      (∀ n < batch.length, decide (2 ≤ (batch.take n).length) = false) ∧
      batch.length + (minHeap'.flatMap rows).length =
        ((prepare (Comparator.ofKey fun x : ℤ => x) [[[1, 3], []], [[2]]]).flatMap rows).length :=
  getNext_returns Reachable.prepare (fun batch => decide (2 ≤ batch.length)) 4 (by decide +kernel)

/-- Over sorted input runs, in every state of the merger the heap is in heap order by current
rows, every run in it stands at a row, and the root's current row, the next one `GetNext`
outputs, is at or below every row left. -/
theorem heap_root_least (hc : c.Lawful) {inputRuns : List (List (List α))}
    (hruns : ∀ inputRun ∈ inputRuns, inputRun.flatten.Pairwise c.le) {out : List α}
    {minHeap : List (SortedRunWrapper α)} (hr : Reachable c inputRuns out minHeap) :
    OrderedOn (RowLe c) (0 ≤ ·) minHeap ∧ (∀ w ∈ minHeap, w.Valid) ∧
      ∀ w t, minHeap = w :: t → ∀ y ∈ minHeap.flatMap rows, c.le w.currentRow y := by
  have hinv := hr.mergeInv hc hruns
  refine ⟨hinv.ordered, hinv.valid, fun w t hwt => ?_⟩
  subst hwt
  exact hinv.toHeapInv.currentRow_le hc hinv.sorted

theorem heap_root_least_two_runs :
    OrderedOn (RowLe (Comparator.ofKey fun x : ℤ => x)) (0 ≤ ·)
        [(⟨some [1, 3], 1, [[]]⟩ : SortedRunWrapper ℤ)] ∧
      (∀ w ∈ [(⟨some [1, 3], 1, [[]]⟩ : SortedRunWrapper ℤ)], w.Valid) ∧
      ∀ w t, [(⟨some [1, 3], 1, [[]]⟩ : SortedRunWrapper ℤ)] = w :: t →
        ∀ y ∈ [(⟨some [1, 3], 1, [[]]⟩ : SortedRunWrapper ℤ)].flatMap rows,
          (Comparator.ofKey fun x : ℤ => x).le w.currentRow y :=
  heap_root_least (Comparator.ofKey_lawful _) (by simp [Comparator.le, Comparator.ofKey])
    (Reachable.getNext (fun batch => decide (2 ≤ batch.length)) 10 Reachable.prepare
      (show getNext (Comparator.ofKey fun x : ℤ => x) (fun batch => decide (2 ≤ batch.length)) 10
          (prepare (Comparator.ofKey fun x : ℤ => x) [[[1, 3], []], [[2]]]) =
        some ([1, 2], [⟨some [1, 3], 1, [[]]⟩], false) by decide +kernel))

end Impala.SortedRunMerger
