import Mathlib
import Impala.Runtime.StringValue

/-!
`Scheduler::AssignRangesToInstances` (scheduling/scheduler.cc): the scan ranges of a fragment
split over at most `max_num_instances` instances, round-robin or by the longest-processing-time
rule.

The LPT loop keeps `instance_heap`, a max-heap under `InstanceAssignment::operator<`, and assigns
each range to `instance_heap[0]`. The heap is modelled by the assignments it holds, with
`instance_heap[0]` its greatest element under `operator<`; raising the top's weight and then
`pop_heap` and `push_heap` leave it a heap of the same assignments with that weight raised.
The heap is always the loads of the lists built so far (`HeapInv`), so its top is the least
loaded instance, and the one of least index among those.
-/

set_option autoImplicit false

namespace Impala.Scheduler

/-- The fields of `HdfsFileSplitPB` that `ScanRangeWeight` and `ScanRangeComparator` read. -/
structure HdfsFileSplit where
  relativePath : Bytes
  offset : Int
  length : Int
  fileLength : Int
  mtime : Int
  partitionPathHash : Int
  deriving DecidableEq, Repr

/-- `ScanRangePB` by the one of its splits that is set. -/
inductive ScanRange where
  | hdfsFileSplit (split : HdfsFileSplit)
  | kuduScanToken (token : Bytes)
  | hbaseKeyRange (startkey stopkey : Bytes)
  | other
  deriving DecidableEq, Repr

def scanRangeWeight : ScanRange → Int
  | .hdfsFileSplit split => split.length
  | _ => 1

def bytesGt (a b : Bytes) : Bool := decide (b < a)

/-- `Scheduler::ScanRangeComparator`: by weight from the largest, ties broken by the fields of
the split; ranges of different kinds are not ordered. -/
def scanRangeComparator (a b : ScanRange) : Bool :=
  let aWeight := scanRangeWeight a
  let bWeight := scanRangeWeight b
  if aWeight ≠ bWeight then aWeight > bWeight
  else
    match a, b with
    | .hdfsFileSplit x, .hdfsFileSplit y =>
      if x.mtime ≠ y.mtime then x.mtime > y.mtime
      else if x.offset ≠ y.offset then x.offset > y.offset
      else if x.fileLength ≠ y.fileLength then x.fileLength > y.fileLength
      else if x.partitionPathHash ≠ y.partitionPathHash then
        x.partitionPathHash > y.partitionPathHash
      else if x.relativePath ≠ y.relativePath then bytesGt x.relativePath y.relativePath
      else false
    | .kuduScanToken x, .kuduScanToken y => bytesGt x y
    | .hbaseKeyRange xs xe, .hbaseKeyRange ys ye =>
      if xs ≠ ys then bytesGt xs ys else if xe ≠ ye then bytesGt xe ye else false
    | _, _ => false

def sortRanges (ranges : List ScanRange) : List ScanRange :=
  ranges.mergeSort fun a b => !scanRangeComparator b a

structure InstanceAssignment where
  weight : Int
  instanceIdx : Nat
  deriving DecidableEq, Repr

/-- `InstanceAssignment::operator<`, inverted because the heap is a max-heap. -/
def InstanceAssignment.lt (a b : InstanceAssignment) : Bool :=
  if a.weight = b.weight then a.instanceIdx > b.instanceIdx else a.weight > b.weight

def heapTop : List InstanceAssignment → Option InstanceAssignment
  | [] => none
  | a :: h => some (h.foldl (fun top x => if top.lt x then x else top) a)

def addToTop (instanceHeap : List InstanceAssignment) (idx : Nat) (w : Int) :
    List InstanceAssignment :=
  instanceHeap.map fun a => if a.instanceIdx = idx then { a with weight := a.weight + w } else a

section Loops

variable {α : Type*}

/-- The LPT loop over the sorted ranges: each goes to the list of the instance at the top of
the heap. -/
def lptLoop (weight : α → Int) :
    List α → List InstanceAssignment → List (List α) → Option (List (List α))
  | [], _, perInstanceRanges => some perInstanceRanges
  | range :: ranges, instanceHeap, perInstanceRanges =>
    match heapTop instanceHeap with
    | none => none
    | some top =>
      lptLoop weight ranges (addToTop instanceHeap top.instanceIdx (weight range))
        (perInstanceRanges.modify top.instanceIdx (· ++ [range]))

def roundRobinLoop (numInstances : Nat) : Nat → List α → List (List α) → List (List α)
  | _, [], perInstanceRanges => perInstanceRanges
  | idx, range :: ranges, perInstanceRanges =>
    roundRobinLoop numInstances (if idx + 1 = numInstances then 0 else idx + 1) ranges
      (perInstanceRanges.modify idx (· ++ [range]))

end Loops

/-- `Scheduler::AssignRangesToInstances(max_num_instances, ranges, use_lpt)`; `none` is the
write to `per_instance_ranges[0]` when there are no ranges and so no lists. -/
def assignRangesToInstances (maxNumInstances : Nat) (ranges : List ScanRange) (useLpt : Bool) :
    Option (List (List ScanRange)) :=
  let numInstances := min maxNumInstances ranges.length
  let perInstanceRanges : List (List ScanRange) := List.replicate numInstances []
  if numInstances < 2 then
    if numInstances = 0 then none else some (perInstanceRanges.set 0 ranges)
  else if useLpt then
    lptLoop scanRangeWeight (sortRanges ranges)
      ((List.range numInstances).map fun i => ⟨0, i⟩) perInstanceRanges
  else some (roundRobinLoop numInstances 0 ranges perInstanceRanges)

/-! ## The top of the heap -/

namespace InstanceAssignment

def Before (a b : InstanceAssignment) : Prop :=
  a.weight < b.weight ∨ (a.weight = b.weight ∧ a.instanceIdx ≤ b.instanceIdx)

theorem lt_eq_true_iff {a b : InstanceAssignment} : a.lt b = true ↔ ¬ a.Before b := by
  unfold lt Before
  split_ifs with h <;> simp only [decide_eq_true_eq] <;> omega

theorem Before.refl (a : InstanceAssignment) : a.Before a := Or.inr ⟨rfl, Nat.le_refl _⟩

theorem Before.trans {a b c : InstanceAssignment} (hab : a.Before b) (hbc : b.Before c) :
    a.Before c := by
  unfold Before at *
  omega

theorem Before.of_not {a b : InstanceAssignment} (h : ¬ a.Before b) : b.Before a := by
  unfold Before at *
  omega

end InstanceAssignment

open InstanceAssignment

theorem foldl_top_spec (a : InstanceAssignment) (l : List InstanceAssignment) :
    (l.foldl (fun top x => if top.lt x then x else top) a = a ∨
      l.foldl (fun top x => if top.lt x then x else top) a ∈ l) ∧
    (l.foldl (fun top x => if top.lt x then x else top) a).Before a ∧
    ∀ x ∈ l, (l.foldl (fun top x => if top.lt x then x else top) a).Before x := by
  induction l generalizing a with
  | nil => exact ⟨Or.inl rfl, Before.refl a, fun _ h => absurd h List.not_mem_nil⟩
  | cons x l ih =>
    rw [List.foldl_cons]
    by_cases hx : a.lt x = true
    · rw [if_pos hx]
      obtain ⟨hmem, hx', hall⟩ := ih x
      have hxa := Before.of_not (lt_eq_true_iff.1 hx)
      refine ⟨Or.inr ?_, hx'.trans hxa, ?_⟩
      · rcases hmem with h | h
        · rw [h]
          exact List.mem_cons_self
        · exact List.mem_cons_of_mem _ h
      · intro y hy
        rcases List.mem_cons.1 hy with rfl | hy
        · exact hx'
        · exact hall y hy
    · rw [if_neg hx]
      obtain ⟨hmem, ha, hall⟩ := ih a
      have hax : a.Before x := by
        by_contra h
        exact hx (lt_eq_true_iff.2 h)
      refine ⟨hmem.imp id (List.mem_cons_of_mem _), ha, ?_⟩
      intro y hy
      rcases List.mem_cons.1 hy with rfl | hy
      · exact ha.trans hax
      · exact hall y hy

theorem heapTop_spec {instanceHeap : List InstanceAssignment} {top : InstanceAssignment}
    (h : heapTop instanceHeap = some top) :
    top ∈ instanceHeap ∧ ∀ x ∈ instanceHeap, top.Before x := by
  cases instanceHeap with
  | nil => cases h
  | cons a l =>
    rw [heapTop, Option.some.injEq] at h
    subst h
    obtain ⟨hmem, ha, hall⟩ := foldl_top_spec a l
    refine ⟨?_, ?_⟩
    · rcases hmem with h | h
      · rw [h]
        exact List.mem_cons_self
      · exact List.mem_cons_of_mem _ h
    · intro x hx
      rcases List.mem_cons.1 hx with rfl | hx
      · exact ha
      · exact hall x hx

/-! ## The heap holds the loads of the lists -/

section Loads

variable {α : Type*} (weight : α → Int)

def loadOf (L : List (List α)) (i : Nat) : Int := ((L.getD i []).map weight).sum

def HeapInv (instanceHeap : List InstanceAssignment) (L : List (List α)) : Prop :=
  instanceHeap = (List.range L.length).map fun i => ⟨loadOf weight L i, i⟩

variable {weight}

theorem loadOf_modify (L : List (List α)) (i j : Nat) (r : α) :
    loadOf weight (L.modify i (· ++ [r])) j =
      loadOf weight L j + if i = j ∧ j < L.length then weight r else 0 := by
  unfold loadOf
  rw [List.getD_eq_getElem?_getD, List.getD_eq_getElem?_getD, List.getElem?_modify]
  by_cases hj : j < L.length
  · rw [List.getElem?_eq_getElem hj]
    by_cases hij : i = j <;> simp [hij, hj]
  · rw [List.getElem?_eq_none (by omega)]
    simp [hj]

theorem HeapInv.addToTop {instanceHeap : List InstanceAssignment} {L : List (List α)} {i : Nat}
    (hinv : HeapInv weight instanceHeap L) (hi : i < L.length) (r : α) :
    HeapInv weight (Scheduler.addToTop instanceHeap i (weight r)) (L.modify i (· ++ [r])) := by
  unfold HeapInv at *
  rw [hinv, Scheduler.addToTop, List.map_map, List.length_modify]
  refine List.map_congr_left fun j hj => ?_
  have hj := List.mem_range.1 hj
  simp only [Function.comp_apply, loadOf_modify]
  by_cases hij : j = i
  · subst hij
    simp [hj]
  · simp [hij, Ne.symm hij]

theorem HeapInv.heapTop {instanceHeap : List InstanceAssignment} {L : List (List α)}
    (hinv : HeapInv weight instanceHeap L) (hL : L ≠ []) :
    ∃ i < L.length, Scheduler.heapTop instanceHeap = some ⟨loadOf weight L i, i⟩ ∧
      ∀ j < L.length, loadOf weight L i < loadOf weight L j ∨
        (loadOf weight L i = loadOf weight L j ∧ i ≤ j) := by
  cases htop : Scheduler.heapTop instanceHeap with
  | none =>
    have hlen := List.length_pos_of_ne_nil hL
    rw [hinv] at htop
    obtain ⟨n, hn⟩ : ∃ n, L.length = n + 1 := ⟨L.length - 1, by omega⟩
    rw [hn, List.range_succ_eq_map, List.map_cons] at htop
    cases htop
  | some top =>
    obtain ⟨hmem, hbefore⟩ := heapTop_spec htop
    rw [hinv, List.mem_map] at hmem
    obtain ⟨i, hi, rfl⟩ := hmem
    refine ⟨i, List.mem_range.1 hi, rfl, fun j hj => ?_⟩
    have := hbefore ⟨loadOf weight L j, j⟩ (by rw [hinv]; exact List.mem_map_of_mem (List.mem_range.2 hj))
    exact this

end Loads

/-! ## Runs of the loops -/

section Runs

variable {α : Type*} {weight : α → Int}

theorem flatten_modify_append {L : List (List α)} {i : Nat} (hi : i < L.length) (r : α) :
    (L.modify i (· ++ [r])).flatten.Perm (L.flatten ++ [r]) := by
  have hL : L = L.take i ++ L[i] :: L.drop (i + 1) := by
    conv_lhs => rw [← List.take_append_drop i L, List.drop_eq_getElem_cons hi]
  rw [List.modify_eq_take_cons_drop hi]
  conv_rhs => rw [hL]
  simp only [List.flatten_append, List.flatten_cons, List.append_assoc]
  exact List.Perm.append_left _ (List.Perm.append_left _ List.perm_append_comm)

theorem countP_modify_append {L : List (List α)} {i : Nat} (hi : i < L.length) (r : α) :
    (L.modify i (· ++ [r])).countP (·.isEmpty) + (if L[i].isEmpty then 1 else 0) =
      L.countP (·.isEmpty) := by
  have hL : L = L.take i ++ L[i] :: L.drop (i + 1) := by
    conv_lhs => rw [← List.take_append_drop i L, List.drop_eq_getElem_cons hi]
  rw [List.modify_eq_take_cons_drop hi]
  conv_rhs => rw [hL]
  have hne : (L[i] ++ [r]).isEmpty = false := by simp
  simp only [List.countP_append, List.countP_cons, hne, Bool.false_eq_true, if_false]
  omega

theorem heapInv_init (k : Nat) :
    HeapInv weight ((List.range k).map fun i => ⟨0, i⟩) (List.replicate k []) := by
  unfold HeapInv
  rw [List.length_replicate]
  refine List.map_congr_left fun i _ => ?_
  by_cases h : i < k <;> simp [loadOf, List.getD_eq_getElem?_getD, h]

theorem lptLoop_spec (rs : List α) {instanceHeap : List InstanceAssignment} {L : List (List α)}
    (hinv : HeapInv weight instanceHeap L) (hL : L ≠ []) :
    ∃ L', lptLoop weight rs instanceHeap L = some L' ∧ L'.length = L.length ∧
      L'.flatten.Perm (L.flatten ++ rs) := by
  induction rs generalizing instanceHeap L with
  | nil => exact ⟨L, rfl, rfl, by simp⟩
  | cons r rs ih =>
    obtain ⟨i, hi, htop, -⟩ := hinv.heapTop hL
    obtain ⟨L', hrun, hlen, hperm⟩ := ih (hinv.addToTop hi r) (by simpa using hL)
    refine ⟨L', by simp only [lptLoop, htop]; exact hrun, by rw [hlen, List.length_modify], ?_⟩
    refine hperm.trans ?_
    rw [show L.flatten ++ r :: rs = (L.flatten ++ [r]) ++ rs by simp]
    exact (flatten_modify_append hi r).append_right rs

theorem lptLoop_zero_weight (rs : List α) (hw : ∀ r ∈ rs, weight r = 0)
    {instanceHeap : List InstanceAssignment} {l : List α} {L₀ : List (List α)}
    (hinv : HeapInv weight instanceHeap (l :: L₀)) (hzero : ∀ j, loadOf weight (l :: L₀) j = 0) :
    lptLoop weight rs instanceHeap (l :: L₀) = some ((l ++ rs) :: L₀) := by
  induction rs generalizing instanceHeap l with
  | nil => simp [lptLoop]
  | cons r rs ih =>
    obtain ⟨i, hi, htop, hleast⟩ := hinv.heapTop (List.cons_ne_nil _ _)
    have hi0 : i = 0 := by
      have := hleast 0 (by simp)
      rw [hzero, hzero] at this
      omega
    subst hi0
    have hinv' := hinv.addToTop hi r
    rw [List.modify_zero_cons] at hinv'
    have hzero' : ∀ j, loadOf weight ((l ++ [r]) :: L₀) j = 0 := by
      intro j
      have h := @loadOf_modify _ weight (l :: L₀) 0 j r
      rw [List.modify_zero_cons, hzero, hw r List.mem_cons_self] at h
      simpa using h
    simp only [lptLoop, htop, List.modify_zero_cons]
    rw [ih (fun x hx => hw x (List.mem_cons_of_mem _ hx)) hinv' hzero', List.append_assoc,
      List.singleton_append]

theorem loadOf_pos {L : List (List α)} (hpos : ∀ l ∈ L, ∀ r ∈ l, 0 < weight r) {i : Nat}
    (hi : i < L.length) (hne : L[i] ≠ []) : 0 < loadOf weight L i := by
  unfold loadOf
  rw [List.getD_eq_getElem?_getD, List.getElem?_eq_getElem hi, Option.getD_some]
  obtain ⟨r, l, hrl⟩ := List.exists_cons_of_ne_nil hne
  have hmem := List.getElem_mem hi
  rw [hrl, List.map_cons, List.sum_cons]
  have hr := hpos _ hmem r (by rw [hrl]; exact List.mem_cons_self)
  have hl : 0 ≤ (l.map weight).sum := List.sum_nonneg fun x hx => by
    obtain ⟨y, hy, rfl⟩ := List.mem_map.1 hx
    exact Int.le_of_lt (hpos _ hmem y (by rw [hrl]; exact List.mem_cons_of_mem _ hy))
  omega

theorem lptLoop_nonempty (rs : List α) (hw : ∀ r ∈ rs, 0 < weight r)
    {instanceHeap : List InstanceAssignment} {L : List (List α)}
    (hinv : HeapInv weight instanceHeap L) (hL : L ≠ []) (hpos : ∀ l ∈ L, ∀ r ∈ l, 0 < weight r)
    (hcount : L.countP (·.isEmpty) ≤ rs.length) :
    ∃ L', lptLoop weight rs instanceHeap L = some L' ∧ ∀ l ∈ L', l ≠ [] := by
  induction rs generalizing instanceHeap L with
  | nil =>
    refine ⟨L, rfl, fun l hl hnil => ?_⟩
    have := List.countP_eq_zero.1 (Nat.le_zero.1 hcount) l hl
    simp [hnil] at this
  | cons r rs ih =>
    obtain ⟨i, hi, htop, hleast⟩ := hinv.heapTop hL
    have hmod := countP_modify_append hi r
    have hempty : L.countP (·.isEmpty) = 0 ∨ L[i] = [] := by
      by_cases hcnt : L.countP (·.isEmpty) = 0
      · exact Or.inl hcnt
      right
      obtain ⟨l, hl, hle⟩ := List.countP_pos_iff.1 (Nat.pos_of_ne_zero hcnt)
      obtain ⟨j, hj, rfl⟩ := List.getElem_of_mem hl
      have hj0 : loadOf weight L j = 0 := by
        simp [loadOf, List.getD_eq_getElem?_getD, List.getElem?_eq_getElem hj,
          List.isEmpty_iff.1 hle]
      by_contra hne
      have := loadOf_pos hpos hi hne
      have := hleast j hj
      omega
    have hcount' : (L.modify i (· ++ [r])).countP (·.isEmpty) ≤ rs.length := by
      simp only [List.length_cons] at hcount
      rcases hempty with h | h
      · split_ifs at hmod <;> omega
      · rw [h] at hmod
        simp only [List.isEmpty_nil, if_true] at hmod
        omega
    have hpos' : ∀ l ∈ L.modify i (· ++ [r]), ∀ x ∈ l, 0 < weight x := by
      intro l hl x hx
      rw [List.modify_eq_take_cons_drop hi] at hl
      simp only [List.mem_append, List.mem_cons] at hl
      rcases hl with hl | rfl | hl
      · exact hpos l (List.mem_of_mem_take hl) x hx
      · rcases List.mem_append.1 hx with hx | hx
        · exact hpos _ (List.getElem_mem hi) x hx
        · rw [List.mem_singleton.1 hx]
          exact hw r List.mem_cons_self
      · exact hpos l (List.mem_of_mem_drop hl) x hx
    obtain ⟨L', hrun, hne⟩ := ih (fun x hx => hw x (List.mem_cons_of_mem _ hx))
      (hinv.addToTop hi r) (by simpa using hL) hpos' hcount'
    exact ⟨L', by simp only [lptLoop, htop]; exact hrun, hne⟩

theorem lptLoop_balanced (rs : List α) (wmax : Int) (hw : ∀ r ∈ rs, 0 ≤ weight r ∧ weight r ≤ wmax)
    {instanceHeap : List InstanceAssignment} {L : List (List α)}
    (hinv : HeapInv weight instanceHeap L) (hL : L ≠ [])
    (hbal : ∀ i < L.length, ∀ j < L.length, loadOf weight L i ≤ loadOf weight L j + wmax) :
    ∃ L', lptLoop weight rs instanceHeap L = some L' ∧
      ∀ i < L'.length, ∀ j < L'.length, loadOf weight L' i ≤ loadOf weight L' j + wmax := by
  induction rs generalizing instanceHeap L with
  | nil => exact ⟨L, rfl, hbal⟩
  | cons r rs ih =>
    obtain ⟨top, htopLen, htop, hleast⟩ := hinv.heapTop hL
    obtain ⟨hw0, hwmax⟩ := hw r List.mem_cons_self
    have hbal' : ∀ i < (L.modify top (· ++ [r])).length, ∀ j < (L.modify top (· ++ [r])).length,
        loadOf weight (L.modify top (· ++ [r])) i ≤
          loadOf weight (L.modify top (· ++ [r])) j + wmax := by
      intro i hi j hj
      rw [List.length_modify] at hi hj
      have hij := hbal i hi j hj
      have htopj : loadOf weight L top ≤ loadOf weight L j := by
        rcases hleast j hj with h | h
        · exact Int.le_of_lt h
        · exact Int.le_of_eq h.1
      rw [loadOf_modify, loadOf_modify]
      by_cases hti : top = i <;> by_cases htj : top = j
      · simp only [hti, hi, and_self, if_true]
        omega
      · simp only [hti, hi, and_self, if_true]
        subst hti
        omega
      · simp only [htj, hj, and_self, if_true]
        omega
      · simp only [hti, htj, false_and, if_false]
        omega
    obtain ⟨L', hrun, hbalL'⟩ := ih (fun x hx => hw x (List.mem_cons_of_mem _ hx))
      (hinv.addToTop htopLen r) (by simpa using hL) hbal'
    exact ⟨L', by simp only [lptLoop, htop]; exact hrun, hbalL'⟩

theorem roundRobinLoop_perm (k : Nat) (rs : List α) {idx : Nat} {L : List (List α)}
    (hk : L.length = k) (hidx : idx < k) :
    (roundRobinLoop k idx rs L).length = k ∧ (roundRobinLoop k idx rs L).flatten.Perm (L.flatten ++ rs) := by
  induction rs generalizing idx L with
  | nil => exact ⟨hk, by simp [roundRobinLoop]⟩
  | cons r rs ih =>
    obtain ⟨hlen, hperm⟩ := @ih (if idx + 1 = k then 0 else idx + 1)
      (L.modify idx (· ++ [r])) (by rw [List.length_modify, hk]) (by split_ifs <;> omega)
    refine ⟨hlen, hperm.trans ?_⟩
    rw [show L.flatten ++ r :: rs = (L.flatten ++ [r]) ++ rs by simp]
    exact (flatten_modify_append (by omega) r).append_right rs

def dealt (k : Nat) (ranges : List α) (i : Nat) : List α :=
  (ranges.zipIdx.filter fun p => p.2 % k = i).map Prod.fst

theorem dealt_append_singleton (k : Nat) (pre : List α) (r : α) (i : Nat) :
    dealt k (pre ++ [r]) i = dealt k pre i ++ if pre.length % k = i then [r] else [] := by
  unfold dealt
  rw [List.zipIdx_append, List.filter_append, List.map_append]
  split_ifs with h <;> simp [h]

theorem roundRobinLoop_dealt {k : Nat} (hk : 0 < k) (pre rs : List α) :
    roundRobinLoop k (pre.length % k) rs ((List.range k).map (dealt k pre)) =
      (List.range k).map (dealt k (pre ++ rs)) := by
  induction rs generalizing pre with
  | nil => rw [List.append_nil]; rfl
  | cons r rs ih =>
    have hlt := Nat.mod_lt pre.length hk
    have hnext : (if pre.length % k + 1 = k then 0 else pre.length % k + 1) =
        (pre ++ [r]).length % k := by
      rw [List.length_append, List.length_singleton, ← Nat.mod_add_mod pre.length k 1]
      split_ifs with h
      · rw [h, Nat.mod_self]
      · rw [Nat.mod_eq_of_lt (a := pre.length % k + 1) (by omega)]
    have hdeal : ((List.range k).map (dealt k pre)).modify (pre.length % k) (· ++ [r]) =
        (List.range k).map (dealt k (pre ++ [r])) := by
      refine List.ext_getElem (by simp) fun j h₁ h₂ => ?_
      simp only [List.length_modify, List.length_map, List.length_range] at h₁
      simp only [List.getElem_modify, List.getElem_map, List.getElem_range,
        dealt_append_singleton]
      split_ifs <;> simp_all
    rw [roundRobinLoop, hdeal, hnext, ih, List.append_assoc, List.singleton_append]

end Runs

/-! ## `AssignRangesToInstances` -/

theorem mem_sortRanges {r : ScanRange} {ranges : List ScanRange} :
    r ∈ sortRanges ranges ↔ r ∈ ranges :=
  (List.mergeSort_perm _ _).mem_iff

theorem loadOf_replicate_nil {α : Type*} (weight : α → Int) (k j : Nat) :
    loadOf weight (List.replicate k []) j = 0 := by
  by_cases h : j < k <;> simp [loadOf, List.getD_eq_getElem?_getD, h]

theorem assignRangesToInstances_empty_or_zero_weight (m : Nat) (useLpt : Bool)
    (ranges : List ScanRange) (hm : 2 ≤ m) (hn : 2 ≤ ranges.length)
    (hw : ∀ r ∈ ranges, scanRangeWeight r = 0) :
    assignRangesToInstances m [] useLpt = none ∧
      assignRangesToInstances m ranges true =
        some (sortRanges ranges :: List.replicate (min m ranges.length - 1) []) := by
  refine ⟨by simp [assignRangesToInstances], ?_⟩
  obtain ⟨k, hk⟩ : ∃ k, min m ranges.length = k + 1 := ⟨min m ranges.length - 1, by omega⟩
  have hinv := @heapInv_init _ scanRangeWeight (k + 1)
  have hzero := loadOf_replicate_nil scanRangeWeight (k + 1)
  rw [List.replicate_succ] at hinv hzero
  unfold assignRangesToInstances
  dsimp only
  rw [if_neg (by omega), if_pos rfl, hk, List.replicate_succ,
    lptLoop_zero_weight _ (fun r hr => hw r (mem_sortRanges.1 hr)) hinv hzero, List.nil_append,
    Nat.add_sub_cancel]

theorem assignRangesToInstances_empty_or_zero_weight_two :
    assignRangesToInstances 2 [] true = none ∧
      assignRangesToInstances 2
          [.hdfsFileSplit ⟨[], 0, 0, 0, 0, 0⟩, .hdfsFileSplit ⟨[], 1, 0, 0, 0, 0⟩] true =
        some (sortRanges [.hdfsFileSplit ⟨[], 0, 0, 0, 0, 0⟩, .hdfsFileSplit ⟨[], 1, 0, 0, 0, 0⟩] ::
          List.replicate 1 []) :=
  assignRangesToInstances_empty_or_zero_weight 2 true _ (by decide) (by decide) (by decide)

theorem assignRangesToInstances_of_lt_two {m : Nat} {ranges : List ScanRange} (useLpt : Bool)
    (hm : 1 ≤ m) (hn : ranges ≠ []) (h1 : min m ranges.length < 2) :
    min m ranges.length = 1 ∧ assignRangesToInstances m ranges useLpt = some [ranges] := by
  have hlen := List.length_pos_of_ne_nil hn
  have hk : min m ranges.length = 1 := by omega
  refine ⟨hk, ?_⟩
  unfold assignRangesToInstances
  dsimp only
  rw [if_pos h1, if_neg (by omega), hk]
  rfl

theorem replicate_nil_ne_nil {k : Nat} (hk : 2 ≤ k) :
    List.replicate k ([] : List ScanRange) ≠ [] := by
  rw [Ne, List.replicate_eq_nil_iff]
  omega

theorem assignRangesToInstances_partition (m : Nat) (ranges : List ScanRange) (useLpt : Bool)
    (hm : 1 ≤ m) (hn : ranges ≠ []) :
    ∃ lists, assignRangesToInstances m ranges useLpt = some lists ∧
      lists.length = min m ranges.length ∧ lists.flatten.Perm ranges := by
  by_cases h1 : min m ranges.length < 2
  · obtain ⟨hk, hone⟩ := assignRangesToInstances_of_lt_two useLpt hm hn h1
    exact ⟨_, hone, hk.symm, by simp⟩
  have hk : 2 ≤ min m ranges.length := by omega
  have hne := replicate_nil_ne_nil hk
  unfold assignRangesToInstances
  dsimp only
  rw [if_neg h1]
  cases useLpt with
  | true =>
    obtain ⟨L', hrun, hlen', hperm⟩ := lptLoop_spec (sortRanges ranges)
      (@heapInv_init _ scanRangeWeight (min m ranges.length)) hne
    refine ⟨L', by rw [if_pos rfl]; exact hrun, by rw [hlen', List.length_replicate], ?_⟩
    refine hperm.trans ?_
    rw [List.flatten_replicate_nil, List.nil_append]
    exact List.mergeSort_perm ranges _
  | false =>
    obtain ⟨hl, hp⟩ := roundRobinLoop_perm (min m ranges.length) ranges
      (L := List.replicate (min m ranges.length) []) List.length_replicate
      (show 0 < min m ranges.length by omega)
    refine ⟨_, by rw [if_neg Bool.false_ne_true], hl, hp.trans ?_⟩
    rw [List.flatten_replicate_nil, List.nil_append]

theorem assignRangesToInstances_lpt_nonempty (m : Nat) (ranges : List ScanRange) (hm : 1 ≤ m)
    (hn : ranges ≠ []) (hw : ∀ r ∈ ranges, 0 < scanRangeWeight r) :
    ∃ lists, assignRangesToInstances m ranges true = some lists ∧ ∀ l ∈ lists, l ≠ [] := by
  by_cases h1 : min m ranges.length < 2
  · exact ⟨_, (assignRangesToInstances_of_lt_two true hm hn h1).2, by simpa using hn⟩
  have hne := replicate_nil_ne_nil (show 2 ≤ min m ranges.length by omega)
  unfold assignRangesToInstances
  dsimp only
  rw [if_neg h1, if_pos rfl]
  refine lptLoop_nonempty _ (fun r hr => hw r (mem_sortRanges.1 hr)) (heapInv_init _) hne
    (fun l hl r hr => by rw [List.eq_of_mem_replicate hl] at hr; cases hr) ?_
  rw [List.countP_replicate, sortRanges, List.length_mergeSort]
  simp only [List.isEmpty_nil, if_true]
  omega

theorem assignRangesToInstances_roundRobin (m : Nat) (ranges : List ScanRange)
    (hk : 2 ≤ min m ranges.length) :
    assignRangesToInstances m ranges false =
      some ((List.range (min m ranges.length)).map (dealt (min m ranges.length) ranges)) := by
  have hinit : List.replicate (min m ranges.length) ([] : List ScanRange) =
      (List.range (min m ranges.length)).map (dealt (min m ranges.length) []) := by
    refine List.ext_getElem (by simp) fun i _ _ => ?_
    simp [dealt]
  unfold assignRangesToInstances
  dsimp only
  rw [if_neg (by omega), if_neg (by simp), hinit,
    show 0 = ([] : List ScanRange).length % min m ranges.length by simp,
    roundRobinLoop_dealt (by omega), List.nil_append]

theorem assignRangesToInstances_lpt_balanced (m : Nat) (ranges : List ScanRange) (wmax : Int)
    (hm : 1 ≤ m) (hn : ranges ≠ [])
    (hw : ∀ r ∈ ranges, 0 ≤ scanRangeWeight r ∧ scanRangeWeight r ≤ wmax) :
    ∃ lists, assignRangesToInstances m ranges true = some lists ∧
      ∀ l₁ ∈ lists, ∀ l₂ ∈ lists,
        (l₁.map scanRangeWeight).sum ≤ (l₂.map scanRangeWeight).sum + wmax := by
  obtain ⟨r₀, hr₀⟩ := List.exists_mem_of_ne_nil ranges hn
  have hwmax : 0 ≤ wmax := Int.le_trans (hw r₀ hr₀).1 (hw r₀ hr₀).2
  by_cases h1 : min m ranges.length < 2
  · refine ⟨_, (assignRangesToInstances_of_lt_two true hm hn h1).2, fun l₁ h₁ l₂ h₂ => ?_⟩
    rw [List.mem_singleton] at h₁ h₂
    subst h₁ h₂
    omega
  have hne := replicate_nil_ne_nil (show 2 ≤ min m ranges.length by omega)
  unfold assignRangesToInstances
  dsimp only
  rw [if_neg h1, if_pos rfl]
  obtain ⟨L', hrun, hbal⟩ := lptLoop_balanced _ wmax (fun r hr => hw r (mem_sortRanges.1 hr))
    (heapInv_init _) hne fun i _ j _ => by
      rw [loadOf_replicate_nil, loadOf_replicate_nil]
      omega
  refine ⟨L', hrun, fun l₁ h₁ l₂ h₂ => ?_⟩
  obtain ⟨i, hi, rfl⟩ := List.getElem_of_mem h₁
  obtain ⟨j, hj, rfl⟩ := List.getElem_of_mem h₂
  have := hbal i hi j hj
  simpa [loadOf, List.getD_eq_getElem?_getD, List.getElem?_eq_getElem hi,
    List.getElem?_eq_getElem hj] using this

/-- `AssignRangesToInstances` with at least one instance and one range splits the ranges over
`min(max_num_instances, #ranges)` lists that hold each of them once. Round-robin deals them out
in turn. With LPT, ranges of positive weight leave no list empty, and ranges of weights in
`[0, wmax]` leave no two lists more than `wmax` apart in total weight. -/
theorem assignRangesToInstances_spec (m : Nat) (ranges : List ScanRange) (hm : 1 ≤ m)
    (hn : ranges ≠ []) :
    (∀ useLpt, ∃ lists, assignRangesToInstances m ranges useLpt = some lists ∧
      lists.length = min m ranges.length ∧ lists.flatten.Perm ranges) ∧
    (2 ≤ min m ranges.length → assignRangesToInstances m ranges false =
      some ((List.range (min m ranges.length)).map (dealt (min m ranges.length) ranges))) ∧
    ((∀ r ∈ ranges, 0 < scanRangeWeight r) →
      ∃ lists, assignRangesToInstances m ranges true = some lists ∧ ∀ l ∈ lists, l ≠ []) ∧
    ∀ wmax, (∀ r ∈ ranges, 0 ≤ scanRangeWeight r ∧ scanRangeWeight r ≤ wmax) →
      ∃ lists, assignRangesToInstances m ranges true = some lists ∧
        ∀ l₁ ∈ lists, ∀ l₂ ∈ lists,
          (l₁.map scanRangeWeight).sum ≤ (l₂.map scanRangeWeight).sum + wmax :=
  ⟨fun useLpt => assignRangesToInstances_partition m ranges useLpt hm hn,
    assignRangesToInstances_roundRobin m ranges,
    assignRangesToInstances_lpt_nonempty m ranges hm hn,
    fun wmax => assignRangesToInstances_lpt_balanced m ranges wmax hm hn⟩

theorem assignRangesToInstances_spec_three :
    ∃ lists, assignRangesToInstances 2
        [.hdfsFileSplit ⟨[], 0, 3, 3, 0, 0⟩, .hdfsFileSplit ⟨[], 0, 2, 2, 0, 0⟩,
          .hdfsFileSplit ⟨[], 0, 1, 1, 0, 0⟩] true = some lists ∧
      ∀ l₁ ∈ lists, ∀ l₂ ∈ lists,
        (l₁.map scanRangeWeight).sum ≤ (l₂.map scanRangeWeight).sum + 3 :=
  (assignRangesToInstances_spec 2 _ (by decide) (by simp)).2.2.2 3 (by decide)

end Impala.Scheduler
