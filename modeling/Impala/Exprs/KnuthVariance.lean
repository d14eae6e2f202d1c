import Impala.Lib.SampleStatistics
import Impala.Lib.MachineInt
import Mathlib.Analysis.Real.Sqrt

/-!
`VARIANCE`, `VAR_SAMP`, `VAR_POP`, `STDDEV` and `STDDEV_POP` (exprs/aggregate-functions-ir.cc,
the `KnuthVar*` functions).

The intermediate `KnuthVarianceState` holds the mean, the sum of squared deviations `m2` and the
count. `KnuthVarUpdate` is Welford's recurrence and `KnuthVarMerge` the pairwise combination of
two partial states. The `double` operations are read in a field `α`, the real numbers for the
exact reading; the count is an `int64_t`, and the merge takes the sum and the product of the two
counts in `int64_t` arithmetic before converting them to `double`, as the source writes them.

Any tree of merges over partial aggregates ends in the state of all the inputs together
(`MergeTree.eval_eq`) as long as every merge's product of counts stays below `2^63`; the
finalizers then return the sample and population statistics. Two partial aggregates of `2^32`
values each already take that product to `2^64`, which wraps to `0`, and the merge drops the
spread between their means (`mergeTree_product_wraps`).
-/

set_option autoImplicit false

namespace Impala.AggregateFunctions

open SampleStatistics MachineInt

/-- `KnuthVarianceState`: the `double` fields read in `α`, and the `int64_t` count. -/
structure KnuthVarianceState (α : Type) where
  mean : α
  m2 : α
  count : Int

variable {α : Type} [Field α]

def knuthVarInit : KnuthVarianceState α := ⟨0, 0, 0⟩

/-- `KnuthVarUpdate`: a NULL input leaves the state alone. `temp` is the new count as a
`double`; storing it back into the `int64_t` adds one. -/
def knuthVarUpdate (src : Option α) (dst : KnuthVarianceState α) : KnuthVarianceState α :=
  match src with
  | none => dst
  | some val =>
    let temp : α := 1 + dst.count
    let delta := val - dst.mean
    let r := delta / temp
    { mean := dst.mean + r
      m2 := dst.m2 + dst.count * delta * r
      count := dst.count + 1 }

def knuthVarMerge (src dst : KnuthVarianceState α) : KnuthVarianceState α :=
  if src.count = 0 then dst
  else
    let delta := dst.mean - src.mean
    let sumCount : Int := toSigned 64 (dst.count + src.count)
    { mean := src.mean + delta * (dst.count / (sumCount : α))
      m2 := src.m2 + dst.m2 + delta * delta * ((toSigned 64 (src.count * dst.count) : α) / sumCount)
      count := sumCount }

def computeKnuthVariance (state : KnuthVarianceState α) (pop : Bool) : α :=
  if state.count = 1 then 0
  else if pop then state.m2 / state.count
  else state.m2 / ((state.count - 1 : Int) : α)

/-- The four finalizers: NULL with no value, and with one in the sample versions; otherwise
`post` of `ComputeKnuthVariance(state, pop)`. -/
def knuthFinalize (pop : Bool) (post : α → α) (state : KnuthVarianceState α) : Option α :=
  if state.count = 0 ∨ (pop = false ∧ state.count = 1) then none
  else some (post (computeKnuthVariance state pop))

def knuthVarFinalize (state : KnuthVarianceState α) : Option α := knuthFinalize false id state

def knuthVarPopFinalize (state : KnuthVarianceState α) : Option α := knuthFinalize true id state

/-- `KnuthStddevFinalize`, for `STDDEV`; `sqrt` is the square root the `double`s are read
with. -/
def knuthStddevFinalize (sqrt : α → α) (state : KnuthVarianceState α) : Option α :=
  knuthFinalize false sqrt state

def knuthStddevPopFinalize (sqrt : α → α) (state : KnuthVarianceState α) : Option α :=
  knuthFinalize true sqrt state

/-- Partial aggregates combined by merges in some tree shape: a partial aggregate is
`KnuthVarInit` followed by `KnuthVarUpdate` of its inputs in order, and `merge dst src` is
`KnuthVarMerge(src, dst)`. -/
inductive MergeTree (α : Type) where
  | leaf (inputs : List (Option α))
  | merge (dst src : MergeTree α)

namespace MergeTree

def eval : MergeTree α → KnuthVarianceState α
  | .leaf xs => xs.foldl (fun s x => knuthVarUpdate x s) knuthVarInit
  | .merge dst src => knuthVarMerge src.eval dst.eval

def inputs : MergeTree α → List α
  | .leaf xs => xs.filterMap id
  | .merge dst src => dst.inputs ++ src.inputs

def ProductsFit : MergeTree α → Prop
  | .leaf _ => True
  | .merge dst src =>
    src.inputs.length * dst.inputs.length < 2 ^ 63 ∧ dst.ProductsFit ∧ src.ProductsFit

end MergeTree

/-! ## The state of a list of values -/

def stateOf (xs : List α) : KnuthVarianceState α := ⟨mean xs, sumSqDev xs, xs.length⟩

theorem knuthVarInit_eq : (knuthVarInit : KnuthVarianceState α) = stateOf [] := by
  simp [knuthVarInit, stateOf]

theorem toSigned_64_of_lt {x : Nat} (h : x < 2 ^ 63) : toSigned 64 (x : Int) = x :=
  toSigned_of_bounds (by omega) (by exact_mod_cast h)

variable [CharZero α]

theorem knuthVarUpdate_stateOf (xs : List α) (x : α) :
    knuthVarUpdate (some x) (stateOf xs) = stateOf (xs ++ [x]) := by
  simp only [knuthVarUpdate, stateOf, Int.cast_natCast, KnuthVarianceState.mk.injEq]
  refine ⟨?_, ?_, by simp⟩
  · rw [mean_concat, add_comm 1]
  · rw [sumSqDev_concat, add_comm 1]

theorem foldl_knuthVarUpdate (xs : List α) (inputs : List (Option α)) :
    inputs.foldl (fun s x => knuthVarUpdate x s) (stateOf xs) =
      stateOf (xs ++ inputs.filterMap id) := by
  induction inputs generalizing xs with
  | nil => simp
  | cons x inputs ih =>
    cases x with
    | none => simpa [knuthVarUpdate] using ih xs
    | some x =>
      rw [List.foldl_cons, knuthVarUpdate_stateOf, ih]
      simp

theorem knuthVarMerge_stateOf {xs ys : List α} (hprod : ys.length * xs.length < 2 ^ 63)
    (hsum : xs.length + ys.length < 2 ^ 63) :
    knuthVarMerge (stateOf ys) (stateOf xs) = stateOf (xs ++ ys) := by
  by_cases hys : ys = []
  · subst hys
    simp [knuthVarMerge, stateOf]
  have hcount : (ys.length : Int) ≠ 0 := by simpa using hys
  have hs : toSigned 64 ((xs.length : Int) + ys.length) = ((xs.length + ys.length : Nat) : Int) := by
    rw [← toSigned_64_of_lt hsum]
    push_cast
    rfl
  have hp : toSigned 64 ((ys.length : Int) * xs.length) = ((ys.length * xs.length : Nat) : Int) := by
    rw [← toSigned_64_of_lt hprod]
    push_cast
    rfl
  simp only [knuthVarMerge, stateOf, if_neg hcount, hs, hp, KnuthVarianceState.mk.injEq]
  refine ⟨?_, ?_, by simp⟩
  · rw [mean_append]
    push_cast
    ring
  · rw [sumSqDev_append]
    push_cast
    ring

namespace MergeTree

omit [Field α] [CharZero α] in
theorem length_inputs_merge (dst src : MergeTree α) :
    (merge dst src).inputs.length = dst.inputs.length + src.inputs.length := by
  simp [inputs]

theorem eval_eq (t : MergeTree α) (hn : t.inputs.length < 2 ^ 63) (hfit : t.ProductsFit) :
    t.eval = stateOf t.inputs := by
  induction t with
  | leaf xs =>
    rw [eval, knuthVarInit_eq, foldl_knuthVarUpdate, List.nil_append, inputs]
  | merge dst src ihd ihs =>
    obtain ⟨hprod, hfd, hfs⟩ := hfit
    rw [length_inputs_merge] at hn
    rw [eval, ihd (by omega) hfd, ihs (by omega) hfs, inputs]
    exact knuthVarMerge_stateOf hprod hn

theorem eval_perm {t t' : MergeTree α} (hn : t.inputs.length < 2 ^ 63) (hfit : t.ProductsFit)
    (hn' : t'.inputs.length < 2 ^ 63) (hfit' : t'.ProductsFit) (hperm : t'.inputs.Perm t.inputs) :
    t'.eval = t.eval := by
  rw [eval_eq t hn hfit, eval_eq t' hn' hfit', stateOf, stateOf, mean_perm hperm,
    sumSqDev_perm hperm, hperm.length_eq]

end MergeTree

omit [CharZero α] in
theorem knuthFinalize_stateOf (pop : Bool) (post : α → α) (xs : List α) :
    knuthFinalize pop post (stateOf xs) =
      if xs.length = 0 ∨ (pop = false ∧ xs.length = 1) then none
      else some (post (if pop then popVariance xs else sampleVariance xs)) := by
  simp only [knuthFinalize, stateOf, Nat.cast_eq_zero, Nat.cast_eq_one]
  split
  · rfl
  · next hnull =>
    congr 2
    unfold computeKnuthVariance
    split
    · next h1 =>
      have hlen : xs.length = 1 := by simpa using h1
      obtain ⟨x, hx⟩ := List.length_eq_one_iff.1 hlen
      subst hx
      cases pop <;> simp [popVariance, sampleVariance, sumSqDev_singleton]
    · cases pop <;> simp [popVariance, sampleVariance]

/-! ## Exactness in real arithmetic -/

/-- Read in exact real arithmetic, every tree of `KnuthVarMerge` calls over partial aggregates
built by `KnuthVarInit` and `KnuthVarUpdate` ends in the count, the mean and the squared
deviations of all the non-NULL inputs, provided the `int64_t` count arithmetic is exact; the
four finalizers return the sample and population variance and their square roots, NULL with no
value and, in the sample versions, with one; and the state does not depend on the split or the
merge order. -/
theorem knuth_variance_merge_exact (t : MergeTree ℝ) (hn : t.inputs.length < 2 ^ 63)
    (hfit : t.ProductsFit) :
    t.eval = ⟨mean t.inputs, sumSqDev t.inputs, t.inputs.length⟩ ∧
    knuthVarFinalize t.eval =
      (if t.inputs.length ≤ 1 then none else some (sampleVariance t.inputs)) ∧
    knuthVarPopFinalize t.eval =
      (if t.inputs.length = 0 then none else some (popVariance t.inputs)) ∧
    knuthStddevFinalize Real.sqrt t.eval =
      (if t.inputs.length ≤ 1 then none else some (Real.sqrt (sampleVariance t.inputs))) ∧
    knuthStddevPopFinalize Real.sqrt t.eval =
      (if t.inputs.length = 0 then none else some (Real.sqrt (popVariance t.inputs))) ∧
    ∀ t' : MergeTree ℝ, t'.inputs.length < 2 ^ 63 → t'.ProductsFit →
      t'.inputs.Perm t.inputs → t'.eval = t.eval := by
  have heval := MergeTree.eval_eq t hn hfit
  have hsample : (t.inputs.length = 0 ∨ (false = false ∧ t.inputs.length = 1)) ↔
      t.inputs.length ≤ 1 := by
    simp only [true_and]
    omega
  have hpop : (t.inputs.length = 0 ∨ (true = false ∧ t.inputs.length = 1)) ↔
      t.inputs.length = 0 := by
    simp
  refine ⟨heval, ?_, ?_, ?_, ?_, fun t' hn' hfit' hperm => MergeTree.eval_perm hn hfit hn' hfit' hperm⟩
  · rw [heval, knuthVarFinalize, knuthFinalize_stateOf, if_congr hsample rfl rfl]
    rfl
  · rw [heval, knuthVarPopFinalize, knuthFinalize_stateOf, if_congr hpop rfl rfl]
    rfl
  · rw [heval, knuthStddevFinalize, knuthFinalize_stateOf, if_congr hsample rfl rfl]
    rfl
  · rw [heval, knuthStddevPopFinalize, knuthFinalize_stateOf, if_congr hpop rfl rfl]
    rfl

theorem knuth_variance_merge_exact_two_partials :
    knuthVarFinalize (MergeTree.merge (.leaf [some (1 : ℝ), none]) (.leaf [some 3])).eval =
      some 2 := by
  have h := (knuth_variance_merge_exact (.merge (.leaf [some (1 : ℝ), none]) (.leaf [some 3]))
    (by simp [MergeTree.inputs]) (by simp [MergeTree.ProductsFit, MergeTree.inputs])).2.1
  have hin : (MergeTree.merge (.leaf [some (1 : ℝ), none]) (.leaf [some 3])).inputs = [1, 3] := rfl
  rw [h, hin]
  norm_num [sampleVariance, sumSqDev, mean]

/-! ## The count product -/

theorem mergeTree_product_wraps :
    (MergeTree.merge (.leaf (List.replicate (2 ^ 32) (some (0 : ℝ))))
        (.leaf (List.replicate (2 ^ 32) (some 1)))).eval.m2 = 0 ∧
    sumSqDev (MergeTree.merge (.leaf (List.replicate (2 ^ 32) (some (0 : ℝ))))
        (.leaf (List.replicate (2 ^ 32) (some 1)))).inputs = 2 ^ 31 := by
  have hinputs : ∀ c : ℝ, (MergeTree.leaf (List.replicate (2 ^ 32) (some c))).inputs =
      List.replicate (2 ^ 32) c := fun c => by
    rw [MergeTree.inputs, List.filterMap_replicate_of_some (f := id) rfl]
  have hleaf : ∀ c : ℝ, (MergeTree.leaf (List.replicate (2 ^ 32) (some c))).eval =
      ⟨c, 0, 2 ^ 32⟩ := by
    intro c
    have hlen : (MergeTree.leaf (List.replicate (2 ^ 32) (some c))).inputs.length < 2 ^ 63 := by
      rw [hinputs, List.length_replicate]
      norm_num
    rw [MergeTree.eval_eq _ hlen trivial, hinputs, stateOf, mean_replicate (by norm_num),
      sumSqDev_replicate, List.length_replicate, Nat.cast_pow, Nat.cast_ofNat]
  have hsum : toSigned 64 ((2 ^ 32 : Int) + 2 ^ 32) = 2 ^ 33 := by
    rw [show (64 : Nat) = 63 + 1 from rfl, toSigned_of_bounds (by norm_num) (by norm_num)]
    norm_num
  have hprod : toSigned 64 ((2 ^ 32 : Int) * 2 ^ 32) = 0 := by
    rw [show ((2 ^ 32 : Int) * 2 ^ 32) = 0 + 2 ^ 64 by norm_num, toSigned_add_two_pow]
    rfl
  refine ⟨?_, ?_⟩
  · rw [MergeTree.eval.eq_2, hleaf, hleaf, knuthVarMerge, if_neg (by norm_num)]
    simp only [hsum, hprod]
    norm_num
  · rw [MergeTree.inputs, hinputs, hinputs, sumSqDev_append, sumSqDev_replicate,
      sumSqDev_replicate, mean_replicate (by norm_num), mean_replicate (by norm_num),
      List.length_replicate]
    norm_num

end Impala.AggregateFunctions
