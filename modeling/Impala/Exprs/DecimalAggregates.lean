import Mathlib.Tactic.NormNum
import Mathlib.Tactic.Linarith
import Impala.Lib.MachineInt
import Impala.Lib.Run

/-!
Decimal `SUM` and `AVG` (exprs/aggregate-functions-ir.cc).

The accumulator is an `__int128_t` holding the unscaled sum. An input is added
through the field of the `DecimalVal` union that the branch reads: `val4` and
`val8` are the low 32 and 64 bits of the stored value, `val16` the value. With
`DECIMAL_V2`, narrow inputs are checked after the addition and 16-byte inputs
before it; `Merge` checks `abs(dst) > MAX - abs(src)`.

A partial aggregate is a run of `Add`/`Remove` calls of the `AggFnEvaluator`,
which count updates and removes before calling the function; partial results are
combined by `Merge` in any tree shape.
-/

set_option autoImplicit false

namespace Impala.AggregateFunctions

open MachineInt

def maxUnscaledDecimal16 : Int := 10^38 - 1

def int128 (x : Int) : Int := toSigned 128 x

def abs128 (x : Int) : Int := if x < 0 then int128 (-x) else x

def val4 (v : Int) : Int := toSigned 32 v

def val8 (v : Int) : Int := toSigned 64 v

/-- `ColumnType::GetDecimalByteSize`, the `ARG_TYPE_SIZE` of a decimal argument:
`val4` up to precision 9, `val8` up to 18, `val16` above. -/
def getDecimalByteSize (precision : Nat) : Nat :=
  if precision ≤ 9 then 4 else if precision ≤ 18 then 8 else 16

/-- The field `SumDecimalAddOrSubtract` reads: it switches on the precision at 9
and 19. -/
def sumDecimalFieldSize (precision : Nat) : Nat :=
  if precision ≤ 9 then 4 else if precision ≤ 19 then 8 else 16

/-- One `dst += m * src` on the accumulator through the field of byte size `size`,
and whether `DECIMAL_V2` reports an overflow: narrow fields are checked after the
addition; a 16-byte field before it, only when `dst` and `src` have the same sign. -/
def accumulate (size : Nat) (decimalV2 : Bool) (d v m : Int) : Int × Bool :=
  if size = 4 then
    let d' := int128 (d + toSigned 32 (m * val4 v))
    (d', decimalV2 && decide (abs128 d' > maxUnscaledDecimal16))
  else if size = 8 then
    let d' := int128 (d + toSigned 64 (m * val8 v))
    (d', decimalV2 && decide (abs128 d' > maxUnscaledDecimal16))
  else
    (int128 (d + int128 (m * v)),
      decimalV2 && (decide (d ≥ 0) == decide (v ≥ 0)) &&
        decide (abs128 d > maxUnscaledDecimal16 - abs128 v))

def mergeChecked (decimalV2 : Bool) (d s : Int) : Int × Bool :=
  (int128 (d + s), decimalV2 && decide (abs128 d > maxUnscaledDecimal16 - abs128 s))

/-- The constant attributes the functions read from their `FunctionContext`. -/
structure FnAttrs where
  /-- `ARG_TYPE_PRECISION`. -/
  precision : Nat
  /-- `DECIMAL_V2`. -/
  decimalV2 : Bool
  deriving DecidableEq, Repr

structure FunctionContext where
  error : Option String
  numUpdates : Int
  numRemoves : Int
  deriving DecidableEq, Repr

def FunctionContext.init : FunctionContext := ⟨none, 0, 0⟩

def FunctionContext.setError (ctx : FunctionContext) (msg : String) : FunctionContext :=
  if ctx.error.isSome then ctx else { ctx with error := some msg }

def FunctionContext.setErrorIf (ctx : FunctionContext) (b : Bool) (msg : String) :
    FunctionContext :=
  if b then ctx.setError msg else ctx

/-! ## `SUM` -/

def sumOverflowed : String := "Sum computation overflowed"

def sumDecimalAddOrSubtract (a : FnAttrs) (ctx : FunctionContext) (src dst : Option Int)
    (subtract : Bool) : FunctionContext × Option Int :=
  match src with
  | none => (ctx, dst)
  | some v =>
    let m : Int := if subtract then -1 else 1
    let r := accumulate (sumDecimalFieldSize a.precision) a.decimalV2 (dst.getD 0) v m
    (ctx.setErrorIf r.2 sumOverflowed, some r.1)

def sumDecimalUpdate (a : FnAttrs) (ctx : FunctionContext) (src dst : Option Int) :
    FunctionContext × Option Int :=
  sumDecimalAddOrSubtract a ctx src dst false

def sumDecimalRemove (a : FnAttrs) (ctx : FunctionContext) (src dst : Option Int) :
    FunctionContext × Option Int :=
  if ctx.numRemoves ≥ ctx.numUpdates then (ctx, none)
  else sumDecimalAddOrSubtract a ctx src dst true

def sumDecimalMerge (a : FnAttrs) (ctx : FunctionContext) (src dst : Option Int) :
    FunctionContext × Option Int :=
  match src with
  | none => (ctx, dst)
  | some s =>
    let r := mergeChecked a.decimalV2 (dst.getD 0) s
    (ctx.setErrorIf r.2 sumOverflowed, some r.1)

/-- A call of the `AggFnEvaluator` on one row: `Add` or `Remove` of a value,
`none` when NULL. -/
inductive Op where
  | add (src : Option Int)
  | remove (src : Option Int)
  deriving DecidableEq, Repr

def sumStep (a : FnAttrs) (st : FunctionContext × Option Int) : Op → FunctionContext × Option Int
  | .add src => sumDecimalUpdate a { st.1 with numUpdates := st.1.numUpdates + 1 } src st.2
  | .remove src => sumDecimalRemove a { st.1 with numRemoves := st.1.numRemoves + 1 } src st.2

/-- Partial aggregates, each a run of calls in its own context, merged in some
tree shape. -/
inductive Plan where
  | fragment (ops : List Op)
  | merge (dst src : Plan)
  deriving Repr

/-- Evaluate a plan: a fragment folds its calls from the initial state in a fresh
context; a merge runs the function's `Merge` in a context that holds the first
error either part set. The result is that error and the final state. -/
def Plan.run {τ : Type} (step : FunctionContext × τ → Op → FunctionContext × τ) (init : τ)
    (merge : FunctionContext → τ → τ → FunctionContext × τ) : Plan → Option String × τ
  | .fragment ops =>
    let r := ops.foldl step (FunctionContext.init, init)
    (r.1.error, r.2)
  | .merge d s =>
    let rd := run step init merge d
    let rs := run step init merge s
    let r := merge ⟨rd.1.or rs.1, 0, 0⟩ rs.2 rd.2
    (r.1.error, r.2)

def sumPlan (a : FnAttrs) : Plan → Option String × Option Int :=
  Plan.run (sumStep a) none (sumDecimalMerge a)

def Op.value : Op → Int
  | .add (some v) => v
  | .remove (some v) => -v
  | _ => 0

def Plan.exact : Plan → Int
  | .fragment ops => (ops.map Op.value).sum
  | .merge d s => d.exact + s.exact

def Op.Valid (p : Nat) : Op → Prop
  | .add (some v) | .remove (some v) => |v| ≤ 10^p - 1
  | _ => True

def Op.IsAdd : Op → Prop
  | .add _ => True
  | .remove _ => False

def Plan.All (P : Op → Prop) : Plan → Prop
  | .fragment ops => ∀ o ∈ ops, P o
  | .merge d s => d.All P ∧ s.All P

/-- Three plans on which `SUM` goes wrong: a DECIMAL(19,0) value read through `val8` comes
back wrapped, opposite partial sums fail the sign-blind `Merge` check although they add up
to `0`, and a removed negative value pushes the sum past `MAX_UNSCALED_DECIMAL16` without an
error. -/
theorem sumDecimal_failures :
    sumPlan ⟨19, true⟩ (.fragment [.add (some (10^19 - 1))]) =
      (none, some (-8446744073709551617)) ∧
    sumPlan ⟨38, true⟩ (.merge (.fragment [.add (some maxUnscaledDecimal16)])
        (.fragment [.add (some (-maxUnscaledDecimal16))])) =
      (some sumOverflowed, some 0) ∧
    sumPlan ⟨38, true⟩ (.fragment [.add (some (-1)), .add (some maxUnscaledDecimal16),
        .add (some 1), .remove (some (-1))]) =
      (none, some (maxUnscaledDecimal16 + 1)) := by
  refine ⟨by decide, by decide, by decide⟩

/-! ## `AVG` -/

/-- `DecimalAvgState`. -/
structure DecimalAvgState where
  sumVal16 : Int
  count : Int
  deriving DecidableEq, Repr

def avgOverflowed : String := "Avg computation overflowed"

def decimalAvgInit : DecimalAvgState := ⟨0, 0⟩

def decimalAvgAddOrRemove (a : FnAttrs) (ctx : FunctionContext) (src : Option Int)
    (dst : DecimalAvgState) (remove : Bool) : FunctionContext × DecimalAvgState :=
  match src with
  | none => (ctx, dst)
  | some v =>
    let m : Int := if remove then -1 else 1
    let r := accumulate (getDecimalByteSize a.precision) a.decimalV2 dst.sumVal16 v m
    (ctx.setErrorIf r.2 avgOverflowed, ⟨r.1, if remove then dst.count - 1 else dst.count + 1⟩)

def decimalAvgMerge (a : FnAttrs) (ctx : FunctionContext) (src dst : DecimalAvgState) :
    FunctionContext × DecimalAvgState :=
  let r := mergeChecked a.decimalV2 dst.sumVal16 src.sumVal16
  (ctx.setErrorIf r.2 avgOverflowed, ⟨r.1, dst.count + src.count⟩)

/-- `DecimalAvgGetValue`. `divide` stands for `Decimal16Value::Divide` of the sum by
the count at the output precision and scale: the quotient, `is_nan` and
`overflow`. A V1 overflow only adds a warning. -/
def decimalAvgGetValue (divide : Int → Int → Int × Bool × Bool) (a : FnAttrs)
    (ctx : FunctionContext) (st : DecimalAvgState) : FunctionContext × Option Int :=
  if st.count = 0 then (ctx, none)
  else
    let r := divide st.sumVal16 st.count
    if r.2.1 then (ctx, none)
    else if r.2.2 then (if a.decimalV2 then ctx.setError avgOverflowed else ctx, none)
    else (ctx, some r.1)

def avgStep (a : FnAttrs) (st : FunctionContext × DecimalAvgState) :
    Op → FunctionContext × DecimalAvgState
  | .add src => decimalAvgAddOrRemove a { st.1 with numUpdates := st.1.numUpdates + 1 } src st.2 false
  | .remove src =>
    decimalAvgAddOrRemove a { st.1 with numRemoves := st.1.numRemoves + 1 } src st.2 true

def avgPlan (a : FnAttrs) : Plan → Option String × DecimalAvgState :=
  Plan.run (avgStep a) decimalAvgInit (decimalAvgMerge a)

/-! ## What the checks do guarantee

On the branch that reads the right field, an addition is exact and is reported
exactly when it leaves the decimal range, and a `Merge` that reports nothing is
exact. So runs of `Add` and `Merge` alone keep the sum exact and in range. -/

theorem maxUnscaledDecimal16_lt : maxUnscaledDecimal16 < 2^127 := by
  unfold maxUnscaledDecimal16; norm_num

theorem int128_of_abs_lt {x : Int} (h : |x| < 2^127) : int128 x = x := by
  rw [abs_lt] at h
  exact toSigned_of_bounds (by omega) h.2

theorem abs128_of_abs_lt {x : Int} (h : |x| < 2^127) : abs128 x = |x| := by
  unfold abs128
  split_ifs with hx
  · rw [int128_of_abs_lt (by rwa [abs_neg])]
    exact (abs_of_neg hx).symm
  · exact (abs_of_nonneg (not_lt.1 hx)).symm

theorem abs128_of_le_max {x : Int} (h : |x| ≤ maxUnscaledDecimal16) : abs128 x = |x| :=
  abs128_of_abs_lt (lt_of_le_of_lt h maxUnscaledDecimal16_lt)

theorem abs_le_max_of_valid {p : Nat} {v : Int} (hp : p ≤ 38) (hv : |v| ≤ 10^p - 1) :
    |v| ≤ maxUnscaledDecimal16 := by
  have : (10:Int)^p ≤ 10^38 := pow_le_pow_right₀ (by norm_num) hp
  unfold maxUnscaledDecimal16; omega

theorem accumulate_four {d v : Int} (hv : |v| ≤ 10^9 - 1) (hd : |d| ≤ maxUnscaledDecimal16) :
    accumulate 4 true d v 1 = (d + v, decide (|d + v| > maxUnscaledDecimal16)) := by
  rw [abs_le] at hv
  have h4 : val4 v = v := toSigned_of_bounds (by norm_num at hv ⊢; omega) (by norm_num at hv ⊢; omega)
  have h32 : toSigned 32 v = v := h4
  have hsum : |d + v| < 2^127 := by
    unfold maxUnscaledDecimal16 at hd; rw [abs_le] at hd; rw [abs_lt]; constructor <;> omega
  simp only [accumulate, if_true, one_mul, h4, h32, int128_of_abs_lt hsum, abs128_of_abs_lt hsum,
    Bool.true_and]

theorem accumulate_eight {d v : Int} (hv : |v| ≤ 10^18 - 1) (hd : |d| ≤ maxUnscaledDecimal16) :
    accumulate 8 true d v 1 = (d + v, decide (|d + v| > maxUnscaledDecimal16)) := by
  rw [abs_le] at hv
  have h8 : val8 v = v := toSigned_of_bounds (by norm_num at hv ⊢; omega) (by norm_num at hv ⊢; omega)
  have h64 : toSigned 64 v = v := h8
  have hsum : |d + v| < 2^127 := by
    unfold maxUnscaledDecimal16 at hd; rw [abs_le] at hd; rw [abs_lt]; constructor <;> omega
  simp only [accumulate, show (8:Nat) ≠ 4 by decide, if_false, if_true, one_mul, h8, h64,
    int128_of_abs_lt hsum, abs128_of_abs_lt hsum, Bool.true_and]

theorem accumulate_sixteen {d v : Int} (hv : |v| ≤ maxUnscaledDecimal16)
    (hd : |d| ≤ maxUnscaledDecimal16) :
    (accumulate 16 true d v 1).2 = decide (|d + v| > maxUnscaledDecimal16) ∧
      (|d + v| ≤ maxUnscaledDecimal16 → (accumulate 16 true d v 1).1 = d + v) := by
  have hv' : |v| < 2^127 := lt_of_le_of_lt hv maxUnscaledDecimal16_lt
  simp only [accumulate, show (16:Nat) ≠ 4 by decide, show (16:Nat) ≠ 8 by decide, if_false,
    one_mul, int128_of_abs_lt hv', abs128_of_le_max hv, abs128_of_le_max hd, Bool.true_and]
  refine ⟨?_, fun hs => int128_of_abs_lt (lt_of_le_of_lt hs maxUnscaledDecimal16_lt)⟩
  rcases le_or_gt 0 d with hd0 | hd0 <;> rcases le_or_gt 0 v with hv0 | hv0
  · rw [abs_of_nonneg hd0, abs_of_nonneg hv0, abs_of_nonneg (by omega)]
    simp [hd0, hv0]; omega
  · have : |d + v| ≤ maxUnscaledDecimal16 := by
      rw [abs_of_nonneg hd0] at hd; rw [abs_of_neg hv0] at hv; rw [abs_le]; constructor <;> omega
    simp [hd0, not_le.2 hv0]; omega
  · have : |d + v| ≤ maxUnscaledDecimal16 := by
      rw [abs_of_neg hd0] at hd; rw [abs_of_nonneg hv0] at hv; rw [abs_le]; constructor <;> omega
    simp [not_le.2 hd0, hv0]; omega
  · rw [abs_of_neg hd0, abs_of_neg hv0, abs_of_neg (by omega)]
    simp [not_le.2 hd0, not_le.2 hv0]; omega

def Fits (size p : Nat) : Prop :=
  size = 4 ∧ p ≤ 9 ∨ size = 8 ∧ p ≤ 18 ∨ size = 16

theorem getDecimalByteSize_fits (p : Nat) : Fits (getDecimalByteSize p) p := by
  unfold Fits getDecimalByteSize
  split_ifs <;> omega

theorem sumDecimalFieldSize_fits {p : Nat} (h19 : p ≠ 19) : Fits (sumDecimalFieldSize p) p := by
  unfold Fits sumDecimalFieldSize
  split_ifs <;> omega

theorem abs_le_of_precision_le {p q : Nat} {v : Int} (hpq : p ≤ q) (hv : |v| ≤ 10^p - 1) :
    |v| ≤ 10^q - 1 := by
  have : (10:Int)^p ≤ 10^q := pow_le_pow_right₀ (by norm_num) hpq
  omega

theorem accumulate_of_fits {size p : Nat} {d v : Int} (hfit : Fits size p) (hp : p ≤ 38)
    (hv : |v| ≤ 10^p - 1) (hd : |d| ≤ maxUnscaledDecimal16) :
    (accumulate size true d v 1).2 = decide (|d + v| > maxUnscaledDecimal16) ∧
      (|d + v| ≤ maxUnscaledDecimal16 → (accumulate size true d v 1).1 = d + v) := by
  rcases hfit with ⟨rfl, h9⟩ | ⟨rfl, h18⟩ | rfl
  · rw [accumulate_four (abs_le_of_precision_le h9 hv) hd]
    exact ⟨rfl, fun _ => rfl⟩
  · rw [accumulate_eight (abs_le_of_precision_le h18 hv) hd]
    exact ⟨rfl, fun _ => rfl⟩
  · exact accumulate_sixteen (abs_le_max_of_valid hp hv) hd

theorem mergeChecked_ok {d s : Int} (hd : |d| ≤ maxUnscaledDecimal16)
    (hs : |s| ≤ maxUnscaledDecimal16) (hok : (mergeChecked true d s).2 = false) :
    (mergeChecked true d s).1 = d + s ∧ |d + s| ≤ maxUnscaledDecimal16 := by
  simp only [mergeChecked, Bool.true_and, decide_eq_false_iff_not, not_lt,
    abs128_of_le_max hd, abs128_of_le_max hs] at hok ⊢
  have hsum : |d + s| ≤ maxUnscaledDecimal16 := (abs_add_le d s).trans (by omega)
  exact ⟨int128_of_abs_lt (lt_of_le_of_lt hsum maxUnscaledDecimal16_lt), hsum⟩

theorem setError_error_eq_none {ctx : FunctionContext} {msg : String}
    (h : (ctx.setError msg).error = none) : False := by
  unfold FunctionContext.setError at h
  split_ifs at h with hs
  simp [h] at hs

theorem setErrorIf_error_eq_none {ctx : FunctionContext} {b : Bool} {msg : String}
    (h : (ctx.setErrorIf b msg).error = none) : b = false ∧ ctx.error = none := by
  unfold FunctionContext.setErrorIf at h
  cases b with
  | false => exact ⟨rfl, h⟩
  | true => exact (setError_error_eq_none h).elim

theorem setErrorIf_checked {ctx : FunctionContext} (he : ctx.error = none) (msg : String)
    {r : Int × Bool} {x : Int}
    (hr : r.2 = decide (|x| > maxUnscaledDecimal16) ∧ (|x| ≤ maxUnscaledDecimal16 → r.1 = x)) :
    ((ctx.setErrorIf r.2 msg).error = none ↔ |x| ≤ maxUnscaledDecimal16) ∧
      ((ctx.setErrorIf r.2 msg).error = none → r.1 = x) := by
  have hiff : (ctx.setErrorIf r.2 msg).error = none ↔ |x| ≤ maxUnscaledDecimal16 := by
    constructor
    · intro h
      have hfalse := (setErrorIf_error_eq_none h).1
      rw [hr.1] at hfalse
      simpa using hfalse
    · intro h
      have hfalse : r.2 = false := by rw [hr.1]; simpa using h
      simp [FunctionContext.setErrorIf, hfalse, he]
  exact ⟨hiff, fun h => hr.2 (hiff.1 h)⟩

/-! ### Plans -/

section PlanRun

variable {τ : Type} {step : FunctionContext × τ → Op → FunctionContext × τ} {init : τ}
  {merge : FunctionContext → τ → τ → FunctionContext × τ}

theorem Plan.run_exact (val : τ → Int) (OK : Op → Prop)
    (hfrag : ∀ ops, (∀ o ∈ ops, OK o) → (Plan.run step init merge (.fragment ops)).1 = none →
      val (Plan.run step init merge (.fragment ops)).2 = (ops.map Op.value).sum ∧
        |(ops.map Op.value).sum| ≤ maxUnscaledDecimal16)
    (herr : ∀ ctx s d, (merge ctx s d).1.error = none → ctx.error = none)
    (hmerge : ∀ ctx s d, |val s| ≤ maxUnscaledDecimal16 → |val d| ≤ maxUnscaledDecimal16 →
      (merge ctx s d).1.error = none →
        val (merge ctx s d).2 = val d + val s ∧ |val d + val s| ≤ maxUnscaledDecimal16)
    (plan : Plan) (hall : plan.All OK) (he : (Plan.run step init merge plan).1 = none) :
    val (Plan.run step init merge plan).2 = plan.exact ∧
      |plan.exact| ≤ maxUnscaledDecimal16 := by
  induction plan with
  | fragment ops => exact ⟨(hfrag ops hall he).1, (hfrag ops hall he).2⟩
  | merge d s ihd ihs =>
    simp only [Plan.run] at he ⊢
    have hctx := herr _ _ _ he
    simp only [Option.or_eq_none_iff] at hctx
    obtain ⟨hdv, hdr⟩ := ihd hall.1 hctx.1
    obtain ⟨hsv, hsr⟩ := ihs hall.2 hctx.2
    have hm := hmerge _ _ _ (hsv ▸ hsr) (hdv ▸ hdr) he
    rw [hdv, hsv] at hm
    exact hm

end PlanRun

/-! ### `SUM` over `Add` and `Merge` -/

section Sum

variable {p : Nat} (hp : p ≤ 38) (h19 : p ≠ 19)

include hp h19 in
theorem sumStep_add_of_ok {st : FunctionContext × Option Int} {o : Op}
    (ho : o.IsAdd ∧ o.Valid p) (he : st.1.error = none)
    (hr : |st.2.getD 0| ≤ maxUnscaledDecimal16) :
    ((sumStep ⟨p, true⟩ st o).1.error = none ↔
        |st.2.getD 0 + o.value| ≤ maxUnscaledDecimal16) ∧
      ((sumStep ⟨p, true⟩ st o).1.error = none →
        (sumStep ⟨p, true⟩ st o).2.getD 0 = st.2.getD 0 + o.value) := by
  obtain ⟨hadd, hval⟩ := ho
  rcases o with (_ | v) | _
  · simp [sumStep, sumDecimalUpdate, sumDecimalAddOrSubtract, Op.value, he, hr]
  · have hm : (if false = true then (-1 : Int) else 1) = 1 := rfl
    simp only [sumStep, sumDecimalUpdate, sumDecimalAddOrSubtract, Op.value, hm,
      Option.getD_some]
    exact setErrorIf_checked (by exact he) sumOverflowed
      (accumulate_of_fits (sumDecimalFieldSize_fits h19) hp hval hr)
  · exact absurd hadd id

theorem sumStep_error_eq_none {a : FnAttrs} {st : FunctionContext × Option Int} {o : Op}
    (h : (sumStep a st o).1.error = none) : st.1.error = none := by
  rcases o with (_ | v) | (_ | v)
  · exact h
  · exact (setErrorIf_error_eq_none h).2
  · simp only [sumStep, sumDecimalRemove] at h
    split_ifs at h
    · exact h
    · exact h
  · simp only [sumStep, sumDecimalRemove] at h
    split_ifs at h
    · exact h
    · exact (setErrorIf_error_eq_none h).2

include hp h19 in
theorem sumFragment_adds (ops : List Op) (hops : ∀ o ∈ ops, o.IsAdd ∧ o.Valid p) :
    ((sumPlan ⟨p, true⟩ (.fragment ops)).1 = none ↔
        ∀ k ≤ ops.length, |((ops.take k).map Op.value).sum| ≤ maxUnscaledDecimal16) ∧
      ((sumPlan ⟨p, true⟩ (.fragment ops)).1 = none →
        (sumPlan ⟨p, true⟩ (.fragment ops)).2.getD 0 = (ops.map Op.value).sum) := by
  have hrun := Run.foldl_checked (sumStep ⟨p, true⟩) (fun st => st.1.error = none)
    (fun st => st.2.getD 0) Op.value (fun x => |x| ≤ maxUnscaledDecimal16)
    (fun o => o.IsAdd ∧ o.Valid p) (fun _ _ ho he hr => sumStep_add_of_ok hp h19 ho he hr)
    (fun _ _ h => sumStep_error_eq_none h) ops hops (FunctionContext.init, none) rfl
    (by simp [maxUnscaledDecimal16])
  simpa [sumPlan, Plan.run] using hrun

theorem sumDecimalMerge_error_eq_none {a : FnAttrs} {ctx : FunctionContext} {s d : Option Int}
    (h : (sumDecimalMerge a ctx s d).1.error = none) : ctx.error = none := by
  cases s with
  | none => exact h
  | some v => exact (setErrorIf_error_eq_none h).2

theorem sumDecimalMerge_exact {ctx : FunctionContext} {s d : Option Int}
    (hs : |s.getD 0| ≤ maxUnscaledDecimal16) (hd : |d.getD 0| ≤ maxUnscaledDecimal16)
    (h : (sumDecimalMerge ⟨p, true⟩ ctx s d).1.error = none) :
    (sumDecimalMerge ⟨p, true⟩ ctx s d).2.getD 0 = d.getD 0 + s.getD 0 ∧
      |d.getD 0 + s.getD 0| ≤ maxUnscaledDecimal16 := by
  cases s with
  | none => simpa [sumDecimalMerge] using hd
  | some v =>
    simp only [sumDecimalMerge, Option.getD_some] at h hs ⊢
    exact mergeChecked_ok hd hs (setErrorIf_error_eq_none h).1

include hp h19 in
theorem sumPlan_adds_exact (plan : Plan) (hall : plan.All fun o => o.IsAdd ∧ o.Valid p)
    (he : (sumPlan ⟨p, true⟩ plan).1 = none) :
    (sumPlan ⟨p, true⟩ plan).2.getD 0 = plan.exact ∧ |plan.exact| ≤ maxUnscaledDecimal16 := by
  refine Plan.run_exact (fun v => v.getD 0) _ (fun ops hops he => ?_)
    (fun _ _ _ h => sumDecimalMerge_error_eq_none h)
    (fun _ _ _ hs hd h => sumDecimalMerge_exact hs hd h) plan hall he
  have hrun := sumFragment_adds hp h19 ops hops
  exact ⟨hrun.2 he, hrun.1.1 he ops.length le_rfl |>.trans_eq' (by simp)⟩

end Sum

/-! ### `AVG` over `Add` and `Merge` -/

section Avg

variable {p : Nat} (hp : p ≤ 38)

include hp in
theorem avgStep_add_of_ok {st : FunctionContext × DecimalAvgState} {o : Op}
    (ho : o.IsAdd ∧ o.Valid p) (he : st.1.error = none)
    (hr : |st.2.sumVal16| ≤ maxUnscaledDecimal16) :
    ((avgStep ⟨p, true⟩ st o).1.error = none ↔
        |st.2.sumVal16 + o.value| ≤ maxUnscaledDecimal16) ∧
      ((avgStep ⟨p, true⟩ st o).1.error = none →
        (avgStep ⟨p, true⟩ st o).2.sumVal16 = st.2.sumVal16 + o.value) := by
  obtain ⟨hadd, hval⟩ := ho
  rcases o with (_ | v) | _
  · simp [avgStep, decimalAvgAddOrRemove, Op.value, he, hr]
  · have hm : (if false = true then (-1 : Int) else 1) = 1 := rfl
    simp only [avgStep, decimalAvgAddOrRemove, Op.value, hm]
    exact setErrorIf_checked (by exact he) avgOverflowed
      (accumulate_of_fits (getDecimalByteSize_fits p) hp hval hr)
  · exact absurd hadd id

theorem avgStep_error_eq_none {a : FnAttrs} {st : FunctionContext × DecimalAvgState} {o : Op}
    (h : (avgStep a st o).1.error = none) : st.1.error = none := by
  rcases o with (_ | v) | (_ | v)
  · exact h
  · exact (setErrorIf_error_eq_none h).2
  · exact h
  · exact (setErrorIf_error_eq_none h).2

include hp in
theorem avgFragment_adds (ops : List Op) (hops : ∀ o ∈ ops, o.IsAdd ∧ o.Valid p) :
    ((avgPlan ⟨p, true⟩ (.fragment ops)).1 = none ↔
        ∀ k ≤ ops.length, |((ops.take k).map Op.value).sum| ≤ maxUnscaledDecimal16) ∧
      ((avgPlan ⟨p, true⟩ (.fragment ops)).1 = none →
        (avgPlan ⟨p, true⟩ (.fragment ops)).2.sumVal16 = (ops.map Op.value).sum) := by
  have hrun := Run.foldl_checked (avgStep ⟨p, true⟩) (fun st => st.1.error = none)
    (fun st => st.2.sumVal16) Op.value (fun x => |x| ≤ maxUnscaledDecimal16)
    (fun o => o.IsAdd ∧ o.Valid p) (fun _ _ ho he hr => avgStep_add_of_ok hp ho he hr)
    (fun _ _ h => avgStep_error_eq_none h) ops hops (FunctionContext.init, decimalAvgInit) rfl
    (by simp [decimalAvgInit, maxUnscaledDecimal16])
  simpa [avgPlan, Plan.run, decimalAvgInit] using hrun

theorem decimalAvgMerge_exact {ctx : FunctionContext} {s d : DecimalAvgState}
    (hs : |s.sumVal16| ≤ maxUnscaledDecimal16) (hd : |d.sumVal16| ≤ maxUnscaledDecimal16)
    (h : (decimalAvgMerge ⟨p, true⟩ ctx s d).1.error = none) :
    (decimalAvgMerge ⟨p, true⟩ ctx s d).2.sumVal16 = d.sumVal16 + s.sumVal16 ∧
      |d.sumVal16 + s.sumVal16| ≤ maxUnscaledDecimal16 :=
  mergeChecked_ok hd hs (setErrorIf_error_eq_none h).1

include hp in
theorem avgPlan_adds_exact (plan : Plan) (hall : plan.All fun o => o.IsAdd ∧ o.Valid p)
    (he : (avgPlan ⟨p, true⟩ plan).1 = none) :
    (avgPlan ⟨p, true⟩ plan).2.sumVal16 = plan.exact ∧ |plan.exact| ≤ maxUnscaledDecimal16 := by
  refine Plan.run_exact DecimalAvgState.sumVal16 _ (fun ops hops he => ?_)
    (fun _ _ _ h => (setErrorIf_error_eq_none h).2)
    (fun _ _ _ hs hd h => decimalAvgMerge_exact hs hd h) plan hall he
  have hrun := avgFragment_adds hp ops hops
  exact ⟨hrun.2 he, hrun.1.1 he ops.length le_rfl |>.trans_eq' (by simp)⟩

end Avg

/-- `SUM` and `AVG` of a DECIMAL column of precision at most 38 (other than 19, where `SUM`
reads the wrong field) over fragments of `Add` calls of values of that precision, merged in
any tree shape: whenever no error is raised, the sum they hold is the exact sum of the values
and lies within `MAX_UNSCALED_DECIMAL16`. -/
theorem sumPlan_avgPlan_adds_exact {p : Nat} (hp : p ≤ 38) (h19 : p ≠ 19) (plan : Plan)
    (hall : plan.All fun o => o.IsAdd ∧ o.Valid p) :
    ((sumPlan ⟨p, true⟩ plan).1 = none →
      (sumPlan ⟨p, true⟩ plan).2.getD 0 = plan.exact ∧ |plan.exact| ≤ maxUnscaledDecimal16) ∧
    ((avgPlan ⟨p, true⟩ plan).1 = none →
      (avgPlan ⟨p, true⟩ plan).2.sumVal16 = plan.exact ∧ |plan.exact| ≤ maxUnscaledDecimal16) :=
  ⟨sumPlan_adds_exact hp h19 plan hall, avgPlan_adds_exact hp plan hall⟩

theorem sumPlan_avgPlan_adds_exact_two_fragments :
    (sumPlan ⟨10, true⟩ (.merge (.fragment [.add (some 5)]) (.fragment [.add (some 7)]))).1 =
        none ∧
      (sumPlan ⟨10, true⟩ (.merge (.fragment [.add (some 5)]) (.fragment [.add (some 7)]))).2.getD
          0 = 12 := by
  have hok : (sumPlan ⟨10, true⟩
      (.merge (.fragment [.add (some 5)]) (.fragment [.add (some 7)]))).1 = none := by decide
  have h := (sumPlan_avgPlan_adds_exact (p := 10) (by norm_num) (by norm_num)
    (.merge (.fragment [.add (some 5)]) (.fragment [.add (some 7)]))
    (by simp [Plan.All, Op.IsAdd, Op.Valid])).1 hok
  exact ⟨hok, by simpa [Plan.exact, Op.value] using h.1⟩

end Impala.AggregateFunctions
