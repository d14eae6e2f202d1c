import Impala.Lib.FloatArith
import Impala.Lib.MachineInt
import Impala.Util.MinMaxFilter

/-!
The overlap ratio of a min-max filter with a row group's statistics
(util/min-max-filter.cc), and the row-group skip of the Parquet scanner
(exec/parquet/hdfs-parquet-scanner.cc) that drops the row group when the ratio is
`0.0`.

For `float` and `double` filters (`APPROXIMATE_NUMERIC_MIN_MAX_FILTER_EVAL_OVERLAP`)
the ratio `(overlap_max - overlap_min + 1) / (data_max - data_min + 1)` is computed in
the filter's type without first asking whether the ranges overlap. An infinite data
range makes the denominator infinite and the ratio `+0.0`, so a row group whose
range overlaps the filter's is skipped (`computeOverlapRatio_skips_overlap`).

For the integer filters (`NUMERIC_MIN_MAX_FILTER_CAST`) the differences are taken in
the column's type after promotion (`int` for `int8_t`/`int16_t`), or in `int64_t`
when the filter's type differs from the column's, and wrap.

The `float` and `double` inserts step a strict bound by `value--` and `value++`, a
subtraction or addition of `1.0` in the filter's type, and open a one-sided range at
`lowest()` or `max()`.
-/

set_option autoImplicit false

namespace Impala.MinMaxFilter

open FloatArith MachineInt

def skipRowGroup (overlapRatio : Fp) : Bool := Fp.eq overlapRatio (.finite false 0)

/-! ## `float` and `double` filters -/

namespace ApproximateNumericMinMaxFilter

open NumericMinMaxFilter (State)

def maxValue (fmt : Format) : Fp :=
  .finite false ((2 ^ fmt.prec - 1) * 2 ^ (fmt.emax - fmt.prec + 1))

def create (fmt : Format) : State Fp := ⟨maxValue fmt, (maxValue fmt).neg, false⟩

def insert (s : State Fp) (v : Fp) : State Fp :=
  { s with min := if Fp.lt v s.min then v else s.min,
           max := if Fp.lt s.max v then v else s.max }

def alwaysFalse (fmt : Format) (s : State Fp) : Bool :=
  Fp.eq s.min (maxValue fmt) && Fp.eq s.max (maxValue fmt).neg

def evalOverlap (s : State Fp) (dataMin dataMax : Fp) : Bool :=
  !(Fp.lt s.max dataMin || Fp.lt dataMax s.min)

def one : Fp := .finite false 1

def subtractOne (fmt : Format) (v : Fp) : Fp := Fp.sub fmt v one

def addOne (fmt : Format) (v : Fp) : Fp := Fp.add fmt v one

def insertForLE (fmt : Format) (s : State Fp) (v : Fp) : State Fp :=
  { s with min := (maxValue fmt).neg, max := if Fp.lt s.max v then v else s.max }

def insertForLT (fmt : Format) (s : State Fp) (v : Fp) : State Fp :=
  let value := if Fp.lt (maxValue fmt).neg v then subtractOne fmt v else v
  { s with min := (maxValue fmt).neg, max := if Fp.lt s.max value then value else s.max }

def insertForGE (fmt : Format) (s : State Fp) (v : Fp) : State Fp :=
  { s with max := maxValue fmt, min := if Fp.lt v s.min then v else s.min }

def insertForGT (fmt : Format) (s : State Fp) (v : Fp) : State Fp :=
  let value := if Fp.lt v (maxValue fmt) then addOne fmt v else v
  { s with max := maxValue fmt, min := if Fp.lt value s.min then value else s.min }

def step (fmt : Format) (s : State Fp) (c : Call Fp) : State Fp :=
  match c.val with
  | none => s
  | some v =>
    match c.entry with
    | .insert => insert s v
    | .insertForLE => insertForLE fmt s v
    | .insertForLT => insertForLT fmt s v
    | .insertForGE => insertForGE fmt s v
    | .insertForGT => insertForGT fmt s v

def run (fmt : Format) (calls : List (Call Fp)) : State Fp := calls.foldl (step fmt) (create fmt)

theorem one_le_maxValue {fmt : Format} (hfmt : fmt = binary32 ∨ fmt = binary64) :
    (1 : ℚ) ≤ (2 ^ fmt.prec - 1) * 2 ^ (fmt.emax - fmt.prec + 1) := by
  rcases hfmt with rfl | rfl <;>
    exact one_le_mul_of_one_le_of_one_le (by norm_num [binary32, binary64])
      (one_le_zpow₀ (by norm_num) (by norm_num [binary32, binary64]))

theorem alwaysFalse_of_min_lowest {fmt : Format} (hfmt : fmt = binary32 ∨ fmt = binary64)
    {s : State Fp} (h : s.min = (maxValue fmt).neg) : alwaysFalse fmt s = false := by
  have hM := one_le_maxValue hfmt
  have hne : Fp.eq (maxValue fmt).neg (maxValue fmt) = false := by
    simp only [maxValue, Fp.neg, Bool.not_false, Fp.eq, Fp.toRat, if_true, Bool.false_eq_true,
      if_false, decide_eq_false_iff_not]
    linarith
  simp only [alwaysFalse, h, hne, Bool.false_and]

theorem run_insertForLT_of_half_le {fmt : Format} (hfmt : fmt = binary32 ∨ fmt = binary64)
    {a : ℚ} (ha : Representable fmt a) (h1 : 1 / 2 ≤ a) (h2 : a < 1) :
    run fmt [⟨.insertForLT, some (.finite false a)⟩] =
      ⟨(maxValue fmt).neg, .finite true (1 - a), false⟩ := by
  have hsub : subtractOne fmt (.finite false a) = .finite true (1 - a) := by
    have hne : ¬(a = 0 ∧ (1 : ℚ) = 0) := by norm_num
    have hneg : decide (a + -1 < 0) = true := by simp only [decide_eq_true_eq]; linarith
    have habs : |a + -1| = 1 - a := by rw [abs_of_neg (by linarith)]; ring
    simp only [subtractOne, Fp.sub, one, Fp.neg, Bool.not_false, Fp.add, if_neg hne, ofRat,
      Fp.toRat, Bool.false_eq_true, if_false, if_true, hneg, habs]
    exact round_of_representable fmt true (representable_one_sub ha h1 h2)
  have hM := one_le_maxValue hfmt
  have hlow : Fp.lt (maxValue fmt).neg (.finite false a) = true := by
    simp only [maxValue, Fp.neg, Bool.not_false, Fp.lt, Fp.toRat, if_true, Bool.false_eq_true,
      if_false, decide_eq_true_eq]
    linarith
  have hmax : Fp.lt (maxValue fmt).neg (.finite true (1 - a)) = true := by
    simp only [maxValue, Fp.neg, Bool.not_false, Fp.lt, Fp.toRat, if_true, decide_eq_true_eq]
    linarith
  simp only [run, List.foldl_cons, List.foldl_nil, step, insertForLT, create, hlow, if_true, hsub,
    hmax]

theorem evalOverlap_negInf_of_min_lowest (fmt : Format) {s : State Fp}
    (h : s.min = (maxValue fmt).neg) : evalOverlap s (.inf true) (.inf true) = false := by
  simp only [evalOverlap, h, maxValue, Fp.neg, Bool.not_false, Fp.lt, Bool.or_true, Bool.not_true]

def computeOverlapRatio (fmt : Format) (s : State Fp) (dataMin dataMax : Fp) : Fp :=
  if Fp.le s.min dataMin && Fp.le dataMax s.max then one
  else
    let overlapMin := Fp.max s.min dataMin
    let overlapMax := Fp.min s.max dataMax
    Fp.cast binary32 (Fp.div fmt (Fp.add fmt (Fp.sub fmt overlapMax overlapMin) one)
      (Fp.add fmt (Fp.sub fmt dataMax dataMin) one))

/-- A row group whose statistics are `[-inf, +inf]`, with a `float` filter built from
the values `0` and `1`: the ranges overlap and share the value `1`, yet the ratio is
`+0.0` and the scanner skips the row group. -/
theorem computeOverlapRatio_skips_overlap :
    insert (insert (create binary32) (.finite false 0)) (.finite false 1) =
        ⟨.finite false 0, .finite false 1, false⟩ ∧
      alwaysFalse binary32 ⟨.finite false 0, .finite false 1, false⟩ = false ∧
      Fp.le (.inf true) (.inf false) = true ∧
      evalOverlap ⟨.finite false 0, .finite false 1, false⟩ (.inf true) (.inf false) = true ∧
      (Fp.le (.finite false 0) (.finite false 1) && Fp.le (.inf true) (.finite false 1) &&
        Fp.le (.finite false 1) (.inf false)) = true ∧
      skipRowGroup (computeOverlapRatio binary32 ⟨.finite false 0, .finite false 1, false⟩
        (.inf true) (.inf false)) = true := by
  have hone : round binary32 false 1 = .finite false 1 := by
    simpa using round_natCast binary32 false (n := 1) (by decide) (by decide)
      (by norm_num [binary32])
  have htwo : round binary32 false 2 = .finite false 2 := by
    simpa using round_natCast binary32 false (n := 2) (by decide) (by decide)
      (by norm_num [binary32])
  refine ⟨?_, ?_, rfl, ?_, ?_, ?_⟩
  · norm_num [insert, create, maxValue, Fp.lt, Fp.neg, Fp.toRat, binary32]
  · norm_num [alwaysFalse, maxValue, Fp.eq, Fp.neg, Fp.toRat, binary32]
  · simp [evalOverlap, Fp.lt]
  · simp [Fp.le, Fp.lt, Fp.eq, Fp.toRat]
  · have hnum : Fp.add binary32 (Fp.sub binary32 (.finite false 1) (.finite false 0)) one =
        .finite false 2 := by
      norm_num [Fp.sub, Fp.add, Fp.neg, one, ofRat, Fp.toRat, hone, htwo]
    have hden : Fp.add binary32 (Fp.sub binary32 (.inf false) (.inf true)) one = .inf false := rfl
    simp [computeOverlapRatio, Fp.le, Fp.lt, Fp.eq, Fp.max, Fp.min, hnum, hden, Fp.div, Fp.cast,
      skipRowGroup, Fp.toRat]

end ApproximateNumericMinMaxFilter

/-! ## Integer filters -/

namespace NumericMinMaxFilter

/-- `GetCastIntMinMax` when the column's type differs from the filter's: the filter's
bounds clamped to the column type's range `[typeMin, typeMax]`, or `none` when one of
them lies on the wrong side of it. -/
def getCastIntMinMax (typeMin typeMax : Int) (s : State Int) : Option (Int × Int) := do
  let outMin ← if s.min < typeMin then some typeMin else if s.min > typeMax then none else some s.min
  let outMax ← if s.max > typeMax then some typeMax else if s.max < typeMin then none else some s.max
  return (outMin, outMax)

/-- The ratio of an overlapping range, with the two sums taken in `w`-bit arithmetic
and divided as `double`s. -/
def overlapRatio (w : Nat) (fmin fmax dataMin dataMax : Int) : Fp :=
  if fmin ≤ dataMin ∧ dataMax ≤ fmax then .finite false 1
  else
    let overlapMin := max dataMin fmin
    let overlapMax := min dataMax fmax
    Fp.cast binary32 (Fp.div binary64 (ofRat binary64 (toSigned w (overlapMax - overlapMin + 1)))
      (ofRat binary64 (toSigned w (dataMax - dataMin + 1))))

/-- `ComputeOverlapRatio` of an integer filter. `sameType` is `type() == col_type.type`;
`w` is the width of the column type's arithmetic (`32` up to `int32_t`, `64` for
`int64_t`) and `[typeMin, typeMax]` its range. -/
def computeOverlapRatio (sameType : Bool) (w : Nat) (typeMin typeMax : Int) (s : State Int)
    (dataMin dataMax : Int) : Fp :=
  if sameType then
    if evalOverlap s dataMin dataMax then overlapRatio w s.min s.max dataMin dataMax
    else .finite false 0
  else
    match getCastIntMinMax typeMin typeMax s with
    | some (fmin, fmax) =>
      if !(fmax < dataMin || dataMax < fmin) then overlapRatio 64 fmin fmax dataMin dataMax
      else .finite false 0
    | none => .finite false 0

end NumericMinMaxFilter

/-! ## Values the filters exclude -/

/-- Entry points that exclude a value their call qualifies. A `float` `InsertForLT(a)`
stores `a - 1`, and `InsertForLE` opens the range at `lowest()`, not at `-inf`. A string
`InsertForLT(p ++ [b])` stores `p ++ [b - 1]`, below `p ++ [b - 1, 0xff]`. A DATE filter's
`UpdateMax` moves only the max of a non-empty filter. -/
theorem minMaxFilter_excludes_qualifying :
    (∀ fmt, fmt = binary32 ∨ fmt = binary64 →
      (∀ a : ℚ, Representable fmt a → 1 / 2 ≤ a → a < 1 → ∀ t : Fp,
        Fp.lt (.finite true (1 - a)) t = true → Fp.lt t (.finite false a) = true →
          let s := ApproximateNumericMinMaxFilter.run fmt [⟨.insertForLT, some (.finite false a)⟩]
          ApproximateNumericMinMaxFilter.alwaysFalse fmt s = false ∧
            ApproximateNumericMinMaxFilter.evalOverlap s t t = false) ∧
      (∀ v : Fp, Fp.le (.inf true) v = true →
          let s := ApproximateNumericMinMaxFilter.run fmt [⟨.insertForLE, some v⟩]
          ApproximateNumericMinMaxFilter.alwaysFalse fmt s = false ∧
            ApproximateNumericMinMaxFilter.evalOverlap s (.inf true) (.inf true) = false)) ∧
    (∀ (p : Bytes) (b : UInt8), b ≠ 0 → p.length < StringMinMaxFilter.maxBoundLength →
      StringValue.lt (p ++ [b - 1, 0xff]) (p ++ [b]) = true ∧
        let s := StringMinMaxFilter.run [⟨.insertForLT, some (p ++ [b])⟩]
        s.alwaysTrue = false ∧ s.alwaysFalse = false ∧
          StringMinMaxFilter.evalOverlap s (p ++ [b - 1, 0xff]) (p ++ [b - 1, 0xff]) = false) ∧
    (∀ v u t : Int, t < v → t ≤ u →
      let s := FlaggedMinMaxFilter.run DateMinMaxFilter.limits [⟨.insert, some v⟩, ⟨.insertForLE, some u⟩]
      s.alwaysTrue = false ∧ s.alwaysFalse = false ∧ FlaggedMinMaxFilter.evalOverlap s t t = false) := by
  refine ⟨fun fmt hfmt => ⟨?_, ?_⟩, ?_, ?_⟩
  · intro a ha h1 h2 t hlo _
    rw [ApproximateNumericMinMaxFilter.run_insertForLT_of_half_le hfmt ha h1 h2]
    refine ⟨ApproximateNumericMinMaxFilter.alwaysFalse_of_min_lowest hfmt rfl, ?_⟩
    simp only [ApproximateNumericMinMaxFilter.evalOverlap, hlo, Bool.true_or, Bool.not_true]
  · intro v _
    exact ⟨ApproximateNumericMinMaxFilter.alwaysFalse_of_min_lowest hfmt rfl,
      ApproximateNumericMinMaxFilter.evalOverlap_negInf_of_min_lowest fmt rfl⟩
  · intro p b hb hp
    have hb1 : b - 1 < b := by grind
    refine ⟨StringValue.lt_append_cons_of_lt p hb1 [0xff] [], ?_⟩
    have hmax : StringValue.lt (p ++ [b - 1]) (p ++ [b - 1, 0xff]) = true := by
      simpa using StringValue.lt_append_of_ne_nil (p ++ [b - 1]) (t := [0xff]) (by simp)
    rw [StringMinMaxFilter.run_insertForLT_append p hb hp]
    simp only [StringMinMaxFilter.evalOverlap, hmax, Bool.or_true, Bool.not_true, and_self]
  · intro v u t htv _
    simp only [FlaggedMinMaxFilter.run, List.foldl_cons, List.foldl_nil, FlaggedMinMaxFilter.step,
      FlaggedMinMaxFilter.insert, FlaggedMinMaxFilter.create, FlaggedMinMaxFilter.insertForLE,
      FlaggedMinMaxFilter.updateMax, if_true, Bool.false_eq_true, if_false]
    split <;> simp [FlaggedMinMaxFilter.evalOverlap, htv]

theorem minMaxFilter_excludes_qualifying_half :
    Fp.lt (.finite false 0) (.finite false (1 / 2)) = true ∧
      ApproximateNumericMinMaxFilter.evalOverlap
        (ApproximateNumericMinMaxFilter.run binary32 [⟨.insertForLT, some (.finite false (1 / 2))⟩])
        (.finite false 0) (.finite false 0) = false ∧
      ApproximateNumericMinMaxFilter.evalOverlap
        (ApproximateNumericMinMaxFilter.run binary64 [⟨.insertForLE, some (.finite false 0)⟩])
        (.inf true) (.inf true) = false ∧
      StringValue.lt [0x61, 0x61, 0xff] [0x61, 0x62] = true ∧
      StringMinMaxFilter.evalOverlap (StringMinMaxFilter.run [⟨.insertForLT, some [0x61, 0x62]⟩])
        [0x61, 0x61, 0xff] [0x61, 0x61, 0xff] = false ∧
      FlaggedMinMaxFilter.evalOverlap (FlaggedMinMaxFilter.run DateMinMaxFilter.limits
        [⟨.insert, some 10⟩, ⟨.insertForLE, some 5⟩]) 3 3 = false := by
  obtain ⟨hfloat, hstring, hdate⟩ := minMaxFilter_excludes_qualifying
  have hhalf : Representable binary32 (1 / 2) :=
    ⟨1, -1, by norm_num, by norm_num [binary32], by norm_num [binary32], by norm_num [binary32]⟩
  have hlt : Fp.lt (.finite false 0) (.finite false (1 / 2)) = true := by
    norm_num [Fp.lt, Fp.toRat]
  have hlo : Fp.lt (.finite true (1 - 1 / 2)) (.finite false 0) = true := by
    norm_num [Fp.lt, Fp.toRat]
  have hs := (hstring [0x61] 0x62 (by decide) (by decide))
  exact ⟨hlt, ((hfloat binary32 (Or.inl rfl)).1 (1 / 2) hhalf (by norm_num) (by norm_num) _ hlo hlt).2,
    ((hfloat binary64 (Or.inr rfl)).2 (.finite false 0) rfl).2, hs.1, hs.2.2.2,
    (hdate 10 5 3 (by decide) (by decide)).2.2⟩

end Impala.MinMaxFilter
