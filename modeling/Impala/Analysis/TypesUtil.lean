import Mathlib.Order.Basic
import Mathlib.Tactic.Linarith

/-!
The decimal result types the frontend gives arithmetic (fe/.../analysis/TypesUtil.java,
`getDecimalArithmeticResultTypeV1/V2`, with `ScalarType.createClippedDecimalType` and
`createAdjustedDecimalType`). Every result of two valid decimal types is a valid decimal
type (`resultTypeRaw_valid`), which is what lets `resultType` return a `DecimalType`.
-/

set_option autoImplicit false

namespace Impala.TypesUtil

def maxPrecision : Nat := 38

def minAdjustedScale : Nat := 6

def decimalDivisionScaleIncrement : Nat := 4

/-- A fully specified `DECIMAL(precision, scale)`. -/
structure DecimalType where
  precision : Nat
  scale : Nat
  one_le_precision : 1 ≤ precision
  precision_le : precision ≤ maxPrecision
  scale_le : scale ≤ precision

/-- `ArithmeticExpr.Operator` for decimals. -/
inductive Operator where
  | add
  | subtract
  | multiply
  | divide
  | mod
  deriving DecidableEq, Repr

def createClippedDecimalType (precision scale : Nat) : Nat × Nat :=
  (min precision maxPrecision, min (min precision maxPrecision) scale)

/-- `createAdjustedDecimalType(precision, scale)`: past the maximum precision the scale
gives up the excess, but not below `MIN_ADJUSTED_SCALE` (or the scale asked for). -/
def createAdjustedDecimalType (precision scale : Nat) : Nat × Nat :=
  if precision > maxPrecision then
    (maxPrecision, max (scale - (precision - maxPrecision)) (min scale minAdjustedScale))
  else (precision, scale)

def resultTypeV1 (t1 t2 : DecimalType) : Operator → Nat × Nat
  | .add | .subtract =>
    createClippedDecimalType
      (max t1.scale t2.scale + max (t1.precision - t1.scale) (t2.precision - t2.scale) + 1)
      (max t1.scale t2.scale)
  | .multiply => createClippedDecimalType (t1.precision + t2.precision) (t1.scale + t2.scale)
  | .divide =>
    let resultScale := max decimalDivisionScaleIncrement (t1.scale + t2.precision + 1)
    let resultPrecision := t1.precision - t1.scale + t2.scale + resultScale
    if resultPrecision > maxPrecision then
      createClippedDecimalType maxPrecision (max t1.scale t2.scale)
    else createClippedDecimalType resultPrecision resultScale
  | .mod =>
    createClippedDecimalType
      (min (t1.precision - t1.scale) (t2.precision - t2.scale) + max t1.scale t2.scale)
      (max t1.scale t2.scale)

def resultTypeV2 (t1 t2 : DecimalType) : Operator → Nat × Nat
  | .divide =>
    let resultScale := max minAdjustedScale (t1.scale + t2.precision + 1)
    createAdjustedDecimalType (t1.precision - t1.scale + t2.scale + resultScale) resultScale
  | .mod =>
    let resultScale := max t1.scale t2.scale
    createAdjustedDecimalType
      (min (t1.precision - t1.scale) (t2.precision - t2.scale) + resultScale) resultScale
  | .multiply =>
    createAdjustedDecimalType (t1.precision + t2.precision + 1) (t1.scale + t2.scale)
  | .add | .subtract =>
    let resultScale := max t1.scale t2.scale
    createAdjustedDecimalType
      (max (t1.precision - t1.scale) (t2.precision - t2.scale) + resultScale + 1) resultScale

def resultTypeRaw (decimalV2 : Bool) (op : Operator) (t1 t2 : DecimalType) : Nat × Nat :=
  if decimalV2 then resultTypeV2 t1 t2 op else resultTypeV1 t1 t2 op

def Valid (t : Nat × Nat) : Prop := 1 ≤ t.1 ∧ t.1 ≤ maxPrecision ∧ t.2 ≤ t.1

theorem createAdjustedDecimalType_of_le {precision scale : Nat} (h : precision ≤ maxPrecision) :
    createAdjustedDecimalType precision scale = (precision, scale) :=
  if_neg (not_lt.2 h)

theorem createAdjustedDecimalType_of_gt {precision scale : Nat} (h : precision > maxPrecision) :
    createAdjustedDecimalType precision scale =
      (maxPrecision, max (scale - (precision - maxPrecision)) (min scale minAdjustedScale)) :=
  if_pos h

theorem createAdjustedDecimalType_scale_le (precision scale : Nat) :
    (createAdjustedDecimalType precision scale).2 ≤ scale := by
  rcases le_or_gt precision maxPrecision with h | h
  · rw [createAdjustedDecimalType_of_le h]
  · rw [createAdjustedDecimalType_of_gt h]
    exact max_le (Nat.sub_le _ _) (min_le_left _ _)

theorem createClippedDecimalType_valid {precision scale : Nat} (h : 1 ≤ precision) :
    Valid (createClippedDecimalType precision scale) := by
  simp only [Valid, createClippedDecimalType, maxPrecision]
  omega

theorem createAdjustedDecimalType_valid {precision scale : Nat} (h1 : 1 ≤ precision)
    (h2 : scale ≤ precision) : Valid (createAdjustedDecimalType precision scale) := by
  unfold createAdjustedDecimalType
  split_ifs <;> simp only [Valid, maxPrecision, minAdjustedScale] at * <;> omega

theorem resultTypeRaw_valid (decimalV2 : Bool) (op : Operator) (t1 t2 : DecimalType) :
    Valid (resultTypeRaw decimalV2 op t1 t2) := by
  have h1 := t1.one_le_precision
  have h2 := t2.one_le_precision
  have h3 := t1.scale_le
  have h4 := t2.scale_le
  cases decimalV2 <;> cases op
  all_goals simp only [resultTypeRaw, Bool.false_eq_true, if_false, if_true, resultTypeV1,
    resultTypeV2]
  all_goals first
    | exact createClippedDecimalType_valid (by omega)
    | exact createAdjustedDecimalType_valid (by omega) (by omega)
    | split_ifs <;> exact createClippedDecimalType_valid (by simp only [maxPrecision] at *; omega)

def resultType (decimalV2 : Bool) (op : Operator) (t1 t2 : DecimalType) : DecimalType :=
  have h := resultTypeRaw_valid decimalV2 op t1 t2
  ⟨(resultTypeRaw decimalV2 op t1 t2).1, (resultTypeRaw decimalV2 op t1 t2).2, h.1, h.2.1, h.2.2⟩

section AddSubtract

variable (decimalV2 : Bool) (t1 t2 : DecimalType)

theorem resultType_subtract : resultType decimalV2 .subtract t1 t2 = resultType decimalV2 .add t1 t2 := by
  cases decimalV2 <;> rfl

theorem resultType_add_scale_le :
    (resultType decimalV2 .add t1 t2).scale ≤ max t1.scale t2.scale := by
  cases decimalV2
  · simp only [resultType, resultTypeRaw, Bool.false_eq_true, if_false, resultTypeV1,
      createClippedDecimalType]
    omega
  · exact createAdjustedDecimalType_scale_le _ _

theorem resultType_add_of_lt (h : (resultType decimalV2 .add t1 t2).precision < maxPrecision) :
    (resultType decimalV2 .add t1 t2).scale = max t1.scale t2.scale ∧
      (resultType decimalV2 .add t1 t2).precision =
        max (t1.precision - t1.scale) (t2.precision - t2.scale) + max t1.scale t2.scale + 1 := by
  simp only [resultType, resultTypeRaw] at h ⊢
  have h1 := t1.precision_le
  have h2 := t2.precision_le
  simp only [maxPrecision] at h h1 h2
  cases decimalV2
  · simp only [Bool.false_eq_true, if_false, resultTypeV1, createClippedDecimalType,
      maxPrecision] at h ⊢
    omega
  · simp only [if_true, resultTypeV2] at h ⊢
    rcases le_or_gt (max (t1.precision - t1.scale) (t2.precision - t2.scale) +
      max t1.scale t2.scale + 1) maxPrecision with hp | hp
    · rw [createAdjustedDecimalType_of_le hp]
      exact ⟨rfl, rfl⟩
    · rw [createAdjustedDecimalType_of_gt hp] at h
      exact absurd h (lt_irrefl _)

end AddSubtract

section Multiply

variable (decimalV2 : Bool) (t1 t2 : DecimalType)

theorem resultType_multiply_scale_le :
    (resultType decimalV2 .multiply t1 t2).scale ≤ t1.scale + t2.scale := by
  cases decimalV2
  · simp only [resultType, resultTypeRaw, Bool.false_eq_true, if_false, resultTypeV1,
      createClippedDecimalType]
    omega
  · exact createAdjustedDecimalType_scale_le _ _

theorem resultType_multiply_of_lt
    (h : (resultType decimalV2 .multiply t1 t2).precision < maxPrecision) :
    (resultType decimalV2 .multiply t1 t2).scale = t1.scale + t2.scale ∧
      t1.precision + t2.precision ≤ (resultType decimalV2 .multiply t1 t2).precision := by
  simp only [resultType, resultTypeRaw] at h ⊢
  have h1 := t1.scale_le
  have h2 := t2.scale_le
  cases decimalV2
  · simp only [Bool.false_eq_true, if_false, resultTypeV1, createClippedDecimalType,
      maxPrecision] at h ⊢
    omega
  · simp only [if_true, resultTypeV2] at h ⊢
    rcases le_or_gt (t1.precision + t2.precision + 1) maxPrecision with hp | hp
    · rw [createAdjustedDecimalType_of_le hp]
      omega
    · rw [createAdjustedDecimalType_of_gt hp] at h
      exact absurd h (lt_irrefl _)

end Multiply

end Impala.TypesUtil
