import Impala.Lib.FloatArith
import Impala.Util.MinMaxFilter

/-!
Merging min-max filters (util/min-max-filter.cc): the in-memory `Or` of two filters,
their protobuf form (`ToProtobuf`, the protobuf constructors behind `Create`), the
protobuf `Or` and `Copy` that dispatch on the value field of `in.min()`, and the
coordinator's aggregation of the filters the backends send
(runtime/coordinator.cc, `FilterState::ApplyUpdate`).

Every `Or` on messages replaces an always-false `out` by `in`'s bounds; the one of
`NUMERIC_MIN_MAX_FILTER_FUNCS` writes them to `bool_val`, behind a `DCHECK` that `out`
already holds the filter's own field, which no always-false message has. The
coordinator copies into an always-false aggregate instead, and its aggregate of `INT`
filters passes every value some backend's filter passed (`FilterState.applyUpdates_sound`).

An always-true filter merged into an always-false numeric filter does not clear the
latter's bounds: in memory the result is both always-true and always-false, and through
messages it is rebuilt as always-false (`NumericMinMaxFilter.or_alwaysTrue_keeps_alwaysFalse`).
-/

set_option autoImplicit false

namespace Impala.MinMaxFilter

open FloatArith

/-! ## Messages -/

/-- `ColumnValuePB`: each value field is set or not. -/
structure ColumnValuePB where
  boolVal : Option Bool := none
  byteVal : Option Int := none
  shortVal : Option Int := none
  intVal : Option Int := none
  longVal : Option Int := none
  doubleVal : Option Fp := none
  stringVal : Option Bytes := none
  timestampVal : Option Bytes := none
  dateVal : Option Int := none
  decimalVal : Option Bytes := none
  deriving DecidableEq, Repr

/-- One value field of `ColumnValuePB`: the accessor `x_val()` answers `default` when
the field is unset, and `set_x_val` sets it. -/
structure Field (α : Type) where
  get : ColumnValuePB → Option α
  set : ColumnValuePB → α → ColumnValuePB
  default : α
  get_set : ∀ v x, get (set v x) = some x

namespace Field

variable {α : Type}

def val (F : Field α) (v : ColumnValuePB) : α := (F.get v).getD F.default

@[simp]
theorem val_set (F : Field α) (v : ColumnValuePB) (x : α) : F.val (F.set v x) = x := by
  simp [val, F.get_set]

end Field

def boolField : Field Bool := ⟨(·.boolVal), fun v x => { v with boolVal := x }, false, fun _ _ => rfl⟩
def byteField : Field Int := ⟨(·.byteVal), fun v x => { v with byteVal := x }, 0, fun _ _ => rfl⟩
def shortField : Field Int := ⟨(·.shortVal), fun v x => { v with shortVal := x }, 0, fun _ _ => rfl⟩
def intField : Field Int := ⟨(·.intVal), fun v x => { v with intVal := x }, 0, fun _ _ => rfl⟩
def longField : Field Int := ⟨(·.longVal), fun v x => { v with longVal := x }, 0, fun _ _ => rfl⟩
def doubleField : Field Fp :=
  ⟨(·.doubleVal), fun v x => { v with doubleVal := x }, .finite false 0, fun _ _ => rfl⟩
def stringField : Field Bytes :=
  ⟨(·.stringVal), fun v x => { v with stringVal := x }, [], fun _ _ => rfl⟩
def timestampField : Field Bytes :=
  ⟨(·.timestampVal), fun v x => { v with timestampVal := x }, [], fun _ _ => rfl⟩
def dateField : Field Int := ⟨(·.dateVal), fun v x => { v with dateVal := x }, 0, fun _ _ => rfl⟩
def decimalField : Field Bytes :=
  ⟨(·.decimalVal), fun v x => { v with decimalVal := x }, [], fun _ _ => rfl⟩

/-- `MinMaxFilterPB`; an unset flag reads `false`. -/
structure MinMaxFilterPB where
  alwaysTrue : Bool := false
  alwaysFalse : Bool := false
  min : Option ColumnValuePB := none
  max : Option ColumnValuePB := none
  deriving DecidableEq, Repr

namespace MinMaxFilterPB

variable {α : Type}

def minVal (p : MinMaxFilterPB) : ColumnValuePB := p.min.getD {}

def maxVal (p : MinMaxFilterPB) : ColumnValuePB := p.max.getD {}

def setMin (F : Field α) (p : MinMaxFilterPB) (x : α) : MinMaxFilterPB :=
  { p with min := some (F.set p.minVal x) }

def setMax (F : Field α) (p : MinMaxFilterPB) (x : α) : MinMaxFilterPB :=
  { p with max := some (F.set p.maxVal x) }

@[simp] theorem setMin_alwaysTrue (F : Field α) (p : MinMaxFilterPB) (x : α) :
    (p.setMin F x).alwaysTrue = p.alwaysTrue := rfl
@[simp] theorem setMin_alwaysFalse (F : Field α) (p : MinMaxFilterPB) (x : α) :
    (p.setMin F x).alwaysFalse = p.alwaysFalse := rfl
@[simp] theorem setMax_alwaysTrue (F : Field α) (p : MinMaxFilterPB) (x : α) :
    (p.setMax F x).alwaysTrue = p.alwaysTrue := rfl
@[simp] theorem setMax_alwaysFalse (F : Field α) (p : MinMaxFilterPB) (x : α) :
    (p.setMax F x).alwaysFalse = p.alwaysFalse := rfl
@[simp] theorem val_minVal_setMin (F : Field α) (p : MinMaxFilterPB) (x : α) :
    F.val (p.setMin F x).minVal = x := by simp [setMin, minVal]
@[simp] theorem val_maxVal_setMax (F : Field α) (p : MinMaxFilterPB) (x : α) :
    F.val (p.setMax F x).maxVal = x := by simp [setMax, maxVal]
@[simp] theorem minVal_setMax (F : Field α) (p : MinMaxFilterPB) (x : α) :
    (p.setMax F x).minVal = p.minVal := rfl
@[simp] theorem maxVal_setMin (F : Field α) (p : MinMaxFilterPB) (x : α) :
    (p.setMin F x).maxVal = p.maxVal := rfl

end MinMaxFilterPB

open MinMaxFilterPB

/-! ## `Or` and `Copy` on messages -/

section Families

variable {α : Type}

def stdMin (lt : α → α → Bool) (a b : α) : α := if lt b a then b else a

def stdMax (lt : α → α → Bool) (a b : α) : α := if lt a b then b else a

@[simp]
theorem stdMin_decide_lt [LinearOrder α] (a b : α) : stdMin (fun a b => decide (a < b)) a b = min a b := by
  by_cases h : b < a
  · simp [stdMin, h, min_eq_right h.le]
  · simp [stdMin, h, min_eq_left (not_lt.1 h)]

@[simp]
theorem stdMax_decide_lt [LinearOrder α] (a b : α) : stdMax (fun a b => decide (a < b)) a b = max a b := by
  by_cases h : a < b
  · simp [stdMax, h, max_eq_right h.le]
  · simp [stdMax, h, max_eq_left (not_lt.1 h)]

/-- `Or` of `NUMERIC_MIN_MAX_FILTER_FUNCS`, for the value field `F` and its order `lt`.
An always-false `out` gets `in`'s bounds, converted to `bool`, in `bool_val`. -/
def numericOr (F : Field α) (lt : α → α → Bool) (toBool : α → Bool) (inp out : MinMaxFilterPB) :
    MinMaxFilterPB :=
  if out.alwaysFalse then
    { (out.setMin boolField (toBool (F.val inp.minVal))).setMax boolField
        (toBool (F.val inp.maxVal)) with alwaysFalse := false }
  else if inp.alwaysTrue || out.alwaysTrue then { out with alwaysTrue := true }
  else
    (out.setMin F (stdMin lt (F.val inp.minVal) (F.val out.minVal))).setMax F
      (stdMax lt (F.val inp.maxVal) (F.val out.maxVal))

/-- `Or` of `StringMinMaxFilter` and of `DATE_TIME_MIN_MAX_FILTER_FUNCS`, for the field
`F` and the order `lt` of the values it decodes to. -/
def flaggedOr (F : Field α) (lt : α → α → Bool) (inp out : MinMaxFilterPB) : MinMaxFilterPB :=
  if out.alwaysFalse then
    { (out.setMin F (F.val inp.minVal)).setMax F (F.val inp.maxVal) with alwaysFalse := false }
  else if inp.alwaysTrue || out.alwaysTrue then { out with alwaysTrue := true }
  else
    let out := if lt (F.val inp.minVal) (F.val out.minVal) then out.setMin F (F.val inp.minVal)
      else out
    if lt (F.val out.maxVal) (F.val inp.maxVal) then out.setMax F (F.val inp.maxVal) else out

def copyField (F : Field α) (inp out : MinMaxFilterPB) : MinMaxFilterPB :=
  (out.setMin F (F.val inp.minVal)).setMax F (F.val inp.maxVal)

end Families

def intToBool (x : Int) : Bool := x != 0

def Fp.toBool : Fp → Bool
  | .finite _ m => m != 0
  | _ => true

def BoolMinMaxFilter.orProtobuf := numericOr boolField (fun a b => !a && b) id
def TinyIntMinMaxFilter.orProtobuf := numericOr byteField (fun a b => decide (a < b)) intToBool
def SmallIntMinMaxFilter.orProtobuf := numericOr shortField (fun a b => decide (a < b)) intToBool
def IntMinMaxFilter.orProtobuf := numericOr intField (fun a b => decide (a < b)) intToBool
def BigIntMinMaxFilter.orProtobuf := numericOr longField (fun a b => decide (a < b)) intToBool
def DoubleMinMaxFilter.orProtobuf := numericOr doubleField Fp.lt Fp.toBool
def StringMinMaxFilter.orProtobuf := flaggedOr stringField StringValue.lt
def TimestampMinMaxFilter.orProtobuf (ltTimestamp : Bytes → Bytes → Bool) :=
  flaggedOr timestampField ltTimestamp
def DateMinMaxFilter.orProtobuf := flaggedOr dateField (fun a b => decide (a < b))

/-- `DecimalMinMaxFilter::Or`, which also returns first on an always-false `in`;
`ltDecimal` orders the values `DecimalNValue::FromColumnValuePB` decodes at the
column's precision. -/
def DecimalMinMaxFilter.orProtobuf (ltDecimal : Bytes → Bytes → Bool) (inp out : MinMaxFilterPB) :
    MinMaxFilterPB :=
  if inp.alwaysFalse then out
  else if out.alwaysFalse then
    { (out.setMin decimalField (decimalField.val inp.minVal)).setMax decimalField
        (decimalField.val inp.maxVal) with alwaysFalse := false }
  else if inp.alwaysTrue || out.alwaysTrue then { out with alwaysTrue := true }
  else
    let out := if ltDecimal (decimalField.val inp.minVal) (decimalField.val out.minVal) then
        out.setMin decimalField (decimalField.val inp.minVal)
      else out
    if ltDecimal (decimalField.val out.maxVal) (decimalField.val inp.maxVal) then
      out.setMax decimalField (decimalField.val inp.maxVal)
    else out

/-- `MinMaxFilter::Or(in, out, column_type)`: the first field set in `in.min()` chooses
the filter type. `FLOAT` filters travel as `double_val`. -/
def orProtobuf (ltTimestamp ltDecimal : Bytes → Bytes → Bool) (inp out : MinMaxFilterPB) :
    MinMaxFilterPB :=
  if inp.alwaysFalse || out.alwaysTrue then out
  else if inp.alwaysTrue then { out with alwaysTrue := true }
  else if (boolField.get inp.minVal).isSome then BoolMinMaxFilter.orProtobuf inp out
  else if (byteField.get inp.minVal).isSome then TinyIntMinMaxFilter.orProtobuf inp out
  else if (shortField.get inp.minVal).isSome then SmallIntMinMaxFilter.orProtobuf inp out
  else if (intField.get inp.minVal).isSome then IntMinMaxFilter.orProtobuf inp out
  else if (longField.get inp.minVal).isSome then BigIntMinMaxFilter.orProtobuf inp out
  else if (doubleField.get inp.minVal).isSome then DoubleMinMaxFilter.orProtobuf inp out
  else if (stringField.get inp.minVal).isSome then StringMinMaxFilter.orProtobuf inp out
  else if (timestampField.get inp.minVal).isSome then
    TimestampMinMaxFilter.orProtobuf ltTimestamp inp out
  else if (dateField.get inp.minVal).isSome then DateMinMaxFilter.orProtobuf inp out
  else if (decimalField.get inp.minVal).isSome then
    DecimalMinMaxFilter.orProtobuf ltDecimal inp out
  else out

/-- `MinMaxFilter::Copy(in, out)`: the flags, then the bounds of the field set in
`in.min()`. -/
def copy (inp out : MinMaxFilterPB) : MinMaxFilterPB :=
  let out := { out with alwaysFalse := inp.alwaysFalse, alwaysTrue := inp.alwaysTrue }
  if inp.alwaysFalse || inp.alwaysTrue then out
  else if (boolField.get inp.minVal).isSome then copyField boolField inp out
  else if (byteField.get inp.minVal).isSome then copyField byteField inp out
  else if (shortField.get inp.minVal).isSome then copyField shortField inp out
  else if (intField.get inp.minVal).isSome then copyField intField inp out
  else if (longField.get inp.minVal).isSome then copyField longField inp out
  else if (doubleField.get inp.minVal).isSome then copyField doubleField inp out
  else if (stringField.get inp.minVal).isSome then copyField stringField inp out
  else if (timestampField.get inp.minVal).isSome then copyField timestampField inp out
  else if (dateField.get inp.minVal).isSome then copyField dateField inp out
  else if (decimalField.get inp.minVal).isSome then copyField decimalField inp out
  else out

/-! ## Numeric filters and their messages -/

namespace NumericMinMaxFilter

variable {α : Type} [LinearOrder α] (L : Limits α)

/-- `ToProtobuf`: the bounds, in field `F`, of a filter neither always-false nor
always-true, and the two flags. -/
def toProtobuf (F : Field α) (s : State α) : MinMaxFilterPB :=
  let p : MinMaxFilterPB :=
    if !alwaysFalse L s && !s.alwaysTrue then (({} : MinMaxFilterPB).setMin F s.min).setMax F s.max
    else {}
  { p with alwaysFalse := alwaysFalse L s, alwaysTrue := s.alwaysTrue }

/-- The constructor from a message, as `MinMaxFilter::Create` calls it. An always-true
message leaves `min_` and `max_` as they were, here `uninit`. -/
def ofProtobuf (F : Field α) (uninit : α × α) (p : MinMaxFilterPB) : State α :=
  if p.alwaysFalse then ⟨L.max, L.lowest, false⟩
  else if p.alwaysTrue then ⟨uninit.1, uninit.2, true⟩
  else ⟨F.val p.minVal, F.val p.maxVal, false⟩

/-- The in-memory `MinMaxFilter::Or(other)`: nothing for an always-false `other`,
`SetAlwaysTrue()` for an always-true one, else `Insert` of its two bounds. -/
def or (s other : State α) : State α :=
  if alwaysFalse L other then s
  else if other.alwaysTrue then { s with alwaysTrue := true }
  else insert (insert s other.min) other.max

def Passes (s : State α) (S : Set α) : Prop := s.alwaysTrue = true ∨ ∀ t ∈ S, Covers s t

theorem insert_min_le (s : State α) (v : α) : (insert s v).min ≤ v ∧ (insert s v).min ≤ s.min := by
  simp only [insert]
  split_ifs with h
  · exact ⟨le_rfl, h.le⟩
  · exact ⟨not_lt.1 h, le_rfl⟩

theorem le_insert_max (s : State α) (v : α) : v ≤ (insert s v).max ∧ s.max ≤ (insert s v).max := by
  simp only [insert]
  split_ifs with h
  · exact ⟨le_rfl, h.le⟩
  · exact ⟨not_lt.1 h, le_rfl⟩

@[simp] theorem insert_alwaysTrue (s : State α) (v : α) : (insert s v).alwaysTrue = s.alwaysTrue :=
  rfl

theorem covers_insert_insert {s : State α} {v w t : α} (h : (v ≤ t ∧ t ≤ w) ∨ Covers s t) :
    Covers (insert (insert s v) w) t := by
  obtain ⟨hv, hs⟩ := insert_min_le s v
  obtain ⟨hw, hs'⟩ := le_insert_max s v
  obtain ⟨hv', hm⟩ := insert_min_le (insert s v) w
  obtain ⟨hw', hm'⟩ := le_insert_max (insert s v) w
  rcases h with ⟨h1, h2⟩ | ⟨h1, h2⟩
  · exact ⟨by order, by order⟩
  · exact ⟨by order, by order⟩

theorem or_sound (hL : L.Exact) {s other : State α} {S S' : Set α}
    (hS : ∀ t ∈ S, Covers s t) (hS' : ∀ t ∈ S', L.InRange t ∧ Covers other t) :
    Passes (or L s other) (S ∪ S') := by
  unfold or
  split_ifs with hf ht
  · refine .inr fun t ht' => ?_
    rcases ht' with h | h
    · exact hS t h
    · have := alwaysFalse_false hL (hS' t h).2
      simp_all
  · exact .inl rfl
  · refine .inr fun t ht' => covers_insert_insert ?_
    rcases ht' with h | h
    · exact .inr (hS t h)
    · exact .inl (hS' t h).2

/-- Filters built by runs of calls on two nodes and merged in memory with `Or` pass every value
of the column type that qualifies for a call of either run, for every type whose limits are
exact. -/
theorem or_run_sound (hL : L.Exact) (calls calls' : List (Call α)) :
    Passes (or L (run L calls) (run L calls'))
      ({t | L.InRange t ∧ ∃ c ∈ calls, c.Qualifies t} ∪
        {t | L.InRange t ∧ ∃ c ∈ calls', c.Qualifies t}) :=
  or_sound L hL (fun t ht => run_covers L hL calls t ht.1 ht.2)
    (fun t ht => ⟨ht.1, run_covers L hL calls' t ht.1 ht.2⟩)

theorem or_run_sound_int :
    Passes (or IntMinMaxFilter.limits (run IntMinMaxFilter.limits [⟨.insert, some 3⟩])
        (run IntMinMaxFilter.limits [⟨.insertForLT, some 10⟩]))
      ({t | IntMinMaxFilter.limits.InRange t ∧ ∃ c ∈ [⟨.insert, some 3⟩], Call.Qualifies c t} ∪
        {t | IntMinMaxFilter.limits.InRange t ∧
          ∃ c ∈ [⟨.insertForLT, some 10⟩], Call.Qualifies c t}) :=
  or_run_sound _ (intLimits_exact (by decide)) _ _

@[simp] theorem toProtobuf_alwaysFalse (F : Field α) (s : State α) :
    (toProtobuf L F s).alwaysFalse = alwaysFalse L s := rfl

@[simp] theorem toProtobuf_alwaysTrue (F : Field α) (s : State α) :
    (toProtobuf L F s).alwaysTrue = s.alwaysTrue := rfl

theorem toProtobuf_bounds (F : Field α) {s : State α} (hf : alwaysFalse L s = false)
    (ht : s.alwaysTrue = false) :
    F.val (toProtobuf L F s).minVal = s.min ∧ F.val (toProtobuf L F s).maxVal = s.max := by
  simp [toProtobuf, hf, ht, minVal, maxVal, setMin, setMax]

theorem ofProtobuf_toProtobuf (F : Field α) (uninit : α × α) {s : State α}
    (ht : s.alwaysTrue = false) : ofProtobuf L F uninit (toProtobuf L F s) = s := by
  obtain ⟨lo, hi, a⟩ := s
  subst ht
  cases hf : alwaysFalse L ⟨lo, hi, false⟩
  · obtain ⟨h1, h2⟩ := toProtobuf_bounds L F hf rfl
    simp [ofProtobuf, hf, h1, h2]
  · have ⟨h1, h2⟩ : lo = L.max ∧ hi = L.lowest := by simpa [alwaysFalse] using hf
    subst h1 h2
    simp [ofProtobuf, hf]

end NumericMinMaxFilter

/-! ## The coordinator's aggregate -/

namespace FilterState

def init : MinMaxFilterPB := { alwaysFalse := true }

/-- The min-max part of `FilterState::ApplyUpdate`: an always-true update disables the
filter (`Disable` sets `always_true` and clears `always_false`), an always-false one
changes nothing, and otherwise the update is copied into an always-false aggregate and
or-ed into any other. -/
def applyUpdate (ltTimestamp ltDecimal : Bytes → Bytes → Bool) (acc update : MinMaxFilterPB) :
    MinMaxFilterPB :=
  if update.alwaysTrue then { acc with alwaysTrue := true, alwaysFalse := false }
  else if update.alwaysFalse then acc
  else if acc.alwaysFalse then copy update acc
  else orProtobuf ltTimestamp ltDecimal update acc

/-- The aggregate passes every value of `S`: it is disabled, or it is always-false and
`S` is empty, or its `int_val` bounds contain `S`. -/
def Passes (p : MinMaxFilterPB) (S : Set Int) : Prop :=
  (p.alwaysTrue = true ∧ p.alwaysFalse = false) ∨
    (p.alwaysFalse = true ∧ p.alwaysTrue = false ∧ S = ∅) ∨
    (p.alwaysFalse = false ∧ p.alwaysTrue = false ∧
      ∀ t ∈ S, intField.val p.minVal ≤ t ∧ t ≤ intField.val p.maxVal)

open NumericMinMaxFilter

theorem toProtobuf_int {s : State Int} (hf : alwaysFalse IntMinMaxFilter.limits s = false)
    (ht : s.alwaysTrue = false) :
    toProtobuf IntMinMaxFilter.limits intField s =
      ⟨false, false, some { intVal := some s.min }, some { intVal := some s.max }⟩ := by
  simp [toProtobuf, hf, ht, setMin, setMax, minVal, maxVal, intField]

theorem copy_int (lo hi : Int) (acc : MinMaxFilterPB) :
    copy ⟨false, false, some { intVal := some lo }, some { intVal := some hi }⟩ acc =
      copyField intField ⟨false, false, some { intVal := some lo }, some { intVal := some hi }⟩
        { acc with alwaysFalse := false, alwaysTrue := false } := by
  simp [copy, boolField, byteField, shortField, intField, minVal]

theorem orProtobuf_int (ltTimestamp ltDecimal : Bytes → Bytes → Bool) (lo hi : Int)
    {acc : MinMaxFilterPB} (hat : acc.alwaysTrue = false) :
    orProtobuf ltTimestamp ltDecimal ⟨false, false, some { intVal := some lo },
        some { intVal := some hi }⟩ acc =
      IntMinMaxFilter.orProtobuf ⟨false, false, some { intVal := some lo },
        some { intVal := some hi }⟩ acc := by
  simp [orProtobuf, hat, boolField, byteField, shortField, intField, minVal]

theorem applyUpdate_passes (ltTimestamp ltDecimal : Bytes → Bytes → Bool)
    {acc : MinMaxFilterPB} {S Su : Set Int} {s : State Int} (hacc : Passes acc S)
    (hs : ∀ t ∈ Su, IntMinMaxFilter.limits.InRange t ∧ Covers s t) :
    Passes (applyUpdate ltTimestamp ltDecimal acc (toProtobuf IntMinMaxFilter.limits intField s))
      (S ∪ Su) := by
  unfold applyUpdate
  cases ht : s.alwaysTrue
  case true => exact .inl ⟨by simp [ht], by simp [ht]⟩
  cases hf : alwaysFalse IntMinMaxFilter.limits s
  case true =>
    have hSu : Su = ∅ := Set.eq_empty_of_forall_notMem fun t h => by
      have hL : IntMinMaxFilter.limits.Exact := intLimits_exact (by decide)
      have := alwaysFalse_false hL (hs t h).2
      simp_all
    simpa [ht, hf, hSu] using hacc
  rw [toProtobuf_int hf ht]
  rcases hacc with ⟨hat, haf⟩ | ⟨haf, hat, rfl⟩ | ⟨haf, hat, hb⟩
  · exact .inl (by simp [orProtobuf, hat, haf])
  · refine .inr (.inr ⟨by simp [haf, copy_int, copyField],
      by simp [haf, copy_int, copyField], fun t h => ?_⟩)
    simp only [Set.empty_union] at h
    have := (hs t h).2
    simpa [haf, copy_int, copyField, intField, Field.val, minVal, maxVal, setMin, setMax, Covers]
      using this
  · simp only [haf, Bool.false_eq_true, if_false, orProtobuf_int ltTimestamp ltDecimal _ _ hat]
    refine .inr (.inr ⟨by simp [IntMinMaxFilter.orProtobuf, numericOr, haf, hat],
      by simp [IntMinMaxFilter.orProtobuf, numericOr, haf, hat], fun t h => ?_⟩)
    have hcov : (intField.val acc.minVal ≤ t ∧ t ≤ intField.val acc.maxVal) ∨
        (s.min ≤ t ∧ t ≤ s.max) := h.imp (hb t) (fun h => (hs t h).2)
    simp only [IntMinMaxFilter.orProtobuf, numericOr, haf, hat, Bool.false_eq_true, if_false,
      Bool.or_false, val_minVal_setMin, minVal_setMax, val_maxVal_setMax, stdMin_decide_lt,
      stdMax_decide_lt]
    simp only [intField, Field.val, minVal, maxVal, Option.getD_some] at hcov ⊢
    omega

theorem foldl_applyUpdate_passes (ltTimestamp ltDecimal : Bytes → Bytes → Bool) :
    ∀ (updates : List (State Int × Set Int)),
      (∀ u ∈ updates, ∀ t ∈ u.2, IntMinMaxFilter.limits.InRange t ∧ Covers u.1 t) →
      ∀ (acc : MinMaxFilterPB) (S : Set Int), Passes acc S →
      Passes (updates.foldl (fun acc u => applyUpdate ltTimestamp ltDecimal acc
          (toProtobuf IntMinMaxFilter.limits intField u.1)) acc)
        (S ∪ {t | ∃ u ∈ updates, t ∈ u.2})
  | [], _, acc, S, h => by simpa using h
  | u :: us, hu, acc, S, h => by
    have hstep := applyUpdate_passes ltTimestamp ltDecimal h (hu u List.mem_cons_self)
    have hrest := foldl_applyUpdate_passes ltTimestamp ltDecimal us
      (fun v hv => hu v (List.mem_cons_of_mem _ hv)) _ _ hstep
    have hset : S ∪ u.2 ∪ {t | ∃ v ∈ us, t ∈ v.2} = S ∪ {t | ∃ v ∈ u :: us, t ∈ v.2} := by
      ext t
      simp only [Set.mem_union, Set.mem_ofPred_eq, List.mem_cons, exists_eq_or_imp]
      tauto
    rw [List.foldl_cons, ← hset]
    exact hrest

theorem ofProtobuf_passes (uninit : Int × Int) {p : MinMaxFilterPB} {S : Set Int}
    (h : Passes p S) :
    NumericMinMaxFilter.Passes (ofProtobuf IntMinMaxFilter.limits intField uninit p) S := by
  rcases h with ⟨ht, hf⟩ | ⟨hf, ht, rfl⟩ | ⟨hf, ht, hb⟩
  · exact .inl (by simp [ofProtobuf, ht, hf])
  · exact .inr fun _ h => h.elim
  · exact .inr fun t h => by simpa [ofProtobuf, hf, ht, Covers] using hb t h

theorem applyUpdates_sound (ltTimestamp ltDecimal : Bytes → Bytes → Bool) (uninit : Int × Int)
    (updates : List (State Int × Set Int))
    (hu : ∀ u ∈ updates, ∀ t ∈ u.2, IntMinMaxFilter.limits.InRange t ∧ Covers u.1 t) :
    NumericMinMaxFilter.Passes (ofProtobuf IntMinMaxFilter.limits intField uninit
        (updates.foldl (fun acc u => applyUpdate ltTimestamp ltDecimal acc
          (toProtobuf IntMinMaxFilter.limits intField u.1)) init))
      {t | ∃ u ∈ updates, t ∈ u.2} := by
  have hinit : Passes init ∅ := .inr (.inl ⟨rfl, rfl, rfl⟩)
  have h := foldl_applyUpdate_passes ltTimestamp ltDecimal updates hu init ∅ hinit
  rw [Set.empty_union] at h
  exact ofProtobuf_passes uninit h

end FilterState

/-! ## Merging into an always-false filter -/

namespace NumericMinMaxFilter

variable {α : Type} [LinearOrder α] (L : Limits α)

theorem alwaysFalse_insert_create (hL : L.lowest < L.max) (v : α) :
    alwaysFalse L (insert (create L) v) = false := by
  by_cases hv : v < L.max
  · simp [alwaysFalse, insert, create, hv, hv.ne]
  · have hlv : L.lowest < v := lt_of_lt_of_le hL (not_lt.1 hv)
    simp [alwaysFalse, insert, create, hv, hlv, hlv.ne']

/-- `f` has no value; `g` was given `v` and disabled by `SetAlwaysTrue`. The in-memory
`f.Or(g)` sets `always_true_` and keeps `f`'s bounds, so the result is still
always-false. `Or(pg, &pf)` of their messages sets `always_true` beside `pf`'s
`always_false`, and the protobuf constructor, which reads `always_false` first, builds
an always-false filter that is not always-true and covers no value. -/
theorem or_alwaysTrue_keeps_alwaysFalse (hL : L.lowest < L.max) (F : Field α)
    (uninit : α × α) (ltTimestamp ltDecimal : Bytes → Bytes → Bool) (v : α) :
    let f := create L
    let g : State α := { insert (create L) v with alwaysTrue := true }
    alwaysFalse L f = true ∧ alwaysFalse L g = false ∧ g.alwaysTrue = true ∧
      alwaysFalse L (or L f g) = true ∧
      let h := ofProtobuf L F uninit
        (orProtobuf ltTimestamp ltDecimal (toProtobuf L F g) (toProtobuf L F f))
      alwaysFalse L h = true ∧ h.alwaysTrue = false ∧ ¬ Covers h v := by
  have hf : alwaysFalse L (create L) = true := by simp [alwaysFalse, create]
  have hg : alwaysFalse L { insert (create L) v with alwaysTrue := true } = false :=
    alwaysFalse_insert_create L hL v
  have hmsg : orProtobuf ltTimestamp ltDecimal
      (toProtobuf L F { insert (create L) v with alwaysTrue := true }) (toProtobuf L F (create L)) =
        { toProtobuf L F (create L) with alwaysTrue := true } := by
    have hct : (create L).alwaysTrue = false := rfl
    simp [orProtobuf, hg, hf, hct]
  have hor : or L (create L) { insert (create L) v with alwaysTrue := true } =
      { create L with alwaysTrue := true } := by
    unfold or
    rw [if_neg (by simp [hg]), if_pos rfl]
  have hof : ofProtobuf L F uninit { toProtobuf L F (create L) with alwaysTrue := true } =
      ⟨L.max, L.lowest, false⟩ := by
    simp [ofProtobuf, hf]
  intro f g
  refine ⟨hf, hg, rfl, by rw [hor]; exact hf, ?_⟩
  intro h
  have hh : h = ⟨L.max, L.lowest, false⟩ := by rw [← hof, ← hmsg]
  rw [hh]
  exact ⟨by simp [alwaysFalse], rfl, fun h => absurd (le_trans h.1 h.2) (not_le.2 hL)⟩

end NumericMinMaxFilter

theorem or_alwaysTrue_keeps_alwaysFalse_int :
    IntMinMaxFilter.limits.lowest < IntMinMaxFilter.limits.max ∧
      NumericMinMaxFilter.alwaysFalse IntMinMaxFilter.limits
        (NumericMinMaxFilter.or IntMinMaxFilter.limits
          (NumericMinMaxFilter.create IntMinMaxFilter.limits)
          { NumericMinMaxFilter.insert (NumericMinMaxFilter.create IntMinMaxFilter.limits) 5 with
            alwaysTrue := true }) = true ∧
      ¬ NumericMinMaxFilter.Covers (NumericMinMaxFilter.ofProtobuf IntMinMaxFilter.limits intField
        (0, 0) (orProtobuf (fun _ _ => false) (fun _ _ => false)
          (NumericMinMaxFilter.toProtobuf IntMinMaxFilter.limits intField
            { NumericMinMaxFilter.insert (NumericMinMaxFilter.create IntMinMaxFilter.limits) 5 with
              alwaysTrue := true })
          (NumericMinMaxFilter.toProtobuf IntMinMaxFilter.limits intField
            (NumericMinMaxFilter.create IntMinMaxFilter.limits)))) 5 := by
  have hL : IntMinMaxFilter.limits.lowest < IntMinMaxFilter.limits.max := by decide
  have h := NumericMinMaxFilter.or_alwaysTrue_keeps_alwaysFalse IntMinMaxFilter.limits hL intField
    (0, 0) (fun _ _ => false) (fun _ _ => false) 5
  exact ⟨hL, h.2.2.2.1, h.2.2.2.2.2.2⟩

end Impala.MinMaxFilter
