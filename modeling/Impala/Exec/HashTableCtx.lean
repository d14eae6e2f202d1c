import Impala.Runtime.RawValue

/-!
Evaluating and hashing the keys of a row (exec/hash-table.h, hash-table.cc:
`HashTableCtx::EvalRow`, `HashRow`, `HashVariableLenRow`, `Hash`, `Equals`;
exprs/scalar-expr.cc: `ScalarExprsResultsRowLayout`).

`EvalRow` writes the canonical value of each key into its slot of a row of the
expression-values cache; a NULL sets the key's flag and writes the bytes of
`NULL_VALUE`. The slots are laid out fixed-width ones first, by size, then the
strings. `HashRow` hashes the fixed-width slots as one block of bytes and then each
string by its content. `Equals` compares the values of a build row with a cached
row.

A build row that `Equals<true>` finds equal to the cached row of another leaves,
evaluated itself, the very same cached row; so the two rows hash alike for every
hash function and seed, which is what lets equal keys meet in one probe sequence.
-/

set_option autoImplicit false

namespace Impala.HashTableCtx

open RawValue

/-- A key: the type of its build expression, and `finds_nulls_`, whether NULL
matches NULL on it. -/
structure KeyExpr where
  type : ColumnType
  findsNulls : Bool
  deriving DecidableEq, Repr

/-- `NULL_VALUE`: 32 `int64_t`s holding `HashUtil::FNV_SEED = 0x811C9DC5`, in memory
order. -/
def nullValue : Bytes := (List.replicate 32 [0xC5, 0x9D, 0x1C, 0x81, 0, 0, 0, 0]).flatten

/-- The slot `EvalRow` writes for what `GetValue` returned (`none` is NULL): the
value, or `NULL_VALUE`, canonicalized and copied. -/
def writtenValue (t : ColumnType) (v : Option Value) : Value :=
  writeNonNullPrimitive (canonicalValue (v.getD (.fixed nullValue)) t) t

/-- `HashTableCtx::EvalRow`: the values and NULL flags written for the keys, or
`none` when it returns at a NULL before writing the rest, in a table that does not
store NULLs. -/
def evalRow (storesNulls : Bool) : List KeyExpr → List (Option Value) →
    Option (List Value × List Bool)
  | e :: es, v :: vs =>
    if v.isNone && !storesNulls then none
    else (evalRow storesNulls es vs).map fun r => (writtenValue e.type v :: r.1, v.isNone :: r.2)
  | _, _ => some ([], [])

/-- `HashTableCtx::Equals<INCLUSIVE_EQUALITY>` of the values of a build row with a
cached row's values and NULL flags. -/
def equals (inclusive : Bool) : List KeyExpr → List (Option Value) → List Value → List Bool →
    Bool
  | e :: es, v :: vs, loc :: locs, isNull :: nulls =>
    match v with
    | none =>
      if !(inclusive || e.findsNulls) then false
      else if !isNull then false
      else equals inclusive es vs locs nulls
    | some val =>
      if isNull then false
      else if !RawValue.eq loc val e.type then
        if inclusive && RawValue.isNaN val e.type && RawValue.isNaN loc e.type then
          equals inclusive es vs locs nulls
        else false
      else equals inclusive es vs locs nulls
  | _, _, _, _ => true

/-- `MemLayoutData::operator<` as an order: fixed-width values before the strings,
then by size. -/
def memLayoutLE (a b : KeyExpr) : Bool :=
  if a.type.isVarLenStringType != b.type.isVarLenStringType then !a.type.isVarLenStringType
  else a.type.getSlotSize ≤ b.type.getSlotSize

/-- `ScalarExprsResultsRowLayout`: the keys with their indices, in the order of their
slots in a row of the cache. -/
def resultsLayout (es : List KeyExpr) : List (KeyExpr × Nat) :=
  es.zipIdx.mergeSort fun a b => memLayoutLE a.1 b.1

def hash (crc murmur : Bytes → UInt32 → UInt32) (level : Nat) : Bytes → UInt32 → UInt32 :=
  if level = 0 then crc else murmur

/-- `HashTableCtx::HashRow` with `Hash` and `seeds_[level_]` of the level: the whole row
when there are no strings, and `HashVariableLenRow` otherwise. -/
def hashRow (hash : Bytes → UInt32 → UInt32) (seed : UInt32) (es : List KeyExpr)
    (vals : List Value) (nulls : List Bool) : UInt32 :=
  let layout := resultsLayout es
  let slot (i : Nat) : Value := vals.getD i (.fixed [])
  if es.any (·.type.isVarLenStringType) then
    let fixedSlots := layout.takeWhile fun p => !p.1.type.isVarLenStringType
    let h := if fixedSlots.isEmpty then seed
      else hash (fixedSlots.flatMap fun p => (slot p.2).fixedBytes) seed
    es.zipIdx.foldl (fun h p =>
      if p.1.type.isVarLenStringType then
        if nulls.getD p.2 false then hash ((slot p.2).fixedBytes.take 12) h
        else hash (slot p.2).stringBytes h
      else h) h
  else hash (layout.flatMap fun p => (slot p.2).fixedBytes) seed

def rowFits : List KeyExpr → List (Option Value) → Bool
  | e :: es, v :: vs => v.all (·.fits e.type) && rowFits es vs
  | [], [] => true
  | _, _ => false

/-! ## Equal keys are cached alike -/

section Equal

variable {storesNulls : Bool}

theorem evalRow_cons {e : KeyExpr} {es : List KeyExpr} {v : Option Value}
    {vs : List (Option Value)} {c : List Value × List Bool}
    (h : evalRow storesNulls (e :: es) (v :: vs) = some c) :
    ∃ r, evalRow storesNulls es vs = some r ∧
      c = (writtenValue e.type v :: r.1, v.isNone :: r.2) := by
  unfold evalRow at h
  split_ifs at h
  obtain ⟨r, hr, rfl⟩ := Option.map_eq_some_iff.1 h
  exact ⟨r, hr, rfl⟩

theorem equals_cons {e : KeyExpr} {es : List KeyExpr} {v : Option Value}
    {vs : List (Option Value)} {loc : Value} {locs : List Value} {isNull : Bool}
    {nulls : List Bool} (h : equals true (e :: es) (v :: vs) (loc :: locs) (isNull :: nulls) = true) :
    (v = none → isNull = true) ∧
      (∀ val, v = some val → isNull = false ∧
        (RawValue.eq loc val e.type = true ∨
          (RawValue.isNaN val e.type = true ∧ RawValue.isNaN loc e.type = true))) ∧
      equals true es vs locs nulls = true := by
  cases v with
  | none =>
    cases isNull
    · simp [equals] at h
    · simp only [equals, Bool.true_or, Bool.not_true, Bool.false_eq_true, if_false] at h
      refine ⟨fun _ => rfl, ?_, h⟩
      rintro _ ⟨⟩
  | some val =>
    cases isNull
    · cases hq : RawValue.eq loc val e.type
      · simp only [equals, hq, Bool.not_false, Bool.true_and, Bool.false_eq_true, if_false,
          if_true] at h
        split_ifs at h with hnan
        simp only [Bool.and_eq_true] at hnan
        refine ⟨nofun, ?_, h⟩
        rintro _ ⟨⟩
        exact ⟨rfl, Or.inr hnan⟩
      · simp only [equals, hq, Bool.not_true, Bool.false_eq_true, if_false] at h
        refine ⟨nofun, ?_, h⟩
        rintro _ ⟨⟩
        exact ⟨rfl, Or.inl hq⟩
    · simp [equals] at h

theorem writtenValue_eq {t : ColumnType} {x y : Option Value} (hx : x.all (·.fits t) = true)
    (hy : y.all (·.fits t) = true) (hnone : y = none → x.isNone = true)
    (hsome : ∀ val, y = some val → x.isNone = false ∧
      (RawValue.eq (writtenValue t x) val t = true ∨
        (RawValue.isNaN val t = true ∧ RawValue.isNaN (writtenValue t x) t = true))) :
    writtenValue t x = writtenValue t y ∧ x.isNone = y.isNone := by
  cases y with
  | none =>
    have hx : x = none := Option.isNone_iff_eq_none.1 (hnone rfl)
    subst hx
    exact ⟨rfl, rfl⟩
  | some b =>
    obtain ⟨hnull, heq⟩ := hsome b rfl
    cases x with
    | none => cases hnull
    | some a =>
      simp only [Option.all_some] at hx hy
      exact ⟨write_canonical_eq hx hy heq, rfl⟩

theorem evalRow_eq_of_equals :
    ∀ (es : List KeyExpr) (r1 r2 : List (Option Value)) {c1 c2 : List Value × List Bool},
      rowFits es r1 = true → rowFits es r2 = true →
      evalRow storesNulls es r1 = some c1 → evalRow storesNulls es r2 = some c2 →
      equals true es r2 c1.1 c1.2 = true → c1 = c2
  | [], r1, r2, c1, c2, hf1, hf2, h1, h2, _ => by
    cases r1 <;> cases r2 <;> simp_all [rowFits, evalRow]
  | e :: es, [], r2, _, _, hf1, _, _, _, _ => by simp [rowFits] at hf1
  | e :: es, _ :: _, [], _, _, _, hf2, _, _, _ => by simp [rowFits] at hf2
  | e :: es, x :: r1, y :: r2, c1, c2, hf1, hf2, h1, h2, heq => by
    obtain ⟨t1, ht1, rfl⟩ := evalRow_cons h1
    obtain ⟨t2, ht2, rfl⟩ := evalRow_cons h2
    simp only [rowFits, Bool.and_eq_true] at hf1 hf2
    obtain ⟨hnone, hsome, hrest⟩ := equals_cons heq
    obtain ⟨hw, hn⟩ := writtenValue_eq hf1.1 hf2.1 hnone hsome
    have ih := evalRow_eq_of_equals es r1 r2 hf1.2 hf2.2 ht1 ht2 hrest
    rw [hw, hn, ih]

/-- Rows whose keys `Equals<true>` finds equal hash alike: `HashRow` of the cached
values of one equals `HashRow` of the other's, at every level. -/
theorem hashRow_eq_of_equals (hash : Bytes → UInt32 → UInt32) (seed : UInt32)
    {es : List KeyExpr} {r1 r2 : List (Option Value)} {c1 c2 : List Value × List Bool}
    (hf1 : rowFits es r1 = true) (hf2 : rowFits es r2 = true)
    (h1 : evalRow storesNulls es r1 = some c1) (h2 : evalRow storesNulls es r2 = some c2)
    (heq : equals true es r2 c1.1 c1.2 = true) :
    hashRow hash seed es c1.1 c1.2 = hashRow hash seed es c2.1 c2.2 := by
  rw [evalRow_eq_of_equals es r1 r2 hf1 hf2 h1 h2 heq]

theorem hashRow_eq_of_equals_nan_zero :
    rowFits [⟨.float, false⟩, ⟨.double, false⟩, ⟨.string, false⟩]
        [some (.fixed [1, 0, 0xc0, 0xff]), some (.fixed [0, 0, 0, 0, 0, 0, 0, 0x80]), none] = true ∧
      rowFits [⟨.float, false⟩, ⟨.double, false⟩, ⟨.string, false⟩]
        [some (.fixed [0, 0, 0xc0, 0x7f]), some (.fixed (List.replicate 8 0)), none] = true ∧
      evalRow true [⟨.float, false⟩, ⟨.double, false⟩, ⟨.string, false⟩]
        [some (.fixed [1, 0, 0xc0, 0xff]), some (.fixed [0, 0, 0, 0, 0, 0, 0, 0x80]), none] =
        some ([.fixed canonicalFloatNaN, .fixed (List.replicate 8 0), .fixed (nullValue.take 12)],
          [false, false, true]) ∧
      evalRow true [⟨.float, false⟩, ⟨.double, false⟩, ⟨.string, false⟩]
        [some (.fixed [0, 0, 0xc0, 0x7f]), some (.fixed (List.replicate 8 0)), none] =
        some ([.fixed canonicalFloatNaN, .fixed (List.replicate 8 0), .fixed (nullValue.take 12)],
          [false, false, true]) ∧
      equals true [⟨.float, false⟩, ⟨.double, false⟩, ⟨.string, false⟩]
        [some (.fixed [0, 0, 0xc0, 0x7f]), some (.fixed (List.replicate 8 0)), none]
        [.fixed canonicalFloatNaN, .fixed (List.replicate 8 0), .fixed (nullValue.take 12)]
        [false, false, true] = true ∧
      hashRow (fun b h => h * 31 + b.length.toUInt32) 7
          [⟨.float, false⟩, ⟨.double, false⟩, ⟨.string, false⟩]
          [.fixed canonicalFloatNaN, .fixed (List.replicate 8 0), .fixed (nullValue.take 12)]
          [false, false, true] =
        hashRow (fun b h => h * 31 + b.length.toUInt32) 7
          [⟨.float, false⟩, ⟨.double, false⟩, ⟨.string, false⟩]
          [.fixed canonicalFloatNaN, .fixed (List.replicate 8 0), .fixed (nullValue.take 12)]
          [false, false, true] :=
  ⟨by decide, by decide, by decide, by decide, by decide,
    @hashRow_eq_of_equals true _ _ _
      [some (.fixed [1, 0, 0xc0, 0xff]), some (.fixed [0, 0, 0, 0, 0, 0, 0, 0x80]), none]
      [some (.fixed [0, 0, 0xc0, 0x7f]), some (.fixed (List.replicate 8 0)), none] ⟨_, _⟩ ⟨_, _⟩
      (by decide) (by decide) (by decide) (by decide) (by decide)⟩

end Equal

end Impala.HashTableCtx
